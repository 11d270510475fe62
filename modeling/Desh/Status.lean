/-
This file models `status.c`: when a list counts as true, and with which code a
shell exits for it. The one compares characters, and the other reads a number
in any base, so they differ on the numerals of zero that are not spelt `0`. The
difference is seen by a shell that exits on a false result, and by the parent of
a forked command.
-/

import Mathlib.Data.List.TakeWhile
import Desh.Glom

namespace Desh

/-! ### Numbers in any base -/

/-- The value of a digit, 36 for what is none. -/
def digitOf (c : UInt8) : Nat :=
  if '0'.toUInt8 ≤ c ∧ c ≤ '9'.toUInt8 then (c - '0'.toUInt8).toNat
  else if 'a'.toUInt8 ≤ c ∧ c ≤ 'z'.toUInt8 then (c - 'a'.toUInt8).toNat + 10
  else if 'A'.toUInt8 ≤ c ∧ c ≤ 'Z'.toUInt8 then (c - 'A'.toUInt8).toNat + 10
  else 36

/-- The sign of a number, and what is behind it. -/
def signOf : Text → Int × Text
  | c :: rest =>
      if c = '-'.toUInt8 then (-1, rest) else if c = '+'.toUInt8 then (1, rest) else (1, c :: rest)
  | [] => (1, [])

/-- The base of a number without a sign, and its digits. -/
def baseOf (s : Text) : Nat × Text :=
  if s.head? = some '0'.toUInt8 then
    match s.tail with
    | x :: digit :: rest =>
        if (x = 'x'.toUInt8 ∨ x = 'X'.toUInt8) ∧ digitOf digit < 16 then (16, digit :: rest)
        else (8, s)
    | _ => (8, s)
  else (10, s)

def valueOf (base : Nat) (digits : Text) : Nat :=
  digits.foldl (fun n c => n * base + digitOf c) 0

/-- `strtol` with base 0: the number, and where it stopped. -/
def strtol0 (s : Text) : Int × Text :=
  let (sign, s') := signOf (s.dropWhile isspace)
  let (base, digits) := baseOf s'
  let isDigit := fun c => decide (digitOf c < base)
  if digits.takeWhile isDigit = [] then (0, s)
  else
    (max (-2 ^ 63) (min (2 ^ 63 - 1) (sign * valueOf base (digits.takeWhile isDigit))),
      digits.dropWhile isDigit)

/-! ### Statuses -/

/-- A term of a status. -/
inductive StatusTerm (Closure : Type) where
  | str (s : Text)
  | closure (closure : Closure)

variable {Closure : Type}

/-- `istrue`. -/
def istrue : List (StatusTerm Closure) → Bool
  | [] => true
  | .closure _ :: _ => false
  | .str s :: status => (s.isEmpty || s == lit "0") && istrue status

/-- `exitstatus`, whose number is an `unsigned long`. -/
def exitstatus : List (StatusTerm Closure) → Nat
  | [] => 0
  | [.closure _] => 1
  | [.str s] =>
      if s = [] then 0
      else
        let (n, rest) := strtol0 s
        if rest ≠ [] ∨ n % 2 ^ 64 > 255 then 1 else (n % 2 ^ 64).toNat
  | status => if istrue status then 0 else 1

/-- How a child ended. -/
inductive WaitStatus where
  | exited (code : Nat)
  | signaled (signal : Nat) (coredump : Bool)

/-- `mkstatus`, given the names of signals. -/
def mkstatus (signame : Nat → Text) : WaitStatus → Text
  | .signaled signal coredump =>
      if coredump then signame signal ++ lit "+core" else signame signal
  | .exited code => decimalDigits code

/-- The end of `eval` with `EVAL_EXITONFALSE`: the code it exits with, if it does. -/
def exitOnFalse (list : List (StatusTerm Closure)) : Option Nat :=
  if istrue list then none else some (exitstatus list)

/-- The result of `$&fork` for a thunk that returns a list, where no signal ends the child: its
exit code is one byte. -/
def primFork (signame : Nat → Text) (list : List (StatusTerm Closure)) :
    List (StatusTerm Closure) :=
  [.str (mkstatus signame (.exited (exitstatus list % 256)))]

/-! ### Numerals of zero -/

/-- Zeros, at least one. -/
def Zeros (digits : Text) : Prop := digits ≠ [] ∧ ∀ c ∈ digits, c = '0'.toUInt8

/-- A numeral of zero: blanks, a sign, the mark of base 16, zeros. -/
def ZeroNumeral (s : Text) : Prop :=
  ∃ blanks sign mark zeros, s = blanks ++ (sign ++ (mark ++ zeros)) ∧
    (∀ c ∈ blanks, isspace c = true) ∧ sign ∈ [[], lit "+", lit "-"] ∧
    mark ∈ [[], lit "0x", lit "0X"] ∧ Zeros zeros

theorem digitOf_eq_zero (c : UInt8) : digitOf c = 0 ↔ c = '0'.toUInt8 :=
  forall_byte (by decide +kernel) c

theorem valueOf_snoc (base : Nat) (digits : Text) (c : UInt8) :
    valueOf base (digits ++ [c]) = valueOf base digits * base + digitOf c := by
  rw [valueOf, List.foldl_append]
  rfl

theorem valueOf_eq_zero {base : Nat} (positive : 0 < base) (digits : Text) :
    valueOf base digits = 0 ↔ ∀ c ∈ digits, c = '0'.toUInt8 := by
  induction digits using List.reverseRecOn with
  | nil => exact ⟨fun _ => nofun, fun _ => rfl⟩
  | append_singleton digits c inductionHypothesis =>
    rw [valueOf_snoc, List.forall_mem_append, List.forall_mem_singleton, ← inductionHypothesis,
      ← digitOf_eq_zero, Nat.add_eq_zero_iff, Nat.mul_eq_zero, or_iff_left positive.ne']

/-- Digits that are read to their end and have the value zero are zeros. -/
theorem zeros_iff {base : Nat} (positive : 0 < base) (digits : Text) :
    let isDigit := fun c => decide (digitOf c < base)
    digits.takeWhile isDigit ≠ [] ∧ digits.dropWhile isDigit = [] ∧
      valueOf base (digits.takeWhile isDigit) = 0 ↔ Zeros digits := by
  intro isDigit
  have parts := List.takeWhile_append_dropWhile (p := isDigit) (l := digits)
  constructor
  · rintro ⟨nonempty, whole, zero⟩
    rw [whole, List.append_nil] at parts
    rw [parts] at nonempty zero
    exact ⟨nonempty, (valueOf_eq_zero positive digits).mp zero⟩
  · rintro ⟨nonempty, zeros⟩
    have all : ∀ c ∈ digits, isDigit c = true := by
      intro c member
      rw [zeros c member]
      exact decide_eq_true positive
    have run := List.takeWhile_eq_self_iff.mpr all
    rw [run, List.dropWhile_eq_nil_iff.mpr all]
    exact ⟨nonempty, rfl, (valueOf_eq_zero positive digits).mpr zeros⟩

theorem baseOf_positive (s : Text) : 0 < (baseOf s).1 := by
  unfold baseOf
  split
  · split
    · split <;> exact Nat.succ_pos _
    · exact Nat.succ_pos _
  · exact Nat.succ_pos _

theorem signOf_unit (s : Text) : (signOf s).1 = 1 ∨ (signOf s).1 = -1 := by
  unfold signOf
  split
  · split
    · exact .inr rfl
    · split <;> exact .inl rfl
  · exact .inl rfl

theorem clamp_eq_zero {sign : Int} (unit : sign = 1 ∨ sign = -1) (value : Nat) :
    max (-2 ^ 63) (min (2 ^ 63 - 1) (sign * value)) = 0 ↔ value = 0 := by
  rcases unit with rfl | rfl <;> omega

/-- A string is read to its end as zero when its digits are zeros. -/
theorem strtol0_zero {s : Text} (nonempty : s ≠ []) :
    strtol0 s = (0, []) ↔ Zeros (baseOf (signOf (s.dropWhile isspace)).2).2 := by
  refine Iff.trans ?_ (zeros_iff (baseOf_positive (signOf (s.dropWhile isspace)).2) _)
  unfold strtol0
  dsimp only
  split_ifs with empty
  · exact ⟨fun same => absurd (congrArg Prod.snd same) nonempty, fun all => absurd empty all.1⟩
  · rw [Prod.mk.injEq, clamp_eq_zero (signOf_unit _), and_comm]
    exact (and_iff_right empty).symm

theorem head_zeros {zeros : Text} (isZeros : Zeros zeros) :
    ∃ rest, zeros = '0'.toUInt8 :: rest ∧ ∀ c ∈ rest, c = '0'.toUInt8 := by
  obtain ⟨nonempty, all⟩ := isZeros
  cases zeros with
  | nil => exact absurd rfl nonempty
  | cons c rest =>
    obtain ⟨rfl, others⟩ := List.forall_mem_cons.mp all
    exact ⟨rest, rfl, others⟩

theorem baseOf_zeros (s : Text) : Zeros (baseOf s).2 ↔
    ∃ mark ∈ [[], lit "0x", lit "0X"], ∃ zeros, s = mark ++ zeros ∧ Zeros zeros := by
  constructor
  · intro zeros
    unfold baseOf at zeros
    split at zeros
    · rename_i first
      split at zeros
      · rename_i x digit rest behind
        split at zeros
        · rename_i hex
          have whole : s = '0'.toUInt8 :: x :: digit :: rest := by
            cases s with
            | nil => cases first
            | cons c s =>
              cases Option.some.inj first
              rw [← behind]
              rfl
          rcases hex.1 with rfl | rfl
          · exact ⟨lit "0x", by decide, digit :: rest, whole, zeros⟩
          · exact ⟨lit "0X", by decide, digit :: rest, whole, zeros⟩
        · exact ⟨[], List.mem_cons_self, s, rfl, zeros⟩
      · exact ⟨[], List.mem_cons_self, s, rfl, zeros⟩
    · exact ⟨[], List.mem_cons_self, s, rfl, zeros⟩
  · rintro ⟨mark, member, zeros, rfl, isZeros⟩
    obtain ⟨rest, same, others⟩ := head_zeros isZeros
    simp only [List.mem_cons, List.not_mem_nil, or_false] at member
    rcases member with rfl | rfl | rfl
    · have octal : baseOf ([] ++ zeros) = (8, zeros) := by
        rw [List.nil_append, baseOf, same, List.head?_cons, if_pos rfl]
        dsimp only [List.tail_cons]
        rcases rest with _ | ⟨x, _ | ⟨digit, rest⟩⟩
        · rfl
        · rfl
        · rw [List.forall_mem_cons] at others
          dsimp only
          rw [if_neg]
          rw [others.1]
          exact fun hex => absurd hex.1 (by decide)
      rw [octal]
      exact isZeros
    · rw [same]
      rw [same] at isZeros
      exact isZeros
    · rw [same]
      rw [same] at isZeros
      exact isZeros

theorem signed_zeros (s : Text) : Zeros (baseOf (signOf s).2).2 ↔
    ∃ sign ∈ [[], lit "+", lit "-"], ∃ mark ∈ [[], lit "0x", lit "0X"], ∃ zeros,
      s = sign ++ (mark ++ zeros) ∧ Zeros zeros := by
  rw [baseOf_zeros]
  constructor
  · rintro ⟨mark, isMark, zeros, same, isZeros⟩
    unfold signOf at same
    split at same
    · rename_i c rest
      split at same
      · rename_i minus
        refine ⟨lit "-", by decide, mark, isMark, zeros, ?_, isZeros⟩
        rw [← same, minus]
        rfl
      · split at same
        · rename_i plus
          refine ⟨lit "+", by decide, mark, isMark, zeros, ?_, isZeros⟩
          rw [← same, plus]
          rfl
        · exact ⟨[], by decide, mark, isMark, zeros, same, isZeros⟩
    · exact ⟨[], by decide, mark, isMark, zeros, same, isZeros⟩
  · rintro ⟨sign, isSign, mark, isMark, zeros, rfl, isZeros⟩
    refine ⟨mark, isMark, zeros, ?_, isZeros⟩
    obtain ⟨rest, same, -⟩ := head_zeros isZeros
    simp only [List.mem_cons, List.not_mem_nil, or_false] at isSign isMark
    rcases isSign with rfl | rfl | rfl
    · rcases isMark with rfl | rfl | rfl <;> rw [same] <;> rfl
    · rfl
    · rfl

theorem strtol0_zeroNumeral {s : Text} (nonempty : s ≠ []) :
    strtol0 s = (0, []) ↔ ZeroNumeral s := by
  rw [strtol0_zero nonempty, signed_zeros]
  constructor
  · rintro ⟨sign, isSign, mark, isMark, zeros, same, isZeros⟩
    refine ⟨s.takeWhile isspace, sign, mark, zeros, ?_, fun c member => ?_, isSign, isMark, isZeros⟩
    · rw [← same, List.takeWhile_append_dropWhile]
    · exact List.mem_takeWhile_imp member
  · rintro ⟨blanks, sign, mark, zeros, rfl, areBlanks, isSign, isMark, isZeros⟩
    refine ⟨sign, isSign, mark, isMark, zeros, ?_, isZeros⟩
    obtain ⟨rest, same, -⟩ := head_zeros isZeros
    rw [List.dropWhile_append_of_pos areBlanks]
    simp only [List.mem_cons, List.not_mem_nil, or_false] at isSign isMark
    rcases isSign with rfl | rfl | rfl
    · rcases isMark with rfl | rfl | rfl <;> rw [same] <;> rfl
    · rfl
    · rfl

/-! ### Truth and exit code -/

theorem exitstatus_le (list : List (StatusTerm Closure)) : exitstatus list ≤ 255 := by
  unfold exitstatus
  split
  · exact Nat.zero_le _
  · decide
  · split
    · exact Nat.zero_le _
    · dsimp only
      split_ifs with outside
      · decide
      · omega
  · split <;> decide

/-- For a string that is not empty, the code is zero just for a numeral of zero. -/
theorem exitstatus_str {s : Text} (nonempty : s ≠ []) :
    exitstatus [(.str s : StatusTerm Closure)] = 0 ↔ ZeroNumeral s := by
  have bounds : -2 ^ 63 ≤ (strtol0 s).1 ∧ (strtol0 s).1 < 2 ^ 63 := by
    unfold strtol0
    dsimp only
    split_ifs <;> dsimp only <;> omega
  rw [exitstatus, if_neg nonempty, ← strtol0_zeroNumeral nonempty, Prod.ext_iff]
  dsimp only
  by_cases whole : (strtol0 s).2 = []
  · by_cases large : (strtol0 s).1 % 2 ^ 64 > 255
    · rw [if_pos (.inr large)]
      refine ⟨nofun, fun same => absurd large ?_⟩
      rw [same.1]
      decide
    · rw [if_neg (not_or.mpr ⟨not_not.mpr whole, large⟩), and_iff_left whole]
      omega
  · rw [if_pos (.inl whole)]
    exact ⟨nofun, fun same => absurd same.2 whole⟩

theorem istrue_str (s : Text) : istrue [(.str s : StatusTerm Closure)] = true ↔
    s = [] ∨ s = lit "0" := by
  rw [istrue, istrue, Bool.and_true, Bool.or_eq_true, List.isEmpty_iff, beq_iff_eq]

theorem zeroNumeral_zero : ZeroNumeral (lit "0") :=
  ⟨[], [], [], lit "0", rfl, nofun, List.mem_cons_self, List.mem_cons_self, nofun,
    fun _ member => List.mem_singleton.mp member⟩

theorem not_zeroNumeral_nil : ¬ZeroNumeral [] := by
  rintro ⟨blanks, sign, mark, zeros, same, -, -, -, isZeros⟩
  obtain ⟨rest, rfl, -⟩ := head_zeros isZeros
  simp at same

/-- Truth and exit code classify a list alike, unless it is a numeral of zero other than `0`. -/
theorem istrue_iff_exitstatus (list : List (StatusTerm Closure)) :
    (istrue list = true ↔ exitstatus list = 0) ↔
      ¬∃ s, list = [.str s] ∧ s ≠ lit "0" ∧ ZeroNumeral s := by
  match list with
  | [] =>
    refine iff_of_true (iff_of_true rfl rfl) ?_
    rintro ⟨s, ⟨⟩, -⟩
  | [.closure closure] =>
    refine iff_of_true (iff_of_false nofun nofun) ?_
    rintro ⟨s, ⟨⟩, -⟩
  | [.str s] =>
    rw [istrue_str]
    by_cases empty : s = []
    · subst empty
      refine iff_of_true (iff_of_true (.inl rfl) rfl) ?_
      rintro ⟨s, same, -, zero⟩
      cases same
      exact not_zeroNumeral_nil zero
    · rw [exitstatus_str empty, or_iff_right empty]
      by_cases zero : s = lit "0"
      · subst zero
        refine iff_of_true (iff_of_true rfl zeroNumeral_zero) ?_
        rintro ⟨s, same, other, -⟩
        cases same
        exact other rfl
      · rw [iff_false_left zero]
        refine not_congr ⟨fun isZero => ⟨s, rfl, zero, isZero⟩, ?_⟩
        rintro ⟨s, same, -, isZero⟩
        cases same
        exact isZero
  | first :: second :: rest =>
    refine iff_of_true ?_ ?_
    · rw [exitstatus]
      · cases istrue (first :: second :: rest) <;> decide
      · exact nofun
      · exact nofun
      · exact nofun
    · rintro ⟨s, ⟨⟩, -⟩

/-- The decimal text of a code is true just for zero. -/
theorem istrue_decimalDigits {code : Nat} (byte : code < 256) :
    istrue [(.str (decimalDigits code) : StatusTerm Closure)] = decide (code = 0) := by
  have each : ∀ code < 256,
      decimalDigits code ≠ [] ∧ (decimalDigits code = lit "0" ↔ code = 0) := by
    decide +kernel
  obtain ⟨nonempty, zero⟩ := each code byte
  rw [Bool.eq_iff_iff, istrue_str, or_iff_right nonempty, zero, decide_eq_true_iff]

/-- What the shell and its parent make of a status: its truth is that of its exit code, a shell
does not exit on false with code 0, and the parent sees the truth of the result. -/
def StatusAgrees (signame : Nat → Text) (list : List (StatusTerm Closure)) : Prop :=
  (istrue list = true ↔ exitstatus list = 0) ∧ exitOnFalse list ≠ some 0 ∧
    istrue (primFork signame list) = istrue list

/-- They agree on a list just if it is no numeral of zero, or spelt `0`. -/
theorem statusAgrees_iff (signame : Nat → Text) (list : List (StatusTerm Closure)) :
    StatusAgrees signame list ↔ ¬∃ s, list = [.str s] ∧ s ≠ lit "0" ∧ ZeroNumeral s := by
  rw [← istrue_iff_exitstatus]
  refine ⟨fun agrees => agrees.1, fun same => ⟨same, ?_, ?_⟩⟩
  · unfold exitOnFalse
    split_ifs with holds
    · exact nofun
    · intro zero
      exact holds (same.mpr (Option.some.inj zero))
  · have byte : exitstatus list < 256 := Nat.lt_succ_of_le (exitstatus_le list)
    rw [primFork, mkstatus, Nat.mod_eq_of_lt byte, istrue_decimalDigits byte, Bool.eq_iff_iff,
      decide_eq_true_iff, same]

/-- `00` is false, but a shell exits with code 0 for it. -/
theorem not_statusAgrees_double_zero :
    ¬StatusAgrees (fun _ => []) [(.str (lit "00") : StatusTerm Unit)] := by
  intro agrees
  have holds : istrue [(.str (lit "00") : StatusTerm Unit)] = true := agrees.1.mpr (by decide)
  exact absurd holds (by decide)

end Desh
