/-
This file models how the command `limit` prints a resource limit and reads one
(`prim-sys.cpp`), and proves when a limit that is printed is read back. Both use
the suffixes of a table, but a limit is printed as an `int`.
-/

import Desh.Print
import Desh.Status
import Mathlib.Data.UInt

namespace Desh

/-! ### Suffixes -/

/-- `Suffix`, without the pointer to the next one. -/
structure Suffix where
  name : Text
  amount : UInt64
  deriving DecidableEq

/-- What the `suffix` of a limit points to. -/
inductive SuffixTable where
  | NULL
  | sizesuf
  | timesuf
  deriving DecidableEq

/-- The chain of suffixes. -/
def SuffixTable.chain : SuffixTable → List Suffix
  | NULL => []
  | sizesuf => [⟨lit "g", 1024 * 1024 * 1024⟩, ⟨lit "m", 1024 * 1024⟩, ⟨lit "k", 1024⟩]
  | timesuf => [⟨lit "h", 60 * 60⟩, ⟨lit "m", 60⟩, ⟨lit "s", 1⟩]

/-- `Limit`, without the number that the system calls know it by. -/
structure Limit where
  name : Text
  suffix : SuffixTable
  deriving DecidableEq

/-- `RLIM_INFINITY`, as an `rlim_t`. -/
def RLIM_INFINITY : UInt64 := -1

/-! ### Printing -/

/-- The loop of `printlimit`: the first suffix that divides the limit, and the quotient. -/
def dividing (lim : UInt64) : List Suffix → UInt64 × Option Suffix
  | [] => (lim, none)
  | suf :: next =>
      if lim % suf.amount = 0 ∧ (lim ≠ 0 ∨ suf.amount > 1) then (lim / suf.amount, some suf)
      else dividing lim next

/-- What `printlimit` prints for a limit: `unlimited`, or `%d%s`. -/
def limitText (limit : Limit) (lim : UInt64) : Text :=
  if lim = RLIM_INFINITY then lit "unlimited"
  else
    let (lim, suf) := dividing lim limit.suffix.chain
    dconv .none lim ++
      match suf with
      | none => []
      | some suf => if lim = 0 then [] else suf.name

/-- `struct rlimit`. -/
structure Rlimit where
  rlim_cur : UInt64
  rlim_max : UInt64

/-- `printlimit`, given what `getrlimit` finds; the name is put in eight columns. -/
def printlimit (limit : Limit) (hard : Bool) (rlim : Rlimit) : Text :=
  limit.name ++ List.replicate (8 - limit.name.length) ' '.toUInt8 ++ lit "\t" ++
    limitText limit (if hard then rlim.rlim_max else rlim.rlim_cur) ++ lit "\n"

/-! ### Reading -/

/-- The failures of `parselimit`: who fails, and why. -/
def limitFail (front s : Text) : Text × Text :=
  (lit "$&limit", front ++ s ++ lit ": bad limit value")

/-- The loop of `parselimit` over the suffixes. -/
def suffixNamed (t : Text) : List Suffix → Option Suffix
  | [] => none
  | suf :: next => if suf.name = t then some suf else suffixNamed t next

/-- A number of `strtol` as an `rlim_t`. -/
def rlimOf (n : Int) : UInt64 := UInt64.ofInt n

/-- `parselimit`. -/
def parselimit (limit : Limit) (s : Text) : Except (Text × Text) UInt64 :=
  let bad := limitFail (limit.name ++ lit " ") s
  if s = lit "unlimited" then .ok RLIM_INFINITY
  else if !(s.head?.any isdigit) then .error (limitFail [] s)
  else
    let t := s.dropWhile (· ≠ ':'.toUInt8)
    if limit.suffix = .timesuf ∧ t ≠ [] then
      let (n, u) := strtol0 s
      let lim := rlimOf n * 60
      if u ≠ t then .error bad
      else
        let (n, t) := strtol0 u.tail
        let lim := lim + rlimOf n
        let (lim, t) :=
          if t.head? = some ':'.toUInt8 then
            let (n, t) := strtol0 t.tail
            (lim * 60 + rlimOf n, t)
          else (lim, t)
        if t ≠ [] then .error bad else .ok lim
    else
      let (n, t) := strtol0 s
      let lim := rlimOf n
      if t = [] then .ok lim
      else
        match suffixNamed t limit.suffix.chain with
        | none => .error bad
        | some suf => .ok (lim * suf.amount)

/-! ### Numbers -/

/-- The text of a number is its digits, and starts with a zero only if it is zero. -/
theorem utoa_spec (u : Nat) :
    ∃ c rest, utoa u 10 (digitTable false) = c :: rest ∧
      (∀ d ∈ c :: rest, isdigit d = true) ∧ valueOf 10 (c :: rest) = u ∧
      (c = '0'.toUInt8 → u = 0 ∧ rest = []) := by
  have digits : ∀ d < 10, isdigit ((digitTable false).getD d 0) = true ∧
      digitOf ((digitTable false).getD d 0) = d ∧
      ((digitTable false).getD d 0 = '0'.toUInt8 → d = 0) := by
    decide +kernel
  induction u using Nat.strong_induction_on with
  | h u inductionHypothesis =>
    rw [utoa]
    by_cases more : u ≥ 10
    · obtain ⟨c, rest, text, areDigits, value, zero⟩ := inductionHypothesis (u / 10) (by omega)
      obtain ⟨isDigit, last, -⟩ := digits (u % 10) (Nat.mod_lt _ (by decide))
      rw [if_pos more, text]
      refine ⟨c, rest ++ [(digitTable false).getD (u % 10) 0], rfl, ?_, ?_, fun isZero => ?_⟩
      · rw [← List.cons_append, List.forall_mem_append]
        exact ⟨areDigits, List.forall_mem_singleton.mpr isDigit⟩
      · rw [← List.cons_append, valueOf_snoc, value, last]
        omega
      · have none := (zero isZero).1
        omega
    · obtain ⟨isDigit, value, zero⟩ := digits u (not_le.mp more)
      rw [if_neg more]
      refine ⟨_, [], rfl, List.forall_mem_singleton.mpr isDigit, ?_,
        fun isZero => ⟨zero isZero, rfl⟩⟩
      rw [← List.nil_append [_], valueOf_snoc, value]
      exact Nat.zero_add _

/-- A text that does not go on with a number. -/
def EndsNumber (t : Text) : Prop :=
  ∀ c, t.head? = some c → 10 ≤ digitOf c ∧ c ≠ 'x'.toUInt8 ∧ c ≠ 'X'.toUInt8

/-- The base of a number that is written without a mark. -/
theorem baseOf_digits {c : UInt8} {rest t : Text} (lone : c = '0'.toUInt8 → rest = [])
    (ends : EndsNumber t) :
    baseOf (c :: rest ++ t) = (if c = '0'.toUInt8 then 8 else 10, c :: rest ++ t) := by
  unfold baseOf
  by_cases zero : c = '0'.toUInt8
  · rw [lone zero, if_pos zero, if_pos (by rw [zero]; rfl)]
    rcases t with _ | ⟨x, _ | ⟨digit, rest⟩⟩
    · rfl
    · rfl
    · refine if_neg ?_
      rintro ⟨isX | isX, -⟩
      · exact (ends x rfl).2.1 isX
      · exact (ends x rfl).2.2 isX
  · have other : (c :: rest ++ t).head? ≠ some '0'.toUInt8 := fun head =>
      zero (Option.some.inj head)
    rw [if_neg zero, if_neg other]

/-- A number is read back up to what follows it. -/
theorem strtol0_utoa {u : Nat} (small : u < 2 ^ 63) {t : Text} (ends : EndsNumber t) :
    strtol0 (utoa u 10 (digitTable false) ++ t) = ((u : Int), t) := by
  obtain ⟨c, rest, text, areDigits, value, zero⟩ := utoa_spec u
  have first : isdigit c = true := areDigits c List.mem_cons_self
  have facts : ∀ c, isdigit c = true → isspace c = false ∧ c ≠ '-'.toUInt8 ∧ c ≠ '+'.toUInt8 ∧
      digitOf c < 10 := forall_byte (by decide +kernel)
  obtain ⟨space, minus, plus, -⟩ := facts c first
  have sign : signOf ((c :: rest ++ t).dropWhile isspace) = (1, c :: rest ++ t) := by
    rw [List.cons_append, List.dropWhile_cons_of_neg (by rw [space]; exact Bool.false_ne_true),
      signOf, if_neg minus, if_neg plus]
  rw [text, strtol0, sign]
  dsimp only
  rw [baseOf_digits (fun isZero => (zero isZero).2) ends]
  -- the digits are those of the base that is read, and their value is the same in it
  set base := if c = '0'.toUInt8 then 8 else 10 with isBase
  have read : (∀ d ∈ c :: rest, digitOf d < base) ∧ valueOf base (c :: rest) = u ∧ base ≤ 10 := by
    by_cases isZero : c = '0'.toUInt8
    · obtain ⟨rfl, rfl⟩ := zero isZero
      rw [isBase, if_pos isZero, isZero]
      decide +kernel
    · rw [isBase, if_neg isZero]
      exact ⟨fun d member => (facts d (areDigits d member)).2.2.2, value, le_rfl⟩
  obtain ⟨inBase, same, atMost⟩ := read
  obtain ⟨taken, dropped⟩ := @takeWhile_run (fun c => decide (digitOf c < base)) (c :: rest) t
    (fun d member => decide_eq_true (inBase d member))
    (fun d head => decide_eq_false (by have large := (ends d head).1; omega))
  dsimp only
  rw [taken, dropped, if_neg (List.cons_ne_nil c rest), same]
  refine Prod.ext ?_ rfl
  dsimp only
  omega

/-- The magnitude of an `int`, as `intconv` finds it. -/
theorem toNat_magnitude (n : Int32) :
    (if 0 ≤ n.toInt64 then n.toInt64.toUInt64 else (-n.toInt64).toUInt64).toNat =
      n.toInt.natAbs := by
  have least := n.le_toInt
  have most := n.toInt_lt
  have value := n.toInt_toInt64
  have sign : 0 ≤ n.toInt64 ↔ 0 ≤ n.toInt := by
    rw [Int64.le_iff_toInt_le, value]
    rfl
  split_ifs with positive
  · have nonneg := sign.mp positive
    rw [Int64.toNat_toUInt64_of_le positive, Int64.toNatClampNeg, value]
    omega
  · have negative := mt sign.mpr positive
    have negated : (-n.toInt64).toInt = -n.toInt := by
      rw [Int64.toInt_neg, value]
      exact Int.bmod_eq_of_le (by omega) (by omega)
    have other : 0 ≤ -n.toInt64 := by
      rw [Int64.le_iff_toInt_le, negated]
      show 0 ≤ _
      omega
    rw [Int64.toNat_toUInt64_of_le other, Int64.toNatClampNeg, negated]
    omega

/-- `%d` prints the lower half of its argument. -/
theorem dconv_none (argument : UInt64) :
    dconv .none argument =
      (if 0 ≤ argument.toUInt32.toInt32.toInt then [] else lit "-") ++
        utoa argument.toUInt32.toInt32.toInt.natAbs 10 (digitTable false) := by
  have sign : 0 ≤ argument.toUInt32.toInt32.toInt64 ↔ 0 ≤ argument.toUInt32.toInt32.toInt := by
    rw [Int64.le_iff_toInt_le, Int32.toInt_toInt64]
    rfl
  rw [← toNat_magnitude, dconv, intconv, if_neg (by decide)]
  simp [FormatFlags.none, sign]

theorem toInt_lowerHalf (argument : UInt64) :
    argument.toUInt32.toInt32.toInt = (argument.toNat : Int).bmod (2 ^ 32) := by
  have same : argument.toUInt32 = UInt32.ofNat argument.toNat := rfl
  rw [same, UInt32.toInt32_ofNat', Int32.toInt_ofNat']
  rfl

/-- The lower half is the number itself just if that fits an `int`. -/
theorem lowerHalf_eq_iff (argument : UInt64) :
    argument.toUInt32.toInt32.toInt = argument.toNat ↔ argument.toNat < 2 ^ 31 := by
  have most := argument.toUInt32.toInt32.toInt_lt
  constructor
  · intro same
    omega
  · intro small
    rw [toInt_lowerHalf]
    exact Int.bmod_eq_of_le (by omega) (by omega)

/-! ### Limits that are read back -/

/-- The suffix of a printed number: its text, and what it stands for. -/
def suffixText (suf : Option Suffix) : Text := suf.elim [] (·.name)

def suffixUnit (suf : Option Suffix) : Nat := suf.elim 1 (·.amount.toNat)

/-- The units a limit is printed in. -/
def Limit.units (limit : Limit) : List Nat :=
  1 :: limit.suffix.chain.map (·.amount.toNat)

/-- The suffixes of a table are told apart from numbers and from one another. -/
theorem suffix_known (table : SuffixTable) :
    ∀ suf ∈ table.chain, suf.name ≠ [] ∧ suffixNamed suf.name table.chain = some suf ∧
      (∀ c ∈ suf.name, 10 ≤ digitOf c ∧ c ≠ 'x'.toUInt8 ∧ c ≠ 'X'.toUInt8 ∧ c ≠ ':'.toUInt8) ∧
      0 < suf.amount.toNat ∧ suf.amount.toNat ≤ 2 ^ 30 := by
  cases table <;> decide +kernel

/-- The larger ones come first. -/
theorem suffix_sorted (table : SuffixTable) :
    table.chain.Pairwise fun first second => second.amount.toNat ≤ first.amount.toNat := by
  cases table <;> decide +kernel

/-- The number of units that are read. -/
theorem rlimOf_natCast {n : Nat} (small : n < 2 ^ 31) : rlimOf n = UInt64.ofNat n := by
  rw [rlimOf, UInt64.ofInt]
  exact congrArg _ (by omega)

/-- A number that is printed with a suffix of the table is read as so many units. -/
theorem parselimit_utoa (limit : Limit) {n : Nat} (small : n < 2 ^ 31) {suf : Option Suffix}
    (known : ∀ other ∈ suf, other ∈ limit.suffix.chain) :
    parselimit limit (utoa n 10 (digitTable false) ++ suffixText suf) =
      .ok (UInt64.ofNat (n * suffixUnit suf)) := by
  have letters : ∀ c ∈ suffixText suf,
      10 ≤ digitOf c ∧ c ≠ 'x'.toUInt8 ∧ c ≠ 'X'.toUInt8 ∧ c ≠ ':'.toUInt8 := by
    cases suf with
    | none => exact nofun
    | some suf => exact (suffix_known _ suf (known suf rfl)).2.2.1
  have ends : EndsNumber (suffixText suf) := fun c head =>
    have letter := letters c (List.mem_of_mem_head? head)
    ⟨letter.1, letter.2.1, letter.2.2.1⟩
  have number := strtol0_utoa (show n < 2 ^ 63 by omega) ends
  obtain ⟨c, rest, text, areDigits, -, -⟩ := utoa_spec n
  have digits : ∀ d, isdigit d = true → d ≠ 'u'.toUInt8 ∧ d ≠ ':'.toUInt8 :=
    forall_byte (by decide +kernel)
  have colonFree : (utoa n 10 (digitTable false) ++ suffixText suf).dropWhile
      (· ≠ ':'.toUInt8) = [] := by
    rw [List.dropWhile_eq_nil_iff, List.forall_mem_append, text]
    exact ⟨fun d member => decide_eq_true (digits d (areDigits d member)).2,
      fun d member => decide_eq_true (letters d member).2.2.2⟩
  have first := areDigits c List.mem_cons_self
  unfold parselimit
  dsimp only
  rw [colonFree, number, if_neg, if_neg, if_neg fun both => both.2 rfl]
  · dsimp only
    rw [rlimOf_natCast small]
    cases suf with
    | none =>
      rw [suffixText, suffixUnit, Option.elim, Option.elim, if_pos rfl, Nat.mul_one]
    | some suf =>
      obtain ⟨nonempty, named, -, -, -⟩ := suffix_known _ suf (known suf rfl)
      rw [suffixText, suffixUnit, Option.elim, Option.elim, if_neg nonempty, named]
      dsimp only
      rw [UInt64.ofNat_mul, UInt64.ofNat_toNat]
  · rw [text]
    show ¬(!isdigit c) = true
    rw [first]
    exact Bool.false_ne_true
  · rw [text]
    intro same
    exact (digits c first).1 (List.cons.inj same).1

/-- The number that is printed, times its unit, is the limit, and no other suffix that divides the
limit is larger. -/
theorem dividing_spec {lim : UInt64} (nonzero : lim ≠ 0) {chain : List Suffix}
    (positive : ∀ suf ∈ chain, 0 < suf.amount.toNat)
    (sorted : chain.Pairwise fun first second => second.amount.toNat ≤ first.amount.toNat) :
    ∃ q suf, dividing lim chain = (q, suf) ∧ (∀ other ∈ suf, other ∈ chain) ∧
      q.toNat * suffixUnit suf = lim.toNat ∧
      ∀ other ∈ chain, other.amount.toNat ∣ lim.toNat → other.amount.toNat ≤ suffixUnit suf := by
  induction chain with
  | nil => exact ⟨lim, none, rfl, nofun, Nat.mul_one _, nofun⟩
  | cons suf next inductionHypothesis =>
    rw [List.forall_mem_cons] at positive
    rw [List.pairwise_cons] at sorted
    have divides : lim % suf.amount = 0 ↔ suf.amount.toNat ∣ lim.toNat := by
      rw [← UInt64.toNat_inj, UInt64.toNat_mod, Nat.dvd_iff_mod_eq_zero]
      rfl
    rw [dividing]
    by_cases exact : suf.amount.toNat ∣ lim.toNat
    · rw [if_pos ⟨divides.mpr exact, .inl nonzero⟩]
      refine ⟨_, _, rfl, ?_, ?_, ?_⟩
      · rintro other same
        cases same
        exact List.mem_cons_self
      · rw [UInt64.toNat_div]
        exact Nat.div_mul_cancel exact
      · rw [List.forall_mem_cons]
        exact ⟨fun _ => le_rfl, fun other member _ => sorted.1 other member⟩
    · rw [if_neg fun both => exact (divides.mp both.1)]
      obtain ⟨q, found, same, known, quotient, largest⟩ :=
        inductionHypothesis positive.2 sorted.2
      refine ⟨q, found, same, fun other member => List.mem_cons_of_mem _ (known other member),
        quotient, ?_⟩
      rw [List.forall_mem_cons]
      exact ⟨fun divisor => absurd divisor exact, largest⟩

theorem dividing_zero (chain : List Suffix) : (dividing 0 chain).1 = 0 := by
  induction chain with
  | nil => rfl
  | cons suf next inductionHypothesis =>
    rw [dividing]
    split_ifs
    · exact UInt64.zero_div
    · exact inductionHypothesis

/-- A limit of zero is printed without a suffix. -/
theorem limitText_zero (limit : Limit) :
    limitText limit 0 = utoa 0 10 (digitTable false) ++ suffixText none := by
  have zero := dividing_zero limit.suffix.chain
  rw [limitText, if_neg (by decide)]
  generalize dividing 0 limit.suffix.chain = divided at zero ⊢
  obtain ⟨q, suf⟩ := divided
  cases (show q = 0 from zero)
  dsimp only
  rw [dconv_none]
  cases suf <;> rfl

/-- A limit that is not unlimited is read back from what is printed for it just if one of its units
divides it less than `2 ^ 31` times. -/
theorem parselimit_limitText_iff (limit : Limit) (lim : UInt64) (finite : lim ≠ RLIM_INFINITY) :
    parselimit limit (limitText limit lim) = .ok lim ↔
      ∃ unit ∈ limit.units, unit ∣ lim.toNat ∧ lim.toNat < 2 ^ 31 * unit := by
  by_cases nonzero : lim = 0
  · subst nonzero
    refine iff_of_true ?_ ⟨1, List.mem_cons_self, Nat.one_dvd _, by decide⟩
    rw [limitText_zero, @parselimit_utoa limit 0 (by decide) none nofun, Nat.zero_mul]
    rfl
  · have table := suffix_known limit.suffix
    obtain ⟨q, suf, divided, known, quotient, largest⟩ := dividing_spec nonzero
      (fun suf member => (table suf member).2.2.2.1) (suffix_sorted limit.suffix)
    have unit : 0 < suffixUnit suf ∧ suffixUnit suf ≤ 2 ^ 30 ∧ suffixUnit suf ∈ limit.units := by
      cases suf with
      | none => exact ⟨Nat.one_pos, by decide, List.mem_cons_self⟩
      | some suf =>
        have member := known suf rfl
        exact ⟨(table suf member).2.2.2.1, (table suf member).2.2.2.2,
          List.mem_cons_of_mem _ (List.mem_map_of_mem member)⟩
    obtain ⟨positive, atMost, isUnit⟩ := unit
    -- the condition is about the number that is printed
    have condition : (∃ unit ∈ limit.units, unit ∣ lim.toNat ∧ lim.toNat < 2 ^ 31 * unit) ↔
        q.toNat < 2 ^ 31 := by
      constructor
      · rintro ⟨unit, member, divides, few⟩
        have smaller : unit ≤ suffixUnit suf := by
          rcases List.mem_cons.mp member with rfl | member
          · exact positive
          · obtain ⟨other, inChain, rfl⟩ := List.mem_map.mp member
            exact largest other inChain divides
        refine Nat.lt_of_mul_lt_mul_right (a := suffixUnit suf) ?_
        rw [quotient]
        exact few.trans_le (Nat.mul_le_mul_left _ smaller)
      · intro few
        refine ⟨_, isUnit, ⟨q.toNat, by rw [← quotient, Nat.mul_comm]⟩, ?_⟩
        rw [← quotient]
        exact Nat.mul_lt_mul_of_pos_right few positive
    have nonzeroQuotient : q ≠ 0 := by
      rintro rfl
      refine nonzero (UInt64.toNat_inj.mp ?_)
      rw [← quotient]
      exact Nat.zero_mul _
    have text : limitText limit lim = dconv .none q ++ suffixText suf := by
      rw [limitText, if_neg finite, divided]
      cases suf with
      | none => rfl
      | some suf => exact congrArg _ (if_neg nonzeroQuotient)
    rw [condition, ← lowerHalf_eq_iff, text, dconv_none]
    set printed := q.toUInt32.toInt32.toInt with isPrinted
    have bound : printed < 2 ^ 31 := q.toUInt32.toInt32.toInt_lt
    by_cases negative : 0 ≤ printed
    · rw [if_pos negative, List.nil_append, parselimit_utoa limit (by omega) known,
        Except.ok.injEq, ← UInt64.toNat_inj, ← quotient, UInt64.toNat_ofNat', Nat.mod_eq_of_lt,
        Nat.mul_left_inj positive.ne']
      · omega
      · calc printed.natAbs * suffixUnit suf ≤ 2 ^ 31 * 2 ^ 30 :=
              Nat.mul_le_mul (by omega) atMost
          _ < 2 ^ 64 := by decide
    · refine iff_of_false ?_ (by omega)
      rw [if_neg negative]
      exact nofun

/-- Two gigabytes are printed as such. -/
theorem parselimit_limitText_gigabytes :
    parselimit ⟨lit "filesize", .sizesuf⟩ (limitText ⟨lit "filesize", .sizesuf⟩ (2 ^ 31)) =
      .ok (2 ^ 31) :=
  (parselimit_limitText_iff _ _ (by decide)).mpr ⟨2 ^ 30, by decide, by decide, by decide⟩

/-- A byte more is printed as a negative number, and fails. -/
theorem parselimit_limitText_negative :
    limitText ⟨lit "filesize", .sizesuf⟩ (2 ^ 31 + 1) = lit "-2147483647" ∧
      parselimit ⟨lit "filesize", .sizesuf⟩
          (limitText ⟨lit "filesize", .sizesuf⟩ (2 ^ 31 + 1)) =
        .error (lit "$&limit", lit "-2147483647: bad limit value") := by
  have text : limitText ⟨lit "filesize", .sizesuf⟩ (2 ^ 31 + 1) = lit "-2147483647" := by
    have undivided : dividing (2 ^ 31 + 1) SuffixTable.sizesuf.chain = (2 ^ 31 + 1, none) := by
      decide
    have printed : (2 ^ 31 + 1 : UInt64).toUInt32.toInt32.toInt = -2147483647 := by decide
    rw [limitText, if_neg (by decide), undivided]
    dsimp only
    rw [dconv_none, printed]
    simp [utoa]
    decide
  refine ⟨text, ?_⟩
  rw [text]
  decide

end Desh
