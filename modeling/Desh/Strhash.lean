/-
This file models the hash of `dict.c` and proves that a lookup of two strings is
a lookup of the one they make together. The loop of `strhash2` mixes four
characters in a round, each its own way, and may go over to the second string
before any of them.
-/

import Desh.Dict

namespace Desh

/-! ### The hash -/

/-- `ADVANCE` of `strhash2`: the next character, and where `s` and `str2` are then. It breaks the
loop by an exception, with the hash so far. -/
def ADVANCE (n : UInt64) : Text → Option Text → Except UInt64 (Int32 × Text × Option Text)
  | c :: s, str2 => .ok (c.toUInt32.toInt32, s, str2)
  | [], none => .error n
  | [], some [] => .error n
  | [], some (c :: s) => .ok (c.toUInt32.toInt32, s, none)

/-- An `int` as an `unsigned long`. -/
def ulong (n : Int32) : UInt64 := n.toInt64.toUInt64

/-- A round of the loop of `strhash2`. -/
def strhash2Round (s : Text) (str2 : Option Text) (n : UInt64) :
    Except UInt64 (Text × Option Text × UInt64) := do
  let (c, s, str2) ← ADVANCE n s str2
  let n := n + ulong ((c <<< 17) ^^^ (c <<< 11) ^^^ (c <<< 5) ^^^ (c >>> 1))
  let (c, s, str2) ← ADVANCE n s str2
  let n := n ^^^ ulong ((c <<< 14) + (c <<< 7) + (c <<< 4) + c)
  let (c, s, str2) ← ADVANCE n s str2
  let n := n ^^^ ulong ((~~~c <<< 11) ||| ((c <<< 3) ^^^ (c >>> 1)))
  let (c, s, str2) ← ADVANCE n s str2
  let n := n - ulong ((c <<< 16) ||| (c <<< 9) ||| (c <<< 2) ||| (c &&& 3))
  return (s, str2, n)

/-- The characters that are left. -/
def ahead (s : Text) (str2 : Option Text) : Text := s ++ str2.getD []

section

variable {s s' : Text} {str2 str2' : Option Text} {n n' : UInt64}

theorem length_ahead_of_advance {c : Int32} (next : ADVANCE n s str2 = .ok (c, s', str2')) :
    (ahead s str2).length = (ahead s' str2').length + 1 := by
  unfold ADVANCE at next
  split at next <;> cases next <;> simp [ahead]

theorem ok_of_bind {ε α β : Type} {first : Except ε α} {next : α → Except ε β} {result : β}
    (ok : (first >>= next) = .ok result) :
    ∃ value, first = .ok value ∧ next value = .ok result := by
  cases first with
  | error e => cases ok
  | ok value => exact ⟨value, rfl, ok⟩

/-- A round that goes on has taken characters. -/
theorem length_ahead_of_round (round : strhash2Round s str2 n = .ok (s', str2', n')) :
    (ahead s' str2').length < (ahead s str2).length := by
  obtain ⟨⟨_, s₁, t₁⟩, first, round⟩ := ok_of_bind round
  obtain ⟨⟨_, s₂, t₂⟩, second, round⟩ := ok_of_bind round
  obtain ⟨⟨_, s₃, t₃⟩, third, round⟩ := ok_of_bind round
  obtain ⟨⟨_, s₄, t₄⟩, fourth, round⟩ := ok_of_bind round
  cases round
  rw [length_ahead_of_advance first, length_ahead_of_advance second,
    length_ahead_of_advance third, length_ahead_of_advance fourth]
  omega

end

/-- The loop of `strhash2`. -/
def strhash2Loop (s : Text) (str2 : Option Text) (n : UInt64) : UInt64 :=
  match _round : strhash2Round s str2 n with
  | .error n => n
  | .ok (s, str2, n) => strhash2Loop s str2 n
termination_by (ahead s str2).length
decreasing_by exact length_ahead_of_round _round

/-- `strhash2`; a null pointer for the second string is `none`. -/
def strhash2 (str1 : Text) (str2 : Option Text) : UInt64 := strhash2Loop str1 str2 0

/-- `strhash`. -/
def strhash (str : Text) : UInt64 := strhash2 str none

/-! ### One string or two -/

/-- The next character does not depend on where the strings are split. -/
theorem advance_ahead (n : UInt64) (s : Text) (str2 : Option Text) :
    ADVANCE n (ahead s str2) none =
      (fun (c, s, str2) => (c, ahead s str2, none)) <$> ADVANCE n s str2 := by
  match s, str2 with
  | [], none => rfl
  | [], some [] => rfl
  | [], some (c :: s) =>
    exact congrArg (fun s => Except.ok (_, s, none)) (List.append_nil s).symm
  | c :: s, str2 => rfl

/-- Nor does a round, in whichever of its steps the first string ends. -/
theorem strhash2Round_ahead (s : Text) (str2 : Option Text) (n : UInt64) :
    strhash2Round (ahead s str2) none n =
      (fun (s, str2, n) => (ahead s str2, none, n)) <$> strhash2Round s str2 n := by
  unfold strhash2Round
  simp only [advance_ahead, map_bind, bind_map_left, map_pure]

theorem strhash2Loop_of_error {s : Text} {str2 : Option Text} {n result : UInt64}
    (round : strhash2Round s str2 n = .error result) : strhash2Loop s str2 n = result := by
  rw [strhash2Loop]
  split
  · rename_i broken
    exact Except.error.inj (broken.symm.trans round)
  · rename_i going
    cases going.symm.trans round

theorem strhash2Loop_of_ok {s s' : Text} {str2 str2' : Option Text} {n n' : UInt64}
    (round : strhash2Round s str2 n = .ok (s', str2', n')) :
    strhash2Loop s str2 n = strhash2Loop s' str2' n' := by
  rw [strhash2Loop]
  split
  · rename_i broken
    cases broken.symm.trans round
  · rename_i going
    cases going.symm.trans round
    rfl

theorem strhash2Loop_ahead (s : Text) (str2 : Option Text) (n : UInt64) :
    strhash2Loop s str2 n = strhash2Loop (ahead s str2) none n := by
  fun_induction strhash2Loop s str2 n with
  | case1 s str2 n result round =>
    have joined := strhash2Round_ahead s str2 n
    rw [round] at joined
    exact (strhash2Loop_of_error joined).symm
  | case2 s str2 n s' str2' n' round inductionHypothesis =>
    have joined := strhash2Round_ahead s str2 n
    rw [round] at joined
    rw [inductionHypothesis]
    exact (strhash2Loop_of_ok joined).symm

theorem strhash2_eq (str1 str2 : Text) : strhash2 str1 (some str2) = strhash (str1 ++ str2) :=
  strhash2Loop_ahead str1 (some str2) 0

/-! ### Equality with two strings -/

theorem streq2Loop_eq_some (t s rest : Text) : streq2Loop t s = some rest ↔ s = t ++ rest := by
  induction t generalizing s with
  | nil => exact Option.some_inj
  | cons c t inductionHypothesis =>
    cases s with
    | nil => exact iff_of_false nofun nofun
    | cons d s =>
      rw [streq2Loop]
      by_cases same : c = d
      · subst same
        rw [if_neg (not_not.mpr rfl), inductionHypothesis, List.cons_append, List.cons_inj_right]
      · rw [if_pos same]
        exact iff_of_false nofun fun whole => same (List.cons.inj whole).1.symm

theorem streq2_eq_true (s t1 t2 : Text) : streq2 s t1 t2 = true ↔ s = t1 ++ t2 := by
  unfold streq2
  cases first : streq2Loop t1 s with
  | none =>
    refine iff_of_false nofun fun whole => ?_
    rw [(streq2Loop_eq_some t1 s t2).mpr whole] at first
    cases first
  | some behind =>
    rw [(streq2Loop_eq_some t1 s behind).mp first, List.append_cancel_left_eq]
    dsimp only
    cases second : streq2Loop t2 behind with
    | none =>
      refine iff_of_false nofun fun whole => ?_
      rw [(streq2Loop_eq_some t2 behind []).mpr (by rw [whole, List.append_nil])] at second
      cases second
    | some rest =>
      rw [(streq2Loop_eq_some t2 behind rest).mp second]
      dsimp only
      rw [List.isEmpty_iff, List.append_right_eq_self]

/-! ### Lookups -/

namespace Dict

/-- A lookup by two strings is the lookup by the string they make together: the hashes are the
same, and so are the names that are found. -/
theorem dictget2_eq_dictget {Value : Type} (dict : Dict Value) (name1 name2 : Text) :
    strhash2 name1 (some name2) = strhash (name1 ++ name2) ∧
      (∀ s, streq2 s name1 name2 = true ↔ s = name1 ++ name2) ∧
      dict.dictget2 (fun name1 name2 => (strhash2 name1 (some name2)).toNat) name1 name2 =
        dict.dictget (fun name => (strhash name).toNat) (name1 ++ name2) := by
  refine ⟨strhash2_eq name1 name2, fun s => streq2_eq_true s name1 name2, ?_⟩
  have asked : (fun name => streq2 name name1 name2) = fun other => name1 ++ name2 == other := by
    funext name
    rw [Bool.eq_iff_iff, streq2_eq_true, beq_iff_eq, eq_comm]
  rw [dictget2, dictget, get, asked, strhash2_eq, Option.map_map]
  refine congrArg (Option.map · _) (funext fun n => ?_)
  cases slot : dict.slot n <;> simp [Assoc.isNull, Assoc.entry, slot]

end Dict

end Desh
