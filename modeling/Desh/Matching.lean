/-
This file proves that `match` decides whether a word is of the language that the
pattern denotes. The scanner of classes is followed with whatever argument says
which of its characters are masked; an argument that answers a read by a fault
makes the scan fail.
-/

import Desh.Pattern

namespace Desh

open Wildcard (Atom)

/-! ### Reading the quoting argument -/

theorem chars_cons (x : Marked) (p : List Marked) : chars (x :: p) = x.1 :: chars p := rfl

theorem chars_drop (n : Nat) (p : List Marked) : chars (p.drop n) = (chars p).drop n :=
  List.map_drop

theorem Quoting.advance_advance (q : Quoting) (m n : Nat) :
    (q.advance m).advance n = q.advance (m + n) := by
  rw [advance, advance, advance, Nat.add_assoc]

/-- A value read through the quoting argument, if that is possible. -/
def given {Value : Type} (inside : Bool) (value : Value) : Except Fault Value :=
  if inside then .ok value else .error .quoting

@[simp] theorem given_true {Value : Type} (value : Value) : given true value = .ok value := rfl

@[simp] theorem given_false {Value : Type} (value : Value) :
    given false value = .error .quoting := rfl

@[simp] theorem ok_bind {Value Result : Type} (value : Value)
    (next : Value → Except Fault Result) : (Except.ok value >>= next) = next value := rfl

@[simp] theorem error_bind {Value Result : Type} (fault : Fault)
    (next : Value → Except Fault Result) : (Except.error fault >>= next) = .error fault := rfl

theorem given_bind {Value Result : Type} {inside inside' : Bool} {value : Value}
    {next : Value → Except Fault Result} {result : Result}
    (rest : next value = given inside' result) :
    (given inside value >>= next) = given (inside && inside') result := by
  cases inside with
  | false => rfl
  | true => exact rest

/-- The quoting argument says of the pattern, from the character number `k` of the scan on, which
characters are masked: of the one `n` further on, when that is read from number `k`, if
`inside k n`. -/
def Answers (inside : Nat → Nat → Bool) (q : Quoting) (k : Nat) (p : List Marked) : Prop :=
  ∀ d n, d + n ≤ p.length → (q.advance (k + d)).ISQUOTED n =
    given (inside (k + d) n) ((p[d + n]?.map Prod.snd).getD false)

section Scanning

variable {inside : Nat → Nat → Bool} {q : Quoting}

theorem Answers.drop {k : Nat} {p : List Marked} (answers : Answers inside q k p) (j : Nat)
    (short : j ≤ p.length) : Answers inside q (k + j) (p.drop j) := by
  intro d n bound
  rw [List.length_drop] at bound
  have here := answers (j + d) n (by omega)
  rw [← Nat.add_assoc] at here
  rw [here, List.getElem?_drop, Nat.add_assoc, Nat.add_assoc]

theorem Answers.tail {k : Nat} {x : Marked} {p : List Marked}
    (answers : Answers inside q k (x :: p)) : Answers inside q (k + 1) p :=
  answers.drop 1 (by rw [List.length_cons]; omega)

/-- The test for an unmasked character. -/
theorem Answers.isUnquoted {k : Nat} {p : List Marked} (answers : Answers inside q k p) (n : Nat)
    (c : UInt8) : (q.advance k).isUnquoted n (chars (p.drop n)) c =
      given ((p.drop n).head?.map Prod.fst ≠ some c || inside k n)
        (decide ((p.drop n).head? = some (c, false))) := by
  have here := answers 0 n
  rw [Nat.zero_add, Nat.add_zero] at here
  cases rest : p.drop n with
  | nil => rfl
  | cons x rest =>
    have bound : n ≤ p.length := by
      by_contra long
      rw [List.drop_eq_nil_of_le (by omega)] at rest
      cases rest
    have found : p[n]? = some x := by
      rw [← List.head?_drop, rest]
      rfl
    obtain ⟨d, masked⟩ := x
    rw [Quoting.isUnquoted, chars_cons, List.head?_cons]
    by_cases same : d = c
    · rw [if_pos (congrArg some same), here bound, found]
      cases inside k n with
      | false => simp [same]
      | true => cases masked <;> simp [same, pure, Except.pure]
    · rw [if_neg fun h => same (Option.some.inj h)]
      simp [same]

/-- The test for a range. -/
theorem Answers.atRange {k : Nat} {x : Marked} {p : List Marked}
    (answers : Answers inside q k (x :: p)) : Desh.atRange (chars p) (q.advance k) =
      given (dashScans inside k p) (rangeEnd p).isSome := by
  have first := answers.isUnquoted 1 '-'.toUInt8
  have second := answers 0 2
  rw [Nat.zero_add, Nat.add_zero] at second
  rw [List.drop_one, List.tail_cons] at first
  rw [Desh.atRange, first]
  match p with
  | [] => rfl
  | [dash] =>
    have ends : (q.advance k).ISQUOTED 2 = given (inside k 2) false := second le_rfl
    by_cases isDash : dash = bare '-'
    · subst isDash
      cases near : inside k 1 <;> simp [dashScans, rangeEnd, bare, chars, ends, near]
    · cases near : inside k 1 <;> by_cases same : dash.1 = '-'.toUInt8 <;>
        simp_all [dashScans, rangeEnd, bare, pure, Except.pure]
  | dash :: y :: p =>
    have ends : (q.advance k).ISQUOTED 2 = given (inside k 2) y.2 :=
      second (Nat.le_add_left 2 (p.length + 1))
    obtain ⟨d, masked⟩ := y
    by_cases isDash : dash = bare '-'
    · subst isDash
      by_cases isBracket : d = ']'.toUInt8
      · cases near : inside k 1 <;> cases far : inside k 2 <;> cases masked <;>
          simp [dashScans, rangeEnd, bare, chars, ends, near, far, isBracket]
      · cases near : inside k 1 <;>
          simp [dashScans, rangeEnd, bare, chars, near, isBracket, pure, Except.pure]
    · cases near : inside k 1 <;> by_cases same : dash.1 = '-'.toUInt8 <;>
        simp_all [dashScans, rangeEnd, bare, pure, Except.pure]

/-- The result of the scan for a character, from the members of the class; `k` characters are
behind the scan, and `matched` is whether a member among them had the character. -/
def loopResult (neg matched : Bool) (c : UInt8) (k : Nat) : Option (List Member × Nat) → Range
  | none => .RANGE_ERROR
  | some (ms, n) =>
      if (matched || ms.any fun member => member.has c) != neg then .matched (k + n)
      else .RANGE_FAIL

/-- A member read moves the scan on. -/
theorem loopResult_map (neg matched : Bool) (c : UInt8) (k j : Nat) (member : Member)
    (rest : Option (List Member × Nat)) :
    loopResult neg matched c k (rest.map fun (ms, n) => (member :: ms, n + j)) =
      loopResult neg (matched || member.has c) c (k + j) rest := by
  cases rest with
  | none => rfl
  | some rest =>
    obtain ⟨ms, n⟩ := rest
    have count : k + (n + j) = k + j + n := by omega
    simp only [Option.map_some, loopResult, List.any_cons, Bool.or_assoc, count]

theorem rangeEnd_eq_some {p : List Marked} {hi : UInt8} (found : rangeEnd p = some hi) :
    ∃ dash masked rest, p = dash :: (hi, masked) :: rest := by
  match p with
  | [] | [_] => cases found
  | dash :: (d, masked) :: rest =>
    rw [rangeEnd] at found
    split at found
    · cases found
      exact ⟨dash, masked, rest, rfl⟩
    · cases found

/-- The loop of `rangematch` reads the members of the class. -/
theorem Answers.rangeLoop (neg : Bool) (c : UInt8) {k : Nat} {p : List Marked} (matched : Bool)
    (answers : Answers inside q k p) :
    Desh.rangeLoop neg c (chars p) (q.advance k) k matched =
      given (memberScans inside k p) (loopResult neg matched c k (members p)) := by
  induction p using members.induct generalizing k matched with
  | case1 =>
    rw [members, memberScans, chars, List.map_nil, Desh.rangeLoop]
    rfl
  | case2 p =>
    have closing := answers.isUnquoted 0 ']'.toUInt8
    rw [List.drop_zero] at closing
    rw [members, memberScans, if_pos rfl, chars_cons, Desh.rangeLoop, ← chars_cons, closing]
    cases within : inside k 0 <;> simp [bare, loopResult, pure, Except.pure]
  | case3 x p notEnd hi found ih =>
    have closing := answers.isUnquoted 0 ']'.toUInt8
    rw [List.drop_zero, List.head?_cons, Option.map_some] at closing
    have proceeds : decide (some x = some (']'.toUInt8, false)) = false :=
      decide_eq_false fun same => notEnd (Option.some.inj same)
    have isRange := answers.atRange
    obtain ⟨dash, masked, rest, rfl⟩ := rangeEnd_eq_some found
    have later := ih (matched || between x.1 c hi) (answers.drop 3 (by simp))
    rw [members, memberScans, if_neg notEnd, found, chars_cons, Desh.rangeLoop, ← chars_cons,
      closing, isRange, found, decide_eq_false notEnd, proceeds, loopResult_map]
    rw [decide_eq_decide.mpr (Option.some_inj.not : some x.1 ≠ some ']'.toUInt8 ↔ _)]
    refine given_bind ?_
    rw [if_neg Bool.false_ne_true, Bool.false_or]
    refine given_bind ?_
    rw [Option.isSome_some, if_pos rfl, Quoting.advance_advance]
    exact later
  | case4 x p notEnd none ih =>
    have closing := answers.isUnquoted 0 ']'.toUInt8
    rw [List.drop_zero, List.head?_cons, Option.map_some] at closing
    have proceeds : decide (some x = some (']'.toUInt8, false)) = false :=
      decide_eq_false fun same => notEnd (Option.some.inj same)
    have isRange := answers.atRange
    have later := ih (matched || x.1 = c) answers.tail
    rw [members, memberScans, if_neg notEnd, none, chars_cons, Desh.rangeLoop, ← chars_cons,
      closing, isRange, none, decide_eq_false notEnd, proceeds, loopResult_map]
    rw [decide_eq_decide.mpr (Option.some_inj.not : some x.1 ≠ some ']'.toUInt8 ↔ _)]
    refine given_bind ?_
    rw [if_neg Bool.false_ne_true, Bool.false_or]
    refine given_bind ?_
    rw [Option.isSome_none, if_neg Bool.false_ne_true, Quoting.advance_advance]
    exact later

/-- The result of the scan of a class for a character, from what the class is. -/
def scanResult (cls : Option (Class × Nat)) (c : UInt8) : Range :=
  match cls with
  | none => .RANGE_ERROR
  | some (cls, n) => if cls.accepts c then .matched n else .RANGE_FAIL

/-- The scan of a class that is negated or not gives the result of its members. -/
theorem scanResult_map (negated : Bool) (c : UInt8) (k : Nat)
    (rest : Option (List Member × Nat)) :
    scanResult (rest.map fun (ms, n) => (⟨negated, ms⟩, n + k)) c =
      loopResult negated false c k rest := by
  cases rest with
  | none => rfl
  | some rest =>
    obtain ⟨ms, n⟩ := rest
    rw [Option.map_some, scanResult, loopResult, Class.accepts, Bool.false_or, Nat.add_comm k n]

/-- `rangematch` from where a bracket is taken literally. -/
theorem Answers.leading (neg : Bool) (c : UInt8) {k : Nat} {text : Text} {p : List Marked}
    (behind : text.drop k = chars p) (answers : Answers inside q k p) :
    (do
        let leading ← (q.advance k).isUnquoted 0 (text.drop k) ']'.toUInt8
        let first := if leading then k + 1 else k
        Desh.rangeLoop neg c (text.drop first) (q.advance first) first
          (leading && c = ']'.toUInt8)) =
      given (leadingScans inside k p) (loopResult neg false c k (leadingMembers p)) := by
  have bracket := answers.isUnquoted 0 ']'.toUInt8
  rw [List.drop_zero] at bracket
  rw [behind, bracket, leadingScans]
  refine given_bind ?_
  by_cases leads : p.head? = some (bare ']')
  · obtain ⟨p, rfl⟩ := List.head?_eq_some_iff.mp leads
    have later := answers.tail.rangeLoop neg c (decide (c = ']'.toUInt8))
    have text_drop : text.drop (k + 1) = chars p := by
      rw [← List.drop_drop, behind]
      rfl
    have has : (false || (Member.char ']'.toUInt8).has c) = decide (c = ']'.toUInt8) := by
      rw [Bool.false_or, Member.has, decide_eq_decide]
      exact eq_comm
    rw [leadingMembers, if_pos leads, if_pos leads, loopResult_map, has, List.tail_cons, ← later,
      ← text_drop]
    rfl
  · have later := answers.rangeLoop neg c false
    have literal : decide (p.head? = some (']'.toUInt8, false)) = false := decide_eq_false leads
    rw [leadingMembers, if_neg leads, if_neg leads, ← later, literal, ← behind]
    rfl

/-- `rangematch` tells whether a character is of the class. -/
theorem Answers.rangematch {p : List Marked} (answers : Answers inside q 0 p) (c : UInt8) :
    Desh.rangematch (chars p) q c =
      given (classScans inside p) (scanResult (classOf p) c) := by
  have tilde := answers.isUnquoted 0 '~'.toUInt8
  have start : q.advance 0 = q := rfl
  rw [List.drop_zero, start] at tilde
  rw [Desh.rangematch, tilde, classScans]
  refine given_bind ?_
  by_cases negated : p.head? = some (bare '~')
  · obtain ⟨p, rfl⟩ := List.head?_eq_some_iff.mp negated
    have later := answers.tail.leading true c
      (show (chars (bare '~' :: p)).drop 1 = chars p from rfl)
    rw [classOf, if_pos negated, if_pos negated, scanResult_map, List.tail_cons, ← later]
    rfl
  · have later := answers.leading false c (show (chars p).drop 0 = chars p from rfl)
    have literal : decide (p.head? = some ('~'.toUInt8, false)) = false := decide_eq_false negated
    have result := scanResult_map false c 0 (leadingMembers p)
    rw [classOf, if_neg negated, if_neg negated, literal]
    exact later.trans (congrArg (given _) result.symm)

end Scanning

/-! ### Masks -/

/-- The scan of a class reads nothing outside a mask without an end. -/
theorem classScans_true (p : List Marked) : classScans (fun _ _ => true) p = true := by
  have dashes : ∀ k p, dashScans (fun _ _ => true) k p = true := by
    intro k p
    match p with
    | [] => rfl
    | [_] | _ :: _ :: _ => simp [dashScans]
  have scans : ∀ k p, memberScans (fun _ _ => true) k p = true := by
    intro k p
    induction k, p using memberScans.induct with
    | case1 => rw [memberScans]
    | case2 k x p range char =>
      rw [memberScans, dashes]
      cases rangeEnd p with
      | some _ => simp [range]
      | none => simp [char]
  simp [classScans, leadingScans, scans]

/-- The quoting argument, `i` characters on, is right for what is left of the pattern. -/
def Points (q : Quoting) (i : Nat) (p : List Marked) : Prop :=
  match q.array with
  | .QUOTED => False
  | .UNQUOTED => q.offset = 0 ∧ ∀ x ∈ p, x.2 = false
  | .marks m => q.offset + i ≤ m.length ∧ m.drop (q.offset + i) = maskOf p

/-- Which bytes the scan of a class can read. -/
def Quoting.inside (q : Quoting) : Nat → Nat → Bool :=
  if q.array = .UNQUOTED then insideRAW else fun _ _ => true

theorem maskOf_drop (n : Nat) (p : List Marked) : maskOf (p.drop n) = (maskOf p).drop n :=
  List.map_drop

section Points

variable {q : Quoting} {i : Nat} {x : Marked} {p : List Marked}

theorem Points.drop (points : Points q i p) (n : Nat) (short : n ≤ p.length) :
    Points q (i + n) (p.drop n) := by
  obtain ⟨array, offset⟩ := q
  cases array with
  | QUOTED => exact points
  | UNQUOTED => exact ⟨points.1, fun x member => points.2 x (List.mem_of_mem_drop member)⟩
  | marks m =>
    obtain ⟨within, rest⟩ := points
    have lengths := congrArg List.length rest
    rw [List.length_drop, maskOf, List.length_map] at lengths
    refine ⟨?_, ?_⟩
    · show offset + (i + n) ≤ m.length
      have : offset + i ≤ m.length := within
      have : m.length - (offset + i) = p.length := lengths
      omega
    · show m.drop (offset + (i + n)) = maskOf (p.drop n)
      rw [maskOf_drop, ← rest, List.drop_drop, Nat.add_assoc]

theorem Points.tail (points : Points q i (x :: p)) : Points q (i + 1) p :=
  points.drop 1 (Nat.le_add_left 1 p.length)

theorem Points.TAILQUOTE (points : Points q i p) : Points (q.TAILQUOTE i) 0 p := by
  obtain ⟨array, offset⟩ := q
  cases array with
  | QUOTED => exact points.elim
  | UNQUOTED =>
    obtain ⟨rfl, unmasked⟩ := points
    exact ⟨rfl, unmasked⟩
  | marks m => exact points

theorem inside_TAILQUOTE (q : Quoting) (n : Nat) : (q.TAILQUOTE n).inside = q.inside := by
  rw [Quoting.TAILQUOTE]
  split
  · rfl
  · rfl

/-- A byte of a mask: the mark of the character, or the end. -/
theorem read_marks {m : Text} {offset : Nat} (n : Nat) (within : offset + i ≤ m.length)
    (rest : m.drop (offset + i) = maskOf p) (short : n ≤ p.length) :
    (⟨.marks m, offset⟩ : Quoting).read (i + n) = .ok ((maskOf p)[n]?.getD 0) := by
  have found : (Mask.marks m).bytes[offset + (i + n)]? = some ((maskOf p)[n]?.getD 0) := by
    have lengths := congrArg List.length rest
    rw [List.length_drop, maskOf, List.length_map] at lengths
    rw [Mask.bytes, ← Nat.add_assoc, ← rest, List.getElem?_drop]
    rcases Nat.lt_or_ge (offset + i + n) m.length with inner | last
    · rw [List.getElem?_append_left inner, List.getElem?_eq_getElem inner]
      rfl
    · rw [List.getElem?_append_right last, List.getElem?_eq_none last,
        show offset + i + n - m.length = 0 by omega]
      rfl
  rw [Quoting.read, found]

theorem Points.isRaw (points : Points q i (x :: p)) : q.isRaw i = .ok !x.2 := by
  obtain ⟨array, offset⟩ := q
  cases array with
  | QUOTED => exact points.elim
  | UNQUOTED =>
    obtain ⟨rfl, unmasked⟩ := points
    rw [unmasked x List.mem_cons_self]
    rfl
  | marks m =>
    obtain ⟨within, rest⟩ := points
    have byte := read_marks 0 within rest (Nat.zero_le _)
    obtain ⟨c, masked⟩ := x
    rw [Nat.add_zero] at byte
    rw [Quoting.isRaw, byte]
    cases masked <;> rfl

theorem Points.ISQUOTED (points : Points q i (x :: p)) : q.ISQUOTED i = .ok x.2 := by
  obtain ⟨array, offset⟩ := q
  cases array with
  | QUOTED => exact points.elim
  | UNQUOTED =>
    obtain ⟨rfl, unmasked⟩ := points
    rw [unmasked x List.mem_cons_self]
    rfl
  | marks m =>
    obtain ⟨within, rest⟩ := points
    have byte := read_marks 0 within rest (Nat.zero_le _)
    obtain ⟨c, masked⟩ := x
    rw [Nat.add_zero] at byte
    rw [Quoting.ISQUOTED, byte]
    cases masked <;> rfl

/-- A byte of `UNQUOTED` is no `q`. -/
theorem ISQUOTED_UNQUOTED (k n : Nat) :
    ((Quoting.of .UNQUOTED).advance k).ISQUOTED n = given (insideRAW k n) false := by
  cases k with
  | zero => rfl
  | succ k =>
    have index : 0 + (k + 1) + n = k + 1 + n := by omega
    have bytes : Mask.UNQUOTED.bytes = ['R'.toUInt8, 'A'.toUInt8, 'W'.toUInt8, 0] := by decide
    have moved : (Quoting.of .UNQUOTED).advance (k + 1) = ⟨.UNQUOTED, k + 1⟩ := by
      rw [Quoting.advance, Quoting.of, Nat.zero_add]
    have pointer : (⟨.UNQUOTED, k + 1⟩ : Quoting).isUNQUOTED = false :=
      decide_eq_false fun same => nomatch congrArg Quoting.offset same
    have other : (⟨.UNQUOTED, k + 1⟩ : Quoting).isQUOTED = false :=
      decide_eq_false fun same => nomatch congrArg Quoting.array same
    rw [moved, Quoting.ISQUOTED, pointer, other, if_neg Bool.false_ne_true,
      if_neg Bool.false_ne_true, Quoting.read, bytes, insideRAW,
      decide_eq_false (Nat.succ_ne_zero k),
      Bool.false_or]
    rcases Nat.lt_or_ge (k + 1 + n) 4 with inner | outer
    · rw [decide_eq_true inner]
      generalize k + 1 + n = index at inner
      interval_cases index <;> rfl
    · rw [decide_eq_false (by omega), List.getElem?_eq_none (by simpa using outer)]
      rfl

/-- The scan of a class is answered by the mask. -/
theorem Points.answers (points : Points q 0 p) : Answers q.inside q 0 p := by
  intro d n bound
  rw [Nat.zero_add]
  obtain ⟨array, offset⟩ := q
  cases array with
  | QUOTED => exact points.elim
  | UNQUOTED =>
    obtain ⟨rfl, unmasked⟩ := points
    have none : (p[d + n]?.map Prod.snd).getD false = false := by
      cases found : p[d + n]? with
      | none => rfl
      | some x => exact unmasked x (List.mem_of_getElem? found)
    rw [none]
    exact ISQUOTED_UNQUOTED d n
  | marks m =>
    obtain ⟨within, rest⟩ := points
    have byte := read_marks (d + n) within rest bound
    have moved : ((⟨.marks m, offset⟩ : Quoting).advance d).read n =
        (⟨.marks m, offset⟩ : Quoting).read (0 + (d + n)) := by
      rw [Quoting.advance, Quoting.read, Quoting.read, Nat.zero_add, Nat.add_assoc]
    have pointer : ((⟨.marks m, offset⟩ : Quoting).advance d).isUNQUOTED = false :=
      decide_eq_false fun same => nomatch congrArg Quoting.array same
    have other : ((⟨.marks m, offset⟩ : Quoting).advance d).isQUOTED = false :=
      decide_eq_false fun same => nomatch congrArg Quoting.array same
    rw [Quoting.ISQUOTED, pointer, other, if_neg Bool.false_ne_true, if_neg Bool.false_ne_true,
      moved, byte, maskOf, List.getElem?_map]
    cases p[d + n]? with
    | none => rfl
    | some x =>
      obtain ⟨c, masked⟩ := x
      cases masked <;> rfl

end Points

/-! ### Patterns -/

/-- A class has no more characters than the pattern. -/
theorem members_le {p : List Marked} {ms : List Member} {n : Nat}
    (found : members p = some (ms, n)) : n ≤ p.length := by
  induction p using members.induct generalizing ms n with
  | case1 =>
    rw [members] at found
    cases found
  | case2 p =>
    rw [members, if_pos rfl] at found
    obtain ⟨-, rfl⟩ := Prod.mk.inj (Option.some.inj found)
    exact Nat.le_add_left 1 p.length
  | case3 x p notEnd hi isRange ih =>
    obtain ⟨dash, masked, rest, rfl⟩ := rangeEnd_eq_some isRange
    rw [members, if_neg notEnd, isRange] at found
    obtain ⟨⟨ms', n'⟩, inner, same⟩ := Option.map_eq_some_iff.mp found
    obtain ⟨-, rfl⟩ := Prod.mk.inj same
    exact Nat.add_le_add_right (ih inner) 3
  | case4 x p notEnd none ih =>
    rw [members, if_neg notEnd, none] at found
    obtain ⟨⟨ms', n'⟩, inner, same⟩ := Option.map_eq_some_iff.mp found
    obtain ⟨-, rfl⟩ := Prod.mk.inj same
    exact Nat.add_le_add_right (ih inner) 1

theorem leadingMembers_le {p : List Marked} {ms : List Member} {n : Nat}
    (found : leadingMembers p = some (ms, n)) : n ≤ p.length := by
  rw [leadingMembers] at found
  split at found
  · rename_i leads
    obtain ⟨p, rfl⟩ := List.head?_eq_some_iff.mp leads
    obtain ⟨⟨ms', n'⟩, inner, same⟩ := Option.map_eq_some_iff.mp found
    obtain ⟨-, rfl⟩ := Prod.mk.inj same
    exact Nat.add_le_add_right (members_le inner) 1
  · exact members_le found

theorem classOf_le {p : List Marked} {cls : Class} {n : Nat} (found : classOf p = some (cls, n)) :
    n ≤ p.length := by
  rw [classOf] at found
  split at found
  · rename_i negated
    obtain ⟨p, rfl⟩ := List.head?_eq_some_iff.mp negated
    obtain ⟨⟨ms', n'⟩, inner, same⟩ := Option.map_eq_some_iff.mp found
    obtain ⟨-, rfl⟩ := Prod.mk.inj same
    exact Nat.add_le_add_right (leadingMembers_le inner) 1
  · obtain ⟨⟨ms', n'⟩, inner, same⟩ := Option.map_eq_some_iff.mp found
    obtain ⟨-, rfl⟩ := Prod.mk.inj same
    exact leadingMembers_le inner

/-- The atoms of a pattern, each with whether comparing with it reads the quoting argument inside
its array only. -/
def Quoting.parse (q : Quoting) (p : List Marked) : List (Atom UInt8 × Bool) :=
  (Desh.parse p).map fun atom => (atom.1, q.array ≠ .UNQUOTED || atom.2)

theorem Quoting.parse_cons (q : Quoting) {p rest : List Marked} {t : Atom UInt8} {scanned : Bool}
    (first : Desh.parse p = (t, scanned) :: Desh.parse rest) :
    q.parse p = (t, q.array ≠ .UNQUOTED || scanned) :: q.parse rest := by
  rw [parse, first, List.map_cons]
  rfl

theorem Quoting.parse_nil (q : Quoting) : q.parse [] = [] := by
  rw [parse, Desh.parse]
  rfl

theorem Quoting.parse_fst (q : Quoting) (p : List Marked) :
    (q.parse p).map Prod.fst = atoms p := by
  rw [Quoting.parse, List.map_map, atoms]
  rfl

theorem classScans_inside (q : Quoting) (p : List Marked) :
    classScans q.inside p = (q.array ≠ .UNQUOTED || classScans insideRAW p) := by
  rw [Quoting.inside]
  split
  · rename_i unquoted
    rw [decide_eq_false (not_not.mpr unquoted), Bool.false_or]
  · rename_i masked
    rw [classScans_true, decide_eq_true masked, Bool.true_or]

/-- What is searched for behind a star starts with no star. -/
theorem parse_cons_single {x : Marked} (single : x ≠ bare '*') (p : List Marked) :
    ∃ t b rest, parse (x :: p) = (t, b) :: rest ∧ t ≠ .star := by
  rw [parse, if_neg single]
  split
  · exact ⟨_, _, _, rfl, by simp⟩
  · split
    · split
      · exact ⟨_, _, _, rfl, by simp⟩
      · exact ⟨_, _, _, rfl, by simp⟩
    · exact ⟨_, _, _, rfl, by simp⟩

/-! ### Matching -/

/-- The search behind a star, where the test decides a property unless something is read that may
not be. -/
theorem anySuffix_eq {fault : Fault} {test : Text → Except Fault Bool} {decides : Text → Bool}
    {allowed : Text → Prop} (holds : ∀ s, allowed s → test s = .ok (decides s))
    (fails : ∀ s, ¬allowed s → test s = .error fault) (s : Text) :
    (Wildcard.UntilFound decides allowed s →
        anySuffix test s = .ok (Wildcard.findSuffix decides s).isSome) ∧
      (¬Wildcard.UntilFound decides allowed s → anySuffix test s = .error fault) := by
  induction s with
  | nil => exact ⟨fun _ => rfl, fun absent => absurd trivial absent⟩
  | cons c s ih =>
    rw [anySuffix, Wildcard.UntilFound, Wildcard.findSuffix]
    constructor
    · rintro ⟨here, later⟩
      rw [holds _ here, ok_bind]
      cases found : decides (c :: s) with
      | true => rfl
      | false =>
        rw [if_neg Bool.false_ne_true, if_neg Bool.false_ne_true, (ih.1 (later found)),
          Option.isSome_map]
    · intro absent
      by_cases here : allowed (c :: s)
      · rw [holds _ here, ok_bind]
        cases found : decides (c :: s) with
        | true => exact absurd ⟨here, fun fails =>
            absurd (fails.symm.trans found) Bool.false_ne_true⟩ absent
        | false => exact ih.2 fun later => absent ⟨here, fun _ => later⟩
      · rw [fails _ here, error_bind]

/-- A matcher decides whether the atoms denote a word, where every comparison is allowed;
otherwise it reads outside the array of the quoting argument. -/
def Decides (matcher : Text → Except Fault Bool) (ts : List (Atom UInt8 × Bool)) : Prop :=
  ∀ s, (Wildcard.Allowed ts s → matcher s = .ok (Wildcard.isMatch (ts.map Prod.fst) s)) ∧
    (¬Wildcard.Allowed ts s → matcher s = .error .quoting)

/-- A matcher decides whether the atoms denote a word, where every comparison is allowed; otherwise
it ends with the fault. -/
def DecidesUnless (fault : Fault) (matcher : Text → Except Fault Bool)
    (ts : List (Atom UInt8 × Bool)) : Prop :=
  ∀ s, (Wildcard.Allowed ts s → matcher s = .ok (Wildcard.isMatch (ts.map Prod.fst) s)) ∧
    (¬Wildcard.Allowed ts s → matcher s = .error fault)

/-- A matcher that compares one character and goes on with a matcher of the rest. -/
theorem DecidesUnless.take {fault : Fault} {t : Atom UInt8} (single : t ≠ .star) {b : Bool}
    {ts : List (Atom UInt8 × Bool)} {matcher rest : Text → Except Fault Bool}
    (decides : DecidesUnless fault rest ts) (nil : matcher [] = .ok false)
    (cons : ∀ d s, matcher (d :: s) =
      if b then if t.takes d then rest s else .ok false else .error fault) :
    DecidesUnless fault matcher ((t, b) :: ts) := by
  intro s
  rw [List.map_cons]
  cases s with
  | nil =>
    rw [nil, Wildcard.isMatch_take_nil single]
    exact ⟨fun _ => rfl, fun absent => absurd (Wildcard.allowed_take_nil single b ts) absent⟩
  | cons d s =>
    rw [cons, Wildcard.isMatch_take_cons single, Wildcard.allowed_take_cons single]
    cases b with
    | false => exact ⟨fun allowed => absurd allowed.1 Bool.false_ne_true, fun _ => rfl⟩
    | true =>
      rw [if_pos rfl]
      cases t.takes d with
      | false =>
        exact ⟨fun _ => rfl, fun absent =>
          absurd ⟨rfl, fun taken => absurd taken Bool.false_ne_true⟩ absent⟩
      | true =>
        rw [if_pos rfl, Bool.true_and]
        exact ⟨fun allowed => (decides s).1 (allowed.2 rfl),
          fun absent => (decides s).2 fun allowed => absent ⟨rfl, fun _ => allowed⟩⟩

/-- A matcher that searches for what a matcher of the rest accepts. -/
theorem DecidesUnless.star {fault : Fault} {t : Atom UInt8} (single : t ≠ .star) {b b' : Bool}
    {ts : List (Atom UInt8 × Bool)} {rest : Text → Except Fault Bool}
    (decides : DecidesUnless fault rest ((t, b') :: ts)) :
    DecidesUnless fault (anySuffix rest) ((.star, b) :: (t, b') :: ts) := by
  intro s
  have searched := anySuffix_eq (fun s => (decides s).1) (fun s => (decides s).2) s
  rw [List.map_cons, List.map_cons, Wildcard.isMatch_star_take single,
    Wildcard.allowed_star_cons b single]
  exact searched

theorem Quoting.parse_TAILQUOTE (q : Quoting) (n : Nat) (p : List Marked) :
    (q.TAILQUOTE n).parse p = q.parse p := by
  rw [TAILQUOTE]
  split
  · rfl
  · rfl

theorem not_bare {x : Marked} {c : Char} (other : x ≠ bare c) :
    ¬((!x.2) = true ∧ x.1 = c.toUInt8) := by
  rintro ⟨unmasked, same⟩
  obtain ⟨d, masked⟩ := x
  have bare_mark : masked = false := by simpa using unmasked
  exact other (Prod.ext same bare_mark)

/-- The atoms of a pattern. With each bracket stands whether its class may be scanned. -/
def scannedAtoms (scans : List Marked → Bool) (p : List Marked) : List (Atom UInt8 × Bool) :=
  match p with
  | [] => []
  | x :: p =>
      if x = bare '?' then (.one fun _ => true, true) :: scannedAtoms scans p
      else if x = bare '*' then (.star, true) :: scannedAtoms scans p
      else if x = bare '[' then
        match classOf p with
        | some (cls, n) => (.one cls.accepts, scans p) :: scannedAtoms scans (p.drop n)
        | none => (.literal x.1, scans p) :: scannedAtoms scans p
      else (.literal x.1, true) :: scannedAtoms scans p
termination_by p.length

/-- The atoms with their classes scanned by another rule. -/
theorem scannedAtoms_eq_map {scans scans' : List Marked → Bool} {change : Bool → Bool}
    (keeps : change true = true) (changes : ∀ p, scans' p = change (scans p)) (p : List Marked) :
    scannedAtoms scans' p = (scannedAtoms scans p).map fun atom => (atom.1, change atom.2) := by
  induction p using parse.induct with
  | case1 => simp only [scannedAtoms, List.map_nil]
  | case2 p ih => simp only [scannedAtoms, if_true, List.map_cons, keeps, ih]
  | case3 p other ih => simp only [scannedAtoms, if_neg other, if_true, List.map_cons, keeps, ih]
  | case4 p cls n found noQuestion noStar ih =>
    simp only [scannedAtoms, if_neg noQuestion, if_neg noStar, if_true, found, List.map_cons, ih,
      changes]
  | case5 p none noQuestion noStar ih =>
    simp only [scannedAtoms, if_neg noQuestion, if_neg noStar, if_true, none, List.map_cons, ih,
      changes]
  | case6 x p noQuestion noStar noBracket ih =>
    simp only [scannedAtoms, if_neg noQuestion, if_neg noStar, if_neg noBracket, List.map_cons,
      keeps, ih]

theorem scannedAtoms_insideRAW (p : List Marked) :
    scannedAtoms (classScans insideRAW) p = parse p := by
  induction p using parse.induct with
  | case1 => rw [scannedAtoms, parse]
  | case2 p ih => rw [scannedAtoms, if_pos rfl, parse_question, ih]
  | case3 p other ih => rw [scannedAtoms, if_neg other, if_pos rfl, parse_star, ih]
  | case4 p cls n found noQuestion noStar ih =>
    rw [scannedAtoms, if_neg noQuestion, if_neg noStar, if_pos rfl, found, parse_class found, ← ih]
  | case5 p none noQuestion noStar ih =>
    rw [scannedAtoms, if_neg noQuestion, if_neg noStar, if_pos rfl, none, parse_bracket none, ← ih]
    rfl
  | case6 x p noQuestion noStar noBracket ih =>
    rw [scannedAtoms, if_neg noQuestion, if_neg noStar, if_neg noBracket,
      parse_literal noQuestion noStar noBracket, ih]

theorem scannedAtoms_fst (scans : List Marked → Bool) (p : List Marked) :
    (scannedAtoms scans p).map Prod.fst = atoms p := by
  have forget : ∀ scans : List Marked → Bool,
      (scannedAtoms (fun _ => true) p).map Prod.fst = (scannedAtoms scans p).map Prod.fst := by
    intro scans
    have every : scannedAtoms (fun _ => true) p =
        (scannedAtoms scans p).map fun atom => (atom.1, true) :=
      @scannedAtoms_eq_map scans _ (fun _ => true) rfl (fun _ => rfl) p
    rw [every, List.map_map]
    rfl
  rw [← forget scans, forget (classScans insideRAW), scannedAtoms_insideRAW, atoms]

/-- A relation between the pointer into a quoting argument and what is left of the pattern. It is
kept as the match goes on, the argument tells what is masked, and a class is scanned where it may
be; elsewhere the scan ends with a fault. -/
structure Reads (fault : Fault) (scans : List Marked → Bool)
    (Here : Quoting → Nat → List Marked → Prop) : Prop where
  drop : ∀ {q i p}, Here q i p → ∀ n, n ≤ p.length → Here q (i + n) (p.drop n)
  tailquote : ∀ {q i p}, Here q i p → Here (q.TAILQUOTE i) 0 p
  isRaw : ∀ {q i x p}, Here q i (x :: p) → q.isRaw i = .ok !x.2
  rangematch : ∀ {q p}, Here q 0 p → ∀ c, Desh.rangematch (chars p) q c =
    if scans p then .ok (scanResult (classOf p) c) else .error fault

theorem Reads.tail {fault : Fault} {scans : List Marked → Bool}
    {Here : Quoting → Nat → List Marked → Prop} (reads : Reads fault scans Here) {q : Quoting}
    {i : Nat} {x : Marked} {p : List Marked} (here : Here q i (x :: p)) : Here q (i + 1) p :=
  reads.drop here 1 (Nat.le_add_left 1 p.length)

/-- What is searched for behind a star starts with no star. -/
theorem scannedAtoms_cons_single (scans : List Marked → Bool) {x : Marked} (single : x ≠ bare '*')
    (p : List Marked) :
    ∃ t b rest, scannedAtoms scans (x :: p) = (t, b) :: rest ∧ t ≠ .star := by
  rw [scannedAtoms, if_neg single]
  split
  · exact ⟨_, _, _, rfl, nofun⟩
  · split
    · split
      · exact ⟨_, _, _, rfl, nofun⟩
      · exact ⟨_, _, _, rfl, nofun⟩
    · exact ⟨_, _, _, rfl, nofun⟩

/-- `match` decides whether the atoms denote the word. -/
theorem Reads.matchLoop {fault : Fault} {scans : List Marked → Bool}
    {Here : Quoting → Nat → List Marked → Prop} (reads : Reads fault scans Here) {q : Quoting}
    {i : Nat} {p : List Marked} (here : Here q i p) :
    DecidesUnless fault (Desh.matchLoop q i (chars p)) (scannedAtoms scans p) := by
  induction p using parse.induct generalizing q i with
  | case1 =>
    intro s
    have loop : Desh.matchLoop q i (chars []) s = .ok s.isEmpty := by
      rw [chars, List.map_nil, Desh.matchLoop]
      rfl
    rw [loop, scannedAtoms]
    exact ⟨fun _ => rfl, fun absent => absurd trivial absent⟩
  | case2 p ih =>
    have raw : q.isRaw i = .ok true := reads.isRaw here
    rw [scannedAtoms, if_pos rfl]
    refine (ih (reads.tail here)).take (by simp) ?_ fun d s => ?_
    · rw [chars_cons, Desh.matchLoop, raw]
      rfl
    · rw [chars_cons, Desh.matchLoop, raw]
      rfl
  | case3 p other ih =>
    have raw : q.isRaw i = .ok true := reads.isRaw here
    rw [scannedAtoms, if_neg other, if_pos rfl]
    cases p with
    | nil =>
      intro s
      have loop : Desh.matchLoop q i (chars [bare '*']) s = .ok true := by
        rw [Desh.matchLoop.eq_def]
        dsimp only [chars_cons]
        rw [raw]
        rfl
      rw [loop, scannedAtoms]
      exact ⟨fun _ => (congrArg Except.ok (Wildcard.isMatch_star_only s)).symm,
        fun absent => absurd trivial absent⟩
    | cons x p =>
      have loop : ∀ s, Desh.matchLoop q i (chars (bare '*' :: x :: p)) s =
          (q.isStar (i + 1) (chars (x :: p)) >>= fun star =>
            if star then Desh.matchLoop q (i + 1) (chars (x :: p)) s
            else
              anySuffix (fun s => Desh.matchLoop (q.TAILQUOTE (i + 1)) 0 (chars (x :: p)) s)
                s) := by
        intro s
        rw [Desh.matchLoop.eq_def]
        dsimp only [chars_cons]
        rw [raw]
        rfl
      have next := reads.isRaw (reads.tail here)
      by_cases another : x = bare '*'
      · subst another
        have star : q.isStar (i + 1) (chars (bare '*' :: p)) = .ok true := next
        have same := ih (reads.tail here)
        rw [scannedAtoms, if_neg other, if_pos rfl] at same ⊢
        intro s
        rw [loop, star, Wildcard.allowed_star_star, List.map_cons, List.map_cons,
          Wildcard.isMatch_star_star]
        exact same s
      · have star : q.isStar (i + 1) (chars (x :: p)) = .ok false := by
          rw [Quoting.isStar, next]
          split
          · rename_i same
            have masked : x.2 = true := by
              by_contra unmasked
              exact not_bare another ⟨by simpa using unmasked, Option.some.inj same⟩
            rw [masked]
            rfl
          · rfl
        obtain ⟨t, b, rest, first, single⟩ := scannedAtoms_cons_single scans another p
        have later := ih (reads.tailquote (reads.tail here))
        rw [first] at later ⊢
        intro s
        rw [loop, star]
        exact later.star single s
  | case4 p cls n found noQuestion noStar ih =>
    have raw : q.isRaw i = .ok true := reads.isRaw here
    have later := ih (reads.drop (reads.tail here) n (classOf_le found))
    have scan := reads.rangematch (reads.tailquote (reads.tail here))
    rw [scannedAtoms, if_neg noQuestion, if_neg noStar, if_pos rfl, found]
    refine later.take (by simp) ?_ fun d s => ?_
    · rw [chars_cons, Desh.matchLoop, raw]
      rfl
    · rw [chars_cons, Desh.matchLoop, raw, chars_drop]
      show (Desh.rangematch (chars p) (q.TAILQUOTE (i + 1)) d >>= _) = _
      rw [scan, found]
      cases scans p with
      | false => rfl
      | true =>
        rw [if_pos rfl, if_pos rfl, ok_bind, scanResult]
        show _ = if cls.accepts d then _ else _
        cases cls.accepts d with
        | false => rfl
        | true => rfl
  | case5 p none noQuestion noStar ih =>
    have raw : q.isRaw i = .ok true := reads.isRaw here
    have scan := reads.rangematch (reads.tailquote (reads.tail here))
    rw [scannedAtoms, if_neg noQuestion, if_neg noStar, if_pos rfl, none]
    refine (ih (reads.tail here)).take (by simp) ?_ fun d s => ?_
    · rw [chars_cons, Desh.matchLoop, raw]
      rfl
    · rw [chars_cons, Desh.matchLoop, raw]
      show (Desh.rangematch (chars p) (q.TAILQUOTE (i + 1)) d >>= _) = _
      rw [scan, none]
      cases scans p with
      | false => rfl
      | true =>
        rw [if_pos rfl, if_pos rfl, ok_bind, scanResult]
        show _ = if decide (d = '['.toUInt8) = true then _ else _
        rw [if_congr decide_eq_true_iff rfl rfl]
        rfl
  | case6 x p noQuestion noStar noBracket ih =>
    have raw := reads.isRaw here
    rw [scannedAtoms, if_neg noQuestion, if_neg noStar, if_neg noBracket]
    refine (ih (reads.tail here)).take (by simp) ?_ fun d s => ?_
    · rw [chars_cons, Desh.matchLoop, raw, ok_bind, if_neg (not_bare noQuestion),
        if_neg (not_bare noStar), if_neg (not_bare noBracket)]
      rfl
    · rw [chars_cons, Desh.matchLoop, raw, ok_bind, if_neg (not_bare noQuestion),
        if_neg (not_bare noStar), if_neg (not_bare noBracket), if_pos rfl]
      show _ = if decide (d = x.1) = true then _ else _
      rw [if_congr (decide_eq_true_iff.trans eq_comm) rfl rfl]
      rfl

theorem classScans_array {q : Quoting} {array : Mask} (same : q.array = array) (p : List Marked) :
    classScans q.inside p = (array ≠ .UNQUOTED || classScans insideRAW p) := by
  rw [classScans_inside, same]

/-- What a quoting argument that is right for the pattern reads. -/
theorem points_reads (array : Mask) :
    Reads .quoting (fun p => array ≠ .UNQUOTED || classScans insideRAW p)
      fun q i p => Points q i p ∧ q.array = array where
  drop here n short := ⟨here.1.drop n short, here.2⟩
  tailquote {q i p} here := by
    refine ⟨here.1.TAILQUOTE, ?_⟩
    rw [Quoting.TAILQUOTE]
    split
    · exact here.2
    · exact here.2
  isRaw here := here.1.isRaw
  rangematch {q p} here c := by
    rw [here.1.answers.rangematch c, classScans_array here.2]
    rfl

/-- `match` decides whether the atoms denote the word. -/
theorem Points.matchLoop {q : Quoting} {i : Nat} {p : List Marked} (points : Points q i p) :
    Decides (Desh.matchLoop q i (chars p)) (q.parse p) := by
  have decides := (points_reads q.array).matchLoop ⟨points, rfl⟩
  have atoms : q.parse p =
      scannedAtoms (fun p => q.array ≠ .UNQUOTED || classScans insideRAW p) p := by
    rw [Quoting.parse, ← scannedAtoms_insideRAW]
    exact (scannedAtoms_eq_map (Bool.or_true _) (fun _ => rfl) p).symm
  rw [atoms]
  exact decides

/-! ### Patterns and masks -/

/-- A pattern with a mask of bytes. -/
def masked (p m : Text) : List Marked := p.zip (m.map fun r => decide (r = 'q'.toUInt8))

/-- A mask that a pattern can have. -/
def IsMask (p m : Text) : Prop :=
  m.length = p.length ∧ ∀ r ∈ m, r = 'q'.toUInt8 ∨ r = 'r'.toUInt8

instance (p m : Text) : Decidable (IsMask p m) := inferInstanceAs (Decidable (_ ∧ _))

theorem chars_masked {p m : Text} (mask : IsMask p m) : chars (masked p m) = p := by
  rw [chars, masked, List.map_fst_zip]
  rw [List.length_map]
  exact mask.1.ge

theorem maskOf_masked {p m : Text} (mask : IsMask p m) : maskOf (masked p m) = m := by
  obtain ⟨length, marks⟩ := mask
  have back : ∀ r ∈ m,
      (if decide (r = 'q'.toUInt8) = true then 'q'.toUInt8 else 'r'.toUInt8) = r := by
    intro r member
    rcases marks r member with rfl | rfl
    · rfl
    · rfl
  have second : (masked p m).map Prod.snd = m.map fun r => decide (r = 'q'.toUInt8) := by
    rw [masked, List.map_snd_zip]
    rw [List.length_map]
    exact length.le
  calc maskOf (masked p m)
      = ((masked p m).map Prod.snd).map fun b => if b then 'q'.toUInt8 else 'r'.toUInt8 := by
        rw [List.map_map]
        rfl
    _ = m := by
        rw [second, List.map_map]
        exact (List.map_congr_left back).trans (List.map_id m)

theorem points_maskOf (p : List Marked) : Points (.of (.marks (maskOf p))) 0 p :=
  ⟨Nat.zero_le _, rfl⟩

theorem points_UNQUOTED {p : List Marked} (unmasked : ∀ x ∈ p, x.2 = false) :
    Points (.of .UNQUOTED) 0 p :=
  ⟨rfl, unmasked⟩

/-- With a mask every comparison is allowed. -/
theorem allowed_marks (m : Text) (offset : Nat) (p : List Marked) (s : Text) :
    Wildcard.Allowed ((⟨.marks m, offset⟩ : Quoting).parse p) s := by
  refine Wildcard.allowed_of_forall (fun atom member => ?_) s
  obtain ⟨atom, -, rfl⟩ := List.mem_map.mp member
  rfl

/-- With a mask, `match` returns whether the atoms of the pattern denote the word. -/
theorem matchSingle_maskOf (s : Text) (p : List Marked) :
    matchSingle s (chars p) (.of (.marks (maskOf p))) = .ok (Wildcard.isMatch (atoms p) s) := by
  have decided := ((points_maskOf p).matchLoop s).1 (allowed_marks _ _ p s)
  rw [Quoting.parse_fst] at decided
  exact decided

/-- `match` returns, and says whether the word is of the language that the pattern denotes. -/
theorem match_iff (s p m : Text) (mask : IsMask p m) :
    ∃ result, matchSingle s p (.of (.marks m)) = .ok result ∧
      (result = true ↔ Wildcard.Denotes (atoms (masked p m)) s) := by
  have decided := matchSingle_maskOf s (masked p m)
  rw [chars_masked mask, maskOf_masked mask] at decided
  exact ⟨_, decided, Wildcard.isMatch_iff _ s⟩

/-- A word with a masked star and a class. -/
theorem match_iff_class :
    ∃ result, matchSingle (lit "a*7") (lit "?*[0-9]") (.of (.marks (lit "rqrrrrr"))) = .ok result ∧
      (result = true ↔
        Wildcard.Denotes (atoms (masked (lit "?*[0-9]") (lit "rqrrrrr"))) (lit "a*7")) :=
  match_iff _ _ _ (by decide +kernel)

end Desh
