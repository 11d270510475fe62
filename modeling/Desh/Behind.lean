/-
This file is about a mask in an array that is longer than the pattern, so that
the mask is followed by whatever the array held before. `match` reads one byte
of that at the most, and only in a class that nothing closes and whose last
character is a dash behind a member: where the byte says that the end of the
pattern is quoted, the dash makes a range, and the scan goes on behind the end.
-/

import Desh.Extraction

namespace Desh

open Wildcard (Atom)

/-! ### The byte behind a mask -/

/-- Does the scan of the members of a class come to a dash that ends the pattern and that makes a
range if the end is quoted? -/
def dangles (p : List Marked) : Bool :=
  match p with
  | [] => false
  | x :: p =>
      if x = bare ']' then false
      else if p = [bare '-'] then true
      else
        match rangeEnd p with
        | some _ => dangles (p.drop 2)
        | none => dangles p
termination_by p.length

/-- The same, where a leading bracket is a member. -/
def leadingDangles (p : List Marked) : Bool :=
  if p.head? = some (bare ']') then dangles p.tail else dangles p

/-- The same, of the class whose opening bracket the pattern follows. -/
def classDangles (p : List Marked) : Bool :=
  if p.head? = some (bare '~') then leadingDangles p.tail else leadingDangles p

/-- The quoting argument says of the pattern, from the character number `k` of the scan on, which
characters are masked, and of the end of the pattern what `behind` says. -/
def Answered (behind : Bool) (q : Quoting) (k : Nat) (p : List Marked) : Prop :=
  ∀ d n, d + n ≤ p.length →
    (q.advance (k + d)).ISQUOTED n = .ok ((p[d + n]?.map Prod.snd).getD behind)

section Scanning

variable {behind : Bool} {q : Quoting}

theorem Answered.drop {k : Nat} {p : List Marked} (answered : Answered behind q k p) (j : Nat)
    (short : j ≤ p.length) : Answered behind q (k + j) (p.drop j) := by
  intro d n bound
  rw [List.length_drop] at bound
  have here := answered (j + d) n (by omega)
  rw [← Nat.add_assoc] at here
  rw [here, List.getElem?_drop, Nat.add_assoc]

theorem Answered.tail {k : Nat} {x : Marked} {p : List Marked}
    (answered : Answered behind q k (x :: p)) : Answered behind q (k + 1) p :=
  answered.drop 1 (Nat.le_add_left 1 p.length)

/-- The test for an unmasked character. -/
theorem Answered.isUnquoted {k : Nat} {p : List Marked} (answered : Answered behind q k p)
    (n : Nat) (c : UInt8) : (q.advance k).isUnquoted n (chars (p.drop n)) c =
      .ok (decide ((p.drop n).head? = some (c, false))) := by
  have here := answered 0 n
  rw [Nat.zero_add, Nat.add_zero] at here
  cases rest : p.drop n with
  | nil => rfl
  | cons x rest =>
    have bound : n ≤ p.length := by
      by_contra long
      rw [List.drop_eq_nil_of_le (by omega)] at rest
      cases rest
    have found : p[n]? = some x := by
      rw [← List.head?_drop, rest]
      rfl
    obtain ⟨d, masked⟩ := x
    rw [Quoting.isUnquoted, chars_cons, List.head?_cons]
    by_cases same : d = c
    · rw [if_pos (congrArg some same), here bound, found]
      cases masked <;> simp [same, pure, Except.pure]
    · rw [if_neg fun h => same (Option.some.inj h)]
      simp [same]

/-- The test for a range. -/
theorem Answered.atRange {k : Nat} {x : Marked} {p : List Marked}
    (answered : Answered behind q k (x :: p)) : Desh.atRange (chars p) (q.advance k) =
      .ok ((rangeEnd p).isSome || behind && decide (p = [bare '-'])) := by
  have first := answered.isUnquoted 1 '-'.toUInt8
  have second := answered 0 2
  rw [Nat.zero_add, Nat.add_zero] at second
  rw [List.drop_one, List.tail_cons] at first
  rw [Desh.atRange, first, ok_bind]
  rcases p with _ | ⟨dash, _ | ⟨y, p⟩⟩
  · simp [rangeEnd, pure, Except.pure]
  · have ends : (q.advance k).ISQUOTED 2 = .ok behind := second le_rfl
    by_cases isDash : dash = bare '-'
    · subst isDash
      simp [rangeEnd, bare, chars, ends]
    · have other : ¬dash = ('-'.toUInt8, false) := isDash
      simp [rangeEnd, isDash, other, pure, Except.pure]
  · have ends : (q.advance k).ISQUOTED 2 = .ok y.2 := second (Nat.le_add_left 2 (p.length + 1))
    obtain ⟨d, masked⟩ := y
    by_cases isDash : dash = bare '-'
    · subst isDash
      by_cases isBracket : d = ']'.toUInt8
      · cases masked <;> simp [rangeEnd, bare, chars, ends, isBracket]
      · simp [rangeEnd, bare, chars, isBracket, pure, Except.pure]
    · have other : ¬dash = ('-'.toUInt8, false) := isDash
      simp [rangeEnd, isDash, other, pure, Except.pure]

/-- The loop of `rangematch` reads the members of the class. -/
theorem Answered.rangeLoop (neg : Bool) (c : UInt8) {k : Nat} {p : List Marked} (matched : Bool)
    (answered : Answered behind q k p) :
    Desh.rangeLoop neg c (chars p) (q.advance k) k matched =
      if behind && dangles p then .error .text
      else .ok (loopResult neg matched c k (members p)) := by
  induction p using members.induct generalizing k matched with
  | case1 =>
    rw [members, dangles, Bool.and_false, chars, List.map_nil, Desh.rangeLoop]
    rfl
  | case2 p =>
    have closing := answered.isUnquoted 0 ']'.toUInt8
    rw [List.drop_zero] at closing
    rw [members, dangles, if_pos rfl, if_pos rfl, Bool.and_false, chars_cons, Desh.rangeLoop,
      ← chars_cons, closing, ok_bind]
    simp [bare, loopResult, pure, Except.pure]
  | case3 x p notEnd hi found ih =>
    have closing := answered.isUnquoted 0 ']'.toUInt8
    have isRange := answered.atRange
    obtain ⟨dash, masked, rest, rfl⟩ := rangeEnd_eq_some found
    have proceeds : decide (some x = some (']'.toUInt8, false)) = false :=
      decide_eq_false fun same => notEnd (Option.some.inj same)
    have several : ¬dash :: (hi, masked) :: rest = [bare '-'] := by simp
    have later := ih (matched || between x.1 c hi) (answered.drop 3 (by simp))
    rw [List.drop_zero, List.head?_cons, proceeds] at closing
    rw [members, dangles, if_neg notEnd, if_neg notEnd, if_neg several, found, chars_cons,
      Desh.rangeLoop, ← chars_cons, closing, ok_bind, if_neg Bool.false_ne_true, isRange, ok_bind,
      found, loopResult_map, Quoting.advance_advance]
    exact later
  | case4 x p notEnd none ih =>
    have closing := answered.isUnquoted 0 ']'.toUInt8
    have isRange := answered.atRange
    have proceeds : decide (some x = some (']'.toUInt8, false)) = false :=
      decide_eq_false fun same => notEnd (Option.some.inj same)
    have later := ih (matched || x.1 = c) answered.tail
    rw [List.drop_zero, List.head?_cons, proceeds] at closing
    rw [none, Option.isSome_none, Bool.false_or] at isRange
    rw [members, dangles, if_neg notEnd, if_neg notEnd, none, chars_cons, Desh.rangeLoop,
      ← chars_cons, closing, ok_bind, if_neg Bool.false_ne_true, isRange, ok_bind, loopResult_map,
      Quoting.advance_advance]
    by_cases ends : p = [bare '-']
    · subst ends
      cases behind with
      | true => rfl
      | false => exact later
    · rw [if_neg ends, decide_eq_false ends, Bool.and_false, if_neg Bool.false_ne_true]
      exact later

/-- `rangematch` from where a bracket is taken literally. -/
theorem Answered.leading (neg : Bool) (c : UInt8) {k : Nat} {text : Text} {p : List Marked}
    (rest : text.drop k = chars p) (answered : Answered behind q k p) :
    (do
        let leading ← (q.advance k).isUnquoted 0 (text.drop k) ']'.toUInt8
        let first := if leading then k + 1 else k
        Desh.rangeLoop neg c (text.drop first) (q.advance first) first
          (leading && c = ']'.toUInt8)) =
      if behind && leadingDangles p then .error .text
      else .ok (loopResult neg false c k (leadingMembers p)) := by
  have bracket := answered.isUnquoted 0 ']'.toUInt8
  rw [List.drop_zero] at bracket
  rw [rest, bracket, leadingDangles, ok_bind]
  by_cases leads : p.head? = some (bare ']')
  · obtain ⟨p, rfl⟩ := List.head?_eq_some_iff.mp leads
    have later := answered.tail.rangeLoop neg c (decide (c = ']'.toUInt8))
    have text_drop : text.drop (k + 1) = chars p := by
      rw [← List.drop_drop, rest]
      rfl
    have has : (false || (Member.char ']'.toUInt8).has c) = decide (c = ']'.toUInt8) := by
      rw [Bool.false_or, Member.has, decide_eq_decide]
      exact eq_comm
    rw [leadingMembers, if_pos leads, if_pos leads, loopResult_map, has, List.tail_cons, ← later,
      ← text_drop]
    rfl
  · have later := answered.rangeLoop neg c false
    have literal : decide (p.head? = some (']'.toUInt8, false)) = false := decide_eq_false leads
    rw [leadingMembers, if_neg leads, if_neg leads, ← later, literal, ← rest]
    rfl

/-- `rangematch` tells whether a character is of the class, or reads behind the pattern. -/
theorem Answered.rangematch {p : List Marked} (answered : Answered behind q 0 p) (c : UInt8) :
    Desh.rangematch (chars p) q c =
      if behind && classDangles p then .error .text else .ok (scanResult (classOf p) c) := by
  have tilde := answered.isUnquoted 0 '~'.toUInt8
  have start : q.advance 0 = q := rfl
  rw [List.drop_zero, start] at tilde
  rw [Desh.rangematch, tilde, classDangles, ok_bind]
  by_cases negated : p.head? = some (bare '~')
  · obtain ⟨p, rfl⟩ := List.head?_eq_some_iff.mp negated
    have later := answered.tail.leading true c
      (show (chars (bare '~' :: p)).drop 1 = chars p from rfl)
    rw [classOf, if_pos negated, if_pos negated, scanResult_map, List.tail_cons, ← later]
    rfl
  · have later := answered.leading false c (show (chars p).drop 0 = chars p from rfl)
    have literal : decide (p.head? = some ('~'.toUInt8, false)) = false := decide_eq_false negated
    have result := scanResult_map false c 0 (leadingMembers p)
    rw [classOf, if_neg negated, if_neg negated, literal]
    exact later.trans (congrArg (fun range => ite _ _ (Except.ok range)) result.symm)

end Scanning

/-! ### Masks with something behind -/

/-- The array holds the mask of what is left of the pattern, and behind that a `q` or not. -/
def Left (behind : Bool) (q : Quoting) (i : Nat) (p : List Marked) : Prop :=
  ∃ front rest, q.array = .marks (front ++ (maskOf p ++ rest)) ∧ front.length = q.offset + i ∧
    behind = decide (rest.head? = some 'q'.toUInt8)

section Left

variable {behind : Bool} {q : Quoting} {i : Nat} {p : List Marked}

theorem left_of (p : List Marked) (rest : Text) :
    Left (rest.head? = some 'q'.toUInt8) (.of (.marks (maskOf p ++ rest))) 0 p :=
  ⟨[], rest, rfl, rfl, rfl⟩

theorem Left.drop (left : Left behind q i p) (n : Nat) (short : n ≤ p.length) :
    Left behind q (i + n) (p.drop n) := by
  obtain ⟨front, rest, array, length, rfl⟩ := left
  refine ⟨front ++ (maskOf p).take n, rest, ?_, ?_, rfl⟩
  · rw [array, maskOf_drop, List.append_assoc, ← List.append_assoc ((maskOf p).take n),
      List.take_append_drop]
  · have marks : n ≤ (maskOf p).length := by
      rw [maskOf, List.length_map]
      exact short
    rw [List.length_append, List.length_take_of_le marks, length, Nat.add_assoc]

theorem Left.pointer (left : Left behind q i p) : q.isQUOTED = false ∧ q.isUNQUOTED = false := by
  obtain ⟨front, rest, array, -⟩ := left
  constructor
  · refine decide_eq_false fun same => ?_
    rw [same] at array
    cases array
  · refine decide_eq_false fun same => ?_
    rw [same] at array
    cases array

theorem Left.TAILQUOTE (left : Left behind q i p) : Left behind (q.TAILQUOTE i) 0 p := by
  rw [Quoting.TAILQUOTE, left.pointer.2, if_neg Bool.false_ne_true]
  exact left

/-- A byte of the mask, or the one behind it. -/
theorem Left.read (left : Left behind q i p) (n : Nat) (short : n ≤ p.length) :
    ∃ r, q.read (i + n) = .ok r ∧
      decide (r = 'q'.toUInt8) = ((p[n]?.map Prod.snd).getD behind) ∧
      (n < p.length → decide (r = 'r'.toUInt8) = !((p[n]?.map Prod.snd).getD behind)) := by
  obtain ⟨front, rest, array, length, rfl⟩ := left
  have bytes : q.array.bytes[q.offset + (i + n)]? = (maskOf p ++ (rest ++ [0]))[n]? := by
    rw [array, Mask.bytes, List.append_assoc, List.append_assoc, ← Nat.add_assoc, ← length,
      List.getElem?_append_right (Nat.le_add_right _ _), Nat.add_sub_cancel_left]
  have marks : (maskOf p).length = p.length := List.length_map _
  rw [Quoting.read, bytes]
  rcases Nat.lt_or_eq_of_le short with inner | rfl
  · rw [List.getElem?_append_left (marks ▸ inner), maskOf, List.getElem?_map,
      List.getElem?_eq_getElem inner]
    generalize p[n] = x
    obtain ⟨c, masked⟩ := x
    refine ⟨_, rfl, ?_, fun _ => ?_⟩
    · cases masked <;> rfl
    · cases masked <;> rfl
  · rw [List.getElem?_append_right marks.le, marks, Nat.sub_self, List.getElem?_eq_none le_rfl]
    cases rest with
    | nil => exact ⟨0, rfl, rfl, fun short => absurd short (lt_irrefl _)⟩
    | cons r rest =>
      refine ⟨r, rfl, ?_, fun short => absurd short (lt_irrefl _)⟩
      simp

theorem Left.isRaw {x : Marked} (left : Left behind q i (x :: p)) : q.isRaw i = .ok !x.2 := by
  obtain ⟨r, byte, -, raw⟩ := left.read 0 (Nat.zero_le _)
  rw [Nat.add_zero] at byte
  rw [Quoting.isRaw, left.pointer.2, if_neg Bool.false_ne_true, byte]
  exact congrArg Except.ok (raw (Nat.zero_lt_succ _))

/-- The scan of a class is answered by the mask and the byte behind it. -/
theorem Left.answered (left : Left behind q 0 p) : Answered behind q 0 p := by
  intro d n bound
  obtain ⟨r, byte, quoted, -⟩ := left.read (d + n) bound
  have moved : (q.advance (0 + d)).read n = q.read (0 + (d + n)) := by
    rw [Quoting.advance, Quoting.read, Quoting.read, Nat.zero_add, Nat.zero_add, Nat.add_assoc]
  have marks : ∃ m, (q.advance (0 + d)).array = .marks m := ⟨_, left.choose_spec.choose_spec.1⟩
  obtain ⟨m, array⟩ := marks
  have pointer : (q.advance (0 + d)).isQUOTED = false := by
    refine decide_eq_false fun same => ?_
    rw [same] at array
    cases array
  have other : (q.advance (0 + d)).isUNQUOTED = false := by
    refine decide_eq_false fun same => ?_
    rw [same] at array
    cases array
  rw [Quoting.ISQUOTED, pointer, other, if_neg Bool.false_ne_true, if_neg Bool.false_ne_true,
    moved, byte]
  exact congrArg Except.ok quoted

end Left

theorem left_reads (behind : Bool) :
    Reads .text (fun p => !(behind && classDangles p)) (Left behind) where
  drop left n short := left.drop n short
  tailquote left := left.TAILQUOTE
  isRaw left := left.isRaw
  rangematch {q p} left c := by
    rw [left.answered.rangematch c]
    cases behind && classDangles p with
    | false => rfl
    | true => rfl

/-- No comparison of the word with the pattern goes as far as a class that dangles. -/
def Spared (behind : Bool) (p : List Marked) (s : Text) : Prop :=
  Wildcard.Allowed (scannedAtoms (fun p => !(behind && classDangles p)) p) s

/-- Where no `q` is behind the mask, nothing is read behind the pattern. -/
theorem spared_false (p : List Marked) (s : Text) : Spared false p s := by
  have every : scannedAtoms (fun p => !(false && classDangles p)) p =
      (scannedAtoms (fun p => !(false && classDangles p)) p).map fun atom => (atom.1, true) :=
    @scannedAtoms_eq_map _ _ (fun _ => true) rfl (fun _ => rfl) p
  rw [Spared, every]
  refine Wildcard.allowed_of_forall (fun atom member => ?_) s
  obtain ⟨_, -, rfl⟩ := List.mem_map.mp member
  rfl

/-- With a mask that something is behind, `match` tells whether the pattern denotes the word, or
reads behind the pattern. -/
theorem match_behind (p : List Marked) (rest s : Text) :
    let behind : Bool := rest.head? = some 'q'.toUInt8
    (Spared behind p s → matchSingle s (chars p) (.of (.marks (maskOf p ++ rest))) =
        .ok (Wildcard.isMatch (atoms p) s)) ∧
      (¬Spared behind p s →
        matchSingle s (chars p) (.of (.marks (maskOf p ++ rest))) = .error .text) := by
  intro behind
  have decided := (left_reads behind).matchLoop (left_of p rest) s
  rw [scannedAtoms_fst] at decided
  exact decided

/-- `haswild` does not read behind the mask what it depends on. -/
theorem Left.haswildLoop {behind : Bool} {q : Quoting} {p : List Marked}
    (left : Left behind q 0 p) : Desh.haswildLoop (chars p) q = .ok (p.any Marked.isWild) := by
  induction p generalizing q with
  | nil =>
    obtain ⟨r, byte, -⟩ := left.read 0 le_rfl
    rw [chars, List.map_nil, Desh.haswildLoop, byte]
    rfl
  | cons x p ih =>
    obtain ⟨r, byte, -, raw⟩ := left.read 0 (Nat.zero_le _)
    have next : Left behind (q.advance 1) 0 p := left.drop 1 (Nat.le_add_left 1 p.length)
    have unmasked : decide (r = 'r'.toUInt8) = !x.2 := raw (Nat.zero_lt_succ _)
    rw [chars_cons, Desh.haswildLoop, byte, ok_bind, List.any_cons, ih next, Marked.isWild,
      ← unmasked]
    by_cases wild : isWildcard x.1 = true
    · by_cases mark : r = 'r'.toUInt8 <;> simp [wild, mark, pure, Except.pure]
    · simp [wild]

theorem haswildAt_behind (p : List Marked) (rest : Text) :
    haswildAt (chars p) (.of (.marks (maskOf p ++ rest))) = .ok (p.any Marked.isWild) :=
  (left_of p rest).haswildLoop

end Desh
