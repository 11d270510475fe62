/-
This file follows `extractsinglematch`: where a word matches, it returns the
pieces that the wildcards stand for, unless its search for the end of a star's
piece fails. From this come the exact conditions under which extraction
completes, and under which the two arrays that stand for a mask behave as one.
-/

import Desh.Matching

namespace Desh

open Wildcard (Atom)

/-! ### Wildcards of a pattern -/

/-- Is the character an unmasked wildcard? -/
def Marked.isWild (x : Marked) : Bool := !x.2 && isWildcard x.1

/-- The last loop of `haswild` looks for an unmasked wildcard. -/
theorem haswildLoop_eq {m : Text} {offset : Nat} {p : List Marked}
    (points : Points ⟨.marks m, offset⟩ 0 p) :
    haswildLoop (chars p) ⟨.marks m, offset⟩ = .ok (p.any Marked.isWild) := by
  induction p generalizing offset with
  | nil =>
    have byte := read_marks (p := []) 0 points.1 points.2 le_rfl
    rw [chars, List.map_nil, haswildLoop, byte]
    rfl
  | cons x p ih =>
    have byte := read_marks 0 points.1 points.2 (Nat.zero_le _)
    have next : Points ⟨.marks m, offset + 1⟩ 0 p := points.tail
    obtain ⟨c, isMasked⟩ := x
    rw [chars_cons, haswildLoop, byte, ok_bind, List.any_cons]
    cases isMasked with
    | true =>
      have other : (maskOf ((c, true) :: p))[0]?.getD 0 ≠ 'r'.toUInt8 := by
        show 'q'.toUInt8 ≠ 'r'.toUInt8
        decide
      rw [if_neg fun both => other both.2]
      exact ih next
    | false =>
      cases wild : isWildcard c with
      | true =>
        rw [if_pos ⟨rfl, rfl⟩, Marked.isWild, wild]
        rfl
      | false =>
        rw [if_neg fun both => absurd both.1 Bool.false_ne_true, Marked.isWild, wild]
        exact ih next

/-- `haswild` tells whether an unmasked character is a wildcard. -/
theorem Points.haswildAt {q : Quoting} {p : List Marked} (points : Points q 0 p) :
    Desh.haswildAt (chars p) q = .ok (p.any Marked.isWild) := by
  obtain ⟨array, offset⟩ := q
  cases array with
  | QUOTED => exact points.elim
  | UNQUOTED =>
    obtain ⟨rfl, unmasked⟩ := points
    have same : ∀ p : List Marked, (∀ x ∈ p, x.2 = false) →
        (chars p).any isWildcard = p.any Marked.isWild := by
      intro p bare
      induction p with
      | nil => rfl
      | cons x p ih =>
        rw [chars_cons, List.any_cons, List.any_cons, Marked.isWild, bare x List.mem_cons_self,
          ih fun y member => bare y (List.mem_cons_of_mem _ member)]
        rfl
    exact congrArg Except.ok (same p unmasked)
  | marks m => exact haswildLoop_eq points

theorem Points.isQUOTED {q : Quoting} {i : Nat} {p : List Marked} (points : Points q i p) :
    q.isQUOTED = false := by
  refine decide_eq_false fun same => ?_
  rw [same] at points
  exact points

/-- `match` on a pattern behind a star. -/
theorem Points.matchSingle {q : Quoting} {p : List Marked} (points : Points q 0 p) :
    Decides (fun s => Desh.matchSingle s (chars p) q) (q.parse p) := by
  intro s
  have loop : Desh.matchSingle s (chars p) q = Desh.matchLoop q 0 (chars p) s := by
    rw [Desh.matchSingle, points.isQUOTED, if_neg Bool.false_ne_true]
  show (_ → Desh.matchSingle s (chars p) q = _) ∧ (_ → Desh.matchSingle s (chars p) q = _)
  rw [loop]
  exact points.matchLoop s

/-- A pattern without an unmasked wildcard is a word. -/
theorem atoms_plain {p : List Marked} (plain : p.any Marked.isWild = false) :
    atoms p = (chars p).map .literal := by
  induction p with
  | nil =>
    rw [atoms, parse]
    rfl
  | cons x p ih =>
    rw [List.any_cons, Bool.or_eq_false_iff] at plain
    have other : ∀ c : Char, isWildcard c.toUInt8 = true → x ≠ bare c := by
      rintro c wild rfl
      have noWild := plain.1
      rw [Marked.isWild, bare, wild] at noWild
      cases noWild
    rw [atoms, parse_literal (other '?' (by decide)) (other '*' (by decide))
      (other '[' (by decide)), List.map_cons]
    exact congrArg _ (ih plain.2)

theorem atoms_cons {p rest : List Marked} {t : Atom UInt8} {scanned : Bool}
    (first : parse p = (t, scanned) :: parse rest) : atoms p = t :: atoms rest := by
  rw [atoms, first, List.map_cons]
  rfl

/-! ### The search behind a star -/

/-- The search of the extraction finds what the matcher found. -/
theorem searchSuffix_eq {test : Text → Except Fault Bool} {decides : Text → Bool}
    {allowed : Text → Prop} (holds : ∀ s, allowed s → test s = .ok (decides s)) {s : Text}
    (until_found : Wildcard.UntilFound decides allowed s) :
    searchSuffix test s =
      match Wildcard.findSuffix decides s with
      | some found => .ok found
      | none => .error .assertion := by
  induction s with
  | nil => rfl
  | cons c s ih =>
    obtain ⟨here, later⟩ := until_found
    rw [searchSuffix, Wildcard.findSuffix, holds _ here, ok_bind]
    cases found : decides (c :: s) with
    | true => rfl
    | false =>
      rw [if_neg Bool.false_ne_true, if_neg Bool.false_ne_true, ih (later found)]
      cases Wildcard.findSuffix decides s with
      | none => rfl
      | some found => rfl

/-! ### Extraction -/

/-- What extraction returns, backwards and in front of `result`, where it finds pieces. -/
def pieced (pieces : Option (List Text)) (result : List Text) : Except Fault (List Text) :=
  match pieces with
  | some pieces => .ok (pieces.reverse ++ result)
  | none => .error .assertion

theorem pieced_cons (piece : Text) (pieces : Option (List Text)) (result : List Text) :
    pieced pieces (piece :: result) = pieced (pieces.map (piece :: ·)) result := by
  cases pieces with
  | none => rfl
  | some pieces =>
    rw [Option.map_some, pieced, pieced, List.reverse_cons, List.append_assoc,
      List.singleton_append]

theorem oneChar_of_ne {c : UInt8} (nonzero : c ≠ 0) : oneChar c = [c] := if_neg nonzero

/-- A word without wildcards has no pieces. -/
theorem extract_literals (p s : Text) (denotes : Wildcard.Denotes (p.map Atom.literal) s) :
    Wildcard.extract (p.map .literal) s = some [] := by
  induction p generalizing s with
  | nil => rfl
  | cons c p ih =>
    obtain ⟨d, s, rfl, -, rest⟩ := denotes.uncons (by nofun)
    exact ih s rest

theorem parse_ne_nil (x : Marked) (p : List Marked) : parse (x :: p) ≠ [] := by
  by_cases star : x = bare '*'
  · rw [star, parse_star]
    nofun
  · obtain ⟨t, b, rest, first, -⟩ := parse_cons_single star p
    rw [first]
    nofun

/-- Where the word matches a pattern with a wildcard, pieces are extracted. -/
theorem ifMatch_of_match {subject pattern : Text} {quoting : Quoting}
    {extracted : Except Fault (List Text)} (wild : haswildAt pattern quoting = .ok true)
    (matched : matchSingle subject pattern quoting = .ok true) :
    ifMatch subject pattern quoting extracted = extracted := by
  rw [ifMatch, wild, ok_bind, matched]
  rfl

/-- The loop of `extractsinglematch` returns the pieces. -/
theorem Points.extractLoop {q : Quoting} {i : Nat} {p : List Marked} (points : Points q i p)
    {s : Text} (nulFree : NulFree s) (denotes : Wildcard.Denotes (atoms p) s)
    (allowed : Wildcard.Allowed (q.parse p) s) (result : List Text) :
    Desh.extractLoop q i (chars p) (some s) result =
      pieced (Wildcard.extract (atoms p) s) result := by
  induction p using parse.induct generalizing q i s result with
  | case1 =>
    rw [chars, List.map_nil, Desh.extractLoop, atoms, parse]
    rfl
  | case2 p ih =>
    have quoted : q.ISQUOTED i = .ok false := points.ISQUOTED
    rw [atoms_cons (parse_question p)] at denotes ⊢
    rw [q.parse_cons (parse_question p)] at allowed
    obtain ⟨d, s, rfl, takes, rest⟩ := denotes.uncons (by simp)
    rw [nulFree_cons] at nulFree
    rw [Wildcard.allowed_take_cons (by simp)] at allowed
    have loop : Desh.extractLoop q i (chars (bare '?' :: p)) (some (d :: s)) result =
        Desh.extractLoop q (i + 1) (chars p) (some s) (oneChar d :: result) := by
      rw [chars_cons, Desh.extractLoop, quoted]
      rfl
    rw [loop, oneChar_of_ne nulFree.1, ih points.tail nulFree.2 rest (allowed.2 takes),
      pieced_cons, Wildcard.extract, if_pos rfl]
  | case3 p _ ih =>
    have quoted : q.ISQUOTED i = .ok false := points.ISQUOTED
    have behind := points.tail.TAILQUOTE
    rw [atoms_cons (parse_star p)] at denotes ⊢
    rw [q.parse_cons (parse_star p)] at allowed
    cases p with
    | nil =>
      have loop : Desh.extractLoop q i (chars [bare '*']) (some s) result = .ok (s :: result) := by
        rw [chars_cons, Desh.extractLoop, quoted]
        rfl
      rw [loop, atoms, parse]
      rfl
    | cons x p =>
      have loop : Desh.extractLoop q i (chars (bare '*' :: x :: p)) (some s) result =
          (searchSuffix
              (fun s => Desh.matchSingle s (chars (x :: p)) (q.TAILQUOTE (i + 1))) s >>=
            fun found => Desh.haswildAt (chars (x :: p)) (q.TAILQUOTE (i + 1)) >>= fun wild =>
              if wild then
                ifMatch found.2 (chars (x :: p)) (q.TAILQUOTE (i + 1))
                  (Desh.extractLoop (q.TAILQUOTE (i + 1)) 0 (chars (x :: p)) (some found.2)
                    (found.1 :: result))
              else .ok (found.1 :: result)) := by
        rw [chars_cons, Desh.extractLoop, quoted]
        rfl
      have several : q.parse (x :: p) ≠ [] := by
        rw [Quoting.parse, Ne, List.map_eq_nil_iff]
        exact parse_ne_nil x p
      have several_atoms : atoms (x :: p) ≠ [] := by
        rw [atoms, Ne, List.map_eq_nil_iff]
        exact parse_ne_nil x p
      have tried := allowed.untilFound several (by
        rw [q.parse_fst]
        exact (Wildcard.isMatch_iff _ _).mpr denotes)
      rw [← q.parse_TAILQUOTE (i + 1)] at tried
      rw [loop, searchSuffix_eq (fun s => (behind.matchSingle s).1) tried,
        Wildcard.extract_star several_atoms, Quoting.parse_fst]
      cases search : Wildcard.findSuffix (Wildcard.isMatch (atoms (x :: p))) s with
      | none => rfl
      | some found =>
        obtain ⟨u, v⟩ := found
        rw [← (q.TAILQUOTE (i + 1)).parse_fst] at search
        have here := tried.found search
        rw [Quoting.parse_fst] at search
        obtain ⟨rfl, -, matched, -⟩ := Wildcard.findSuffix_some search
        have rest := (Wildcard.isMatch_iff _ _).mp matched
        rw [ok_bind, behind.haswildAt, ok_bind]
        cases wild : (x :: p).any Marked.isWild with
        | true =>
          have decided := (behind.matchSingle v).1 here
          rw [Quoting.parse_fst, matched] at decided
          have later := ih behind (nulFree_append.mp nulFree).2 rest here (u :: result)
          rw [if_pos rfl, ifMatch_of_match (behind.haswildAt.trans (congrArg _ wild)) decided,
            later,
            pieced_cons]
        | false =>
          have plain := atoms_plain wild
          rw [plain] at rest
          rw [if_neg Bool.false_ne_true, plain]
          show _ = pieced ((Wildcard.extract _ v).map _) result
          rw [extract_literals _ _ rest]
          rfl
  | case4 p cls n found _ _ ih =>
    have quoted : q.ISQUOTED i = .ok false := points.ISQUOTED
    have scan := points.tail.TAILQUOTE.answers.rangematch
    rw [inside_TAILQUOTE, classScans_inside, found] at scan
    rw [atoms_cons (parse_class found)] at denotes ⊢
    rw [q.parse_cons (parse_class found)] at allowed
    obtain ⟨d, s, rfl, takes, rest⟩ := denotes.uncons (by simp)
    rw [nulFree_cons] at nulFree
    rw [Wildcard.allowed_take_cons (by simp)] at allowed
    have accepted : cls.accepts d = true := takes
    have ranged : Desh.rangematch (chars p) (q.TAILQUOTE (i + 1)) d = .ok (.matched n) := by
      rw [scan, allowed.1, given_true, scanResult, accepted, if_pos rfl]
    have loop : Desh.extractLoop q i (chars (bare '[' :: p)) (some (d :: s)) result =
        Desh.extractLoop q (i + 1 + n) (chars (p.drop n)) (some s) (oneChar d :: result) := by
      rw [chars_cons, Desh.extractLoop, quoted, chars_drop]
      show (Desh.rangematch (chars p) (q.TAILQUOTE (i + 1)) d >>= _) = _
      rw [ranged]
      rfl
    rw [loop, oneChar_of_ne nulFree.1,
      ih (points.tail.drop n (classOf_le found)) nulFree.2 rest (allowed.2 takes), pieced_cons,
      Wildcard.extract, if_pos accepted]
  | case5 p none _ _ ih =>
    have quoted : q.ISQUOTED i = .ok false := points.ISQUOTED
    have scan := points.tail.TAILQUOTE.answers.rangematch
    rw [inside_TAILQUOTE, classScans_inside, none] at scan
    rw [atoms_cons (parse_bracket none)] at denotes ⊢
    rw [q.parse_cons (parse_bracket none)] at allowed
    obtain ⟨d, s, rfl, takes, rest⟩ := denotes.uncons (by simp)
    rw [nulFree_cons] at nulFree
    rw [Wildcard.allowed_take_cons (by simp)] at allowed
    have bracket : d = '['.toUInt8 := of_decide_eq_true takes
    have ranged : Desh.rangematch (chars p) (q.TAILQUOTE (i + 1)) d = .ok .RANGE_ERROR := by
      rw [scan, allowed.1, given_true, scanResult]
    have loop : Desh.extractLoop q i (chars (bare '[' :: p)) (some (d :: s)) result =
        Desh.extractLoop q (i + 1) (chars p) (some s) result := by
      rw [chars_cons, Desh.extractLoop, quoted]
      show (Desh.rangematch (chars p) (q.TAILQUOTE (i + 1)) d >>= _) = _
      rw [ranged]
      exact if_pos bracket
    rw [loop, ih points.tail nulFree.2 rest (allowed.2 takes), Wildcard.extract]
  | case6 x p noQuestion noStar noBracket ih =>
    have quoted : q.ISQUOTED i = .ok x.2 := points.ISQUOTED
    have literal := parse_literal noQuestion noStar noBracket p
    rw [atoms_cons literal] at denotes ⊢
    rw [q.parse_cons literal] at allowed
    obtain ⟨d, s, rfl, takes, rest⟩ := denotes.uncons (by simp)
    rw [nulFree_cons] at nulFree
    rw [Wildcard.allowed_take_cons (by simp)] at allowed
    have later := ih points.tail nulFree.2 rest (allowed.2 takes) result
    rw [chars_cons, Desh.extractLoop, quoted, ok_bind, if_neg (not_bare noQuestion),
        if_neg (not_bare noStar), if_neg (not_bare noBracket), Wildcard.extract, ← later]
    rfl

/-! ### The three kinds of masks -/

/-- Which characters of the pattern a quoting argument masks. -/
def Mask.marked (array : Mask) (p : Text) : List Marked :=
  match array with
  | .QUOTED => p.map fun c => (c, true)
  | .UNQUOTED => p.map fun c => (c, false)
  | .marks m => masked p m

/-- The quoting argument has a mark for every character. -/
def Mask.Fits (array : Mask) (p : Text) : Prop :=
  match array with
  | .QUOTED | .UNQUOTED => True
  | .marks m => IsMask p m

theorem chars_marked {array : Mask} {p : Text} (fits : array.Fits p) :
    chars (array.marked p) = p := by
  cases array with
  | QUOTED | UNQUOTED =>
    rw [Mask.marked, chars, List.map_map]
    exact List.map_id p
  | marks m => exact chars_masked fits

theorem points_marked {array : Mask} {p : Text} (fits : array.Fits p) (some_raw : array ≠ .QUOTED) :
    Points (.of array) 0 (array.marked p) := by
  cases array with
  | QUOTED => exact absurd rfl some_raw
  | UNQUOTED =>
    refine points_UNQUOTED fun x member => ?_
    obtain ⟨c, -, rfl⟩ := List.mem_map.mp member
    rfl
  | marks m =>
    have points := points_maskOf (masked p m)
    rwa [maskOf_masked fits] at points

/-- A pattern that is masked throughout is a word. -/
theorem atoms_QUOTED (p : Text) : atoms (Mask.QUOTED.marked p) = p.map .literal := by
  have plain : (Mask.QUOTED.marked p).any Marked.isWild = false := by
    rw [Mask.marked, List.any_map, List.any_eq_false]
    intro c _
    simp [Marked.isWild]
  rw [atoms_plain plain, chars_marked (show Mask.QUOTED.Fits p from trivial)]

theorem denotes_literals_iff (p s : Text) :
    Wildcard.Denotes (p.map Atom.literal) s ↔ s = p := by
  induction p generalizing s with
  | nil =>
    constructor
    · intro denotes
      cases denotes
      rfl
    · rintro rfl
      exact .nil
  | cons c p ih =>
    constructor
    · intro denotes
      obtain ⟨d, s, rfl, takes, rest⟩ := denotes.uncons (by nofun)
      have same : d = c := of_decide_eq_true takes
      rw [same, (ih s).mp rest]
    · rintro rfl
      exact .take (decide_eq_true rfl) ((ih p).mpr rfl)

/-- With this word, `UNQUOTED` is read inside its array only: no class that the matcher compares a
character with, nor a bracket nothing closes, is scanned further than that. -/
def ReadsInside (subject pattern : Text) : Prop :=
  Wildcard.Allowed (parse (Mask.UNQUOTED.marked pattern)) subject

theorem parse_UNQUOTED (p : List Marked) : (Quoting.of .UNQUOTED).parse p = parse p := by
  rw [Quoting.parse]
  exact List.map_id (parse p)

section Results

variable {array : Mask} {subject pattern : Text} (fits : array.Fits pattern)

/-- Every comparison of the matcher is allowed when nothing is read outside the array. -/
theorem allowed_iff (some_raw : array ≠ .QUOTED) :
    Wildcard.Allowed ((Quoting.of array).parse (array.marked pattern)) subject ↔
      (array = .UNQUOTED → ReadsInside subject pattern) := by
  cases array with
  | QUOTED => exact absurd rfl some_raw
  | UNQUOTED =>
    rw [parse_UNQUOTED]
    exact ⟨fun allowed _ => allowed, fun inside => inside rfl⟩
  | marks m => exact iff_of_true (allowed_marks m 0 _ subject) nofun

include fits

/-- The result of `match`. -/
theorem matchSingle_eq (inside : array = .UNQUOTED → ReadsInside subject pattern) :
    matchSingle subject pattern (.of array) =
      .ok (Wildcard.isMatch (atoms (array.marked pattern)) subject) := by
  by_cases quoted : array = .QUOTED
  · subst quoted
    rw [atoms_QUOTED]
    refine congrArg Except.ok ?_
    rw [Bool.eq_iff_iff, Wildcard.isMatch_iff, denotes_literals_iff, decide_eq_true_iff]
  · have decided := ((points_marked fits quoted).matchSingle subject).1
      ((allowed_iff quoted).mpr inside)
    rw [Quoting.parse_fst, chars_marked fits] at decided
    exact decided

/-- Reading the quoting argument outside its array is all that can go wrong in `match`. -/
theorem matchSingle_fault (outside : ¬(array = .UNQUOTED → ReadsInside subject pattern)) :
    matchSingle subject pattern (.of array) = .error .quoting := by
  have quoted : array ≠ .QUOTED := by
    rintro rfl
    exact outside nofun
  have fault := ((points_marked fits quoted).matchSingle subject).2
    fun allowed => outside ((allowed_iff quoted).mp allowed)
  rw [chars_marked fits] at fault
  exact fault

/-- The result of `haswild`. -/
theorem haswildAt_eq :
    haswildAt pattern (.of array) = .ok ((array.marked pattern).any Marked.isWild) := by
  by_cases quoted : array = .QUOTED
  · subst quoted
    rw [Mask.marked, List.any_map]
    refine congrArg Except.ok (List.any_eq_false.mpr fun c _ => ?_).symm
    simp [Marked.isWild]
  · have wild := (points_marked fits quoted).haswildAt
    rwa [chars_marked fits] at wild

/-- The result of `extractsinglematch`. -/
theorem extractsinglematch_eq (inside : array = .UNQUOTED → ReadsInside subject pattern)
    (nulFree : NulFree subject) :
    extractsinglematch subject pattern (.of array) [] =
      if Wildcard.isMatch (atoms (array.marked pattern)) subject then
        pieced (Wildcard.extract (atoms (array.marked pattern)) subject) []
      else .ok [] := by
  have wild := haswildAt_eq fits
  have matched := matchSingle_eq fits inside
  cases found : (array.marked pattern).any Marked.isWild with
  | false =>
    rw [found] at wild
    rw [extractsinglematch, ifMatch, wild, atoms_plain found]
    split
    · rename_i denotes
      rw [extract_literals _ _ ((Wildcard.isMatch_iff _ _).mp denotes)]
      rfl
    · rfl
  | true =>
    rw [found] at wild
    cases denoted : Wildcard.isMatch (atoms (array.marked pattern)) subject with
    | false =>
      rw [denoted] at matched
      rw [extractsinglematch, ifMatch, wild, ok_bind, matched]
      rfl
    | true =>
      rw [denoted] at matched
      have quoted : array ≠ .QUOTED := by
        rintro rfl
        cases wild
      have extracted := (points_marked fits quoted).extractLoop nulFree
        ((Wildcard.isMatch_iff _ _).mp denoted) ((allowed_iff quoted).mpr inside) []
      rw [chars_marked fits] at extracted
      rw [extractsinglematch, ifMatch_of_match wild matched, extracted, if_pos rfl]

/-- Where `match` returns true, the word is of the language, and `extractsinglematch` returns its
pieces. -/
theorem extractsinglematch_of_match (nulFree : NulFree subject)
    (matched : matchSingle subject pattern (.of array) = .ok true) :
    Wildcard.Denotes (atoms (array.marked pattern)) subject ∧
      extractsinglematch subject pattern (.of array) [] =
        pieced (Wildcard.extract (atoms (array.marked pattern)) subject) [] := by
  have inside : array = .UNQUOTED → ReadsInside subject pattern := by
    by_contra outside
    exact nomatch matched.symm.trans (matchSingle_fault fits outside)
  have denoted : Wildcard.isMatch (atoms (array.marked pattern)) subject = true :=
    Except.ok.inj ((matchSingle_eq fits inside).symm.trans matched)
  refine ⟨(Wildcard.isMatch_iff _ _).mp denoted, ?_⟩
  rw [extractsinglematch_eq fits inside nulFree, if_pos denoted]

end Results

/-! ### The arrays that stand for a mask -/

/-- The two arrays behave on a word and a pattern as the masks of one byte they stand for, and
nothing is read outside the array of a quoting argument. -/
structure StandIn (subject pattern : Text) : Prop where
  same : ∀ array mark, (array, mark) = (Mask.UNQUOTED, 'r'.toUInt8) ∨
      (array, mark) = (Mask.QUOTED, 'q'.toUInt8) →
    let mask := Mask.marks (List.replicate pattern.length mark)
    matchSingle subject pattern (.of array) = matchSingle subject pattern (.of mask) ∧
      haswildAt pattern (.of array) = haswildAt pattern (.of mask) ∧
      extractsinglematch subject pattern (.of array) [] =
        extractsinglematch subject pattern (.of mask) []
  inside : ∀ array : Mask, array.Fits pattern →
    matchSingle subject pattern (.of array) ≠ .error .quoting ∧
      haswildAt pattern (.of array) ≠ .error .quoting ∧
      extractsinglematch subject pattern (.of array) [] ≠ .error .quoting

theorem masked_replicate (p : Text) (mark : UInt8) :
    masked p (List.replicate p.length mark) = p.map fun c => (c, decide (mark = 'q'.toUInt8)) := by
  rw [masked, List.map_replicate]
  induction p with
  | nil => rfl
  | cons c p ih => exact congrArg _ ih

theorem isMask_replicate (p : Text) {mark : UInt8}
    (known : mark = 'q'.toUInt8 ∨ mark = 'r'.toUInt8) :
    IsMask p (List.replicate p.length mark) :=
  ⟨List.length_replicate, fun _ member => (List.eq_of_mem_replicate member) ▸ known⟩

/-- Nothing is read outside the array of an argument that fits, where that holds of `UNQUOTED`. -/
theorem no_fault {array : Mask} {subject pattern : Text} (fits : array.Fits pattern)
    (inside : ReadsInside subject pattern) (nulFree : NulFree subject) :
    matchSingle subject pattern (.of array) ≠ .error .quoting ∧
      haswildAt pattern (.of array) ≠ .error .quoting ∧
      extractsinglematch subject pattern (.of array) [] ≠ .error .quoting := by
  rw [matchSingle_eq fits fun _ => inside, haswildAt_eq fits,
    extractsinglematch_eq fits (fun _ => inside) nulFree]
  refine ⟨by simp, by simp, ?_⟩
  split
  · cases Wildcard.extract (atoms (array.marked pattern)) subject with
    | none => simp [pieced]
    | some pieces => simp [pieced]
  · simp

/-- The arrays stand for masks exactly where the matcher scans no class too far. -/
theorem standIn_iff (subject pattern : Text) (nulFree : NulFree subject) :
    StandIn subject pattern ↔ ReadsInside subject pattern := by
  constructor
  · intro standIn
    by_contra outside
    exact (standIn.inside .UNQUOTED trivial).1
      (matchSingle_fault (show Mask.UNQUOTED.Fits pattern from trivial)
        fun inside => outside (inside rfl))
  · intro inside
    refine ⟨?_, fun array fits => no_fault fits inside nulFree⟩
    intro array mark stands mask
    have known : mark = 'q'.toUInt8 ∨ mark = 'r'.toUInt8 := by
      rcases stands with same | same
      · exact .inr (Prod.mk.inj same).2
      · exact .inl (Prod.mk.inj same).2
    have fits : array.Fits pattern := by
      rcases stands with same | same
      · obtain ⟨rfl, -⟩ := Prod.mk.inj same
        trivial
      · obtain ⟨rfl, -⟩ := Prod.mk.inj same
        trivial
    have mask_fits : mask.Fits pattern := isMask_replicate pattern known
    have same_marks : mask.marked pattern = array.marked pattern := by
      refine (masked_replicate pattern mark).trans ?_
      rcases stands with same | same
      · obtain ⟨rfl, rfl⟩ := Prod.mk.inj same
        rfl
      · obtain ⟨rfl, rfl⟩ := Prod.mk.inj same
        rfl
    rw [matchSingle_eq fits fun _ => inside, haswildAt_eq fits,
      extractsinglematch_eq fits (fun _ => inside) nulFree,
        matchSingle_eq mask_fits fun _ => inside,
      haswildAt_eq mask_fits, extractsinglematch_eq mask_fits (fun _ => inside) nulFree, same_marks]
    exact ⟨rfl, rfl, rfl⟩

theorem standIn_iff_short : StandIn (lit "a") (lit "[abc]") ↔ ReadsInside (lit "a") (lit "[abc]") :=
  standIn_iff _ _ (by decide)

/-- A class of four characters: the mark of its closing bracket lies behind the four bytes. -/
theorem match_reads_outside :
    matchSingle (lit "a") (lit "[abcd]") (.of .UNQUOTED) = .error .quoting ∧
      matchSingle (lit "a") (lit "[abcd]") (.of (.marks (lit "rrrrrr"))) = .ok true := by
  decide +kernel

/-! ### Does extraction complete? -/

/-- Does a pattern end with two stars while no proper prefix of the word is of its language? -/
def StarsBehind (ts : List (Atom UInt8)) (s : Text) : Prop :=
  (∃ front, ts = front ++ [.star, .star]) ∧ ∀ u v, s = u ++ v → v ≠ [] → ¬Wildcard.Denotes ts u

/-- On a word that matches, extraction completes unless the pattern ends with two stars that can
stand for nothing but the empty string. -/
theorem extractsinglematch_completes_iff (array : Mask) (subject pattern : Text)
    (fits : array.Fits pattern) (nulFree : NulFree subject)
    (matched : matchSingle subject pattern (.of array) = .ok true) :
    (∃ pieces, extractsinglematch subject pattern (.of array) [] = .ok pieces) ↔
      ¬StarsBehind (atoms (array.marked pattern)) subject := by
  obtain ⟨denotes, extracted⟩ := extractsinglematch_of_match fits nulFree matched
  rw [extracted, StarsBehind, ← Wildcard.extract_eq_none_iff denotes]
  cases Wildcard.extract (atoms (array.marked pattern)) subject with
  | none => exact iff_of_false nofun (not_not.mpr rfl)
  | some pieces => exact iff_of_true ⟨_, rfl⟩ nofun

theorem extractsinglematch_completes_iff_star :
    (∃ pieces, extractsinglematch (lit "ab") (lit "a*") (.of .UNQUOTED) [] = .ok pieces) ↔
      ¬StarsBehind (atoms (Mask.UNQUOTED.marked (lit "a*"))) (lit "ab") :=
  extractsinglematch_completes_iff .UNQUOTED _ _ trivial (by decide) (by decide +kernel)

/-- Two stars on the empty word: it matches, and extraction fails an assertion. -/
theorem extractsinglematch_aborts :
    matchSingle [] (lit "**") (.of .UNQUOTED) = .ok true ∧
      extractsinglematch [] (lit "**") (.of .UNQUOTED) [] = .error .assertion := by
  decide +kernel

/-! ### The pieces -/

/-- What extraction returns of a word that matches are, backwards, the pieces of the word: one for
each wildcard, together with the rest of the pattern the word, each star's the shortest. -/
theorem extractsinglematch_pieces (subject pattern m : Text) (mask : IsMask pattern m)
    (nulFree : NulFree subject)
    (matched : matchSingle subject pattern (.of (.marks m)) = .ok true) (result : List Text)
    (returned : extractsinglematch subject pattern (.of (.marks m)) [] = .ok result) :
    Wildcard.Pieces (atoms (masked pattern m)) subject result.reverse ∧
      result.length = (atoms (masked pattern m)).countP Atom.isWild ∧
      Wildcard.fill (atoms (masked pattern m)) result.reverse = subject := by
  obtain ⟨denotes, extracted⟩ :=
    extractsinglematch_of_match (show (Mask.marks m).Fits pattern from mask) nulFree matched
  have atoms_eq : atoms ((Mask.marks m).marked pattern) = atoms (masked pattern m) := rfl
  rw [atoms_eq] at denotes extracted
  cases found : Wildcard.extract (atoms (masked pattern m)) subject with
  | none =>
    rw [found, returned] at extracted
    cases extracted
  | some pieces =>
    rw [found, returned, pieced, List.append_nil] at extracted
    obtain rfl := Except.ok.inj extracted
    have split := Wildcard.pieces_of_extract denotes found
    rw [List.length_reverse, List.reverse_reverse]
    exact ⟨split, split.length, split.fill⟩

theorem extractsinglematch_pieces_class :
    Wildcard.Pieces (atoms (masked (lit "a*[0-9]?") (lit "rrrrrrrr"))) (lit "abc7x")
        [lit "bc", lit "7", lit "x"] ∧
      3 = (atoms (masked (lit "a*[0-9]?") (lit "rrrrrrrr"))).countP Atom.isWild ∧
      Wildcard.fill (atoms (masked (lit "a*[0-9]?") (lit "rrrrrrrr")))
        [lit "bc", lit "7", lit "x"] = lit "abc7x" :=
  extractsinglematch_pieces _ _ _ (by decide +kernel) (by decide) (by decide +kernel)
    [lit "x", lit "7", lit "bc"] (by decide +kernel)

end Desh
