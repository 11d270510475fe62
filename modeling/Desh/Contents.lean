/-
This file says what a here document holds: the lines up to its marker as they
are written, or, when the marker is not quoted, with the variables in them. A
dollar sign should be refused when no name follows it, but the name is taken for
missing only if the array of its buffer has no room, and it always has.
-/

import Desh.Bodies
import Desh.Splitting

namespace Desh

open Desh.Tree

/-! ### What a document stands for -/

/-- The terms that `glom1` makes of a document, where every variable has a value and `%flatten` is
`$&flatten`. -/
def documentTerms (lookup : Text → List Text) : Tree → Option (List Text)
  | null => some []
  | nQword s => some [s]
  | nWord s => some [s]
  | nVar (nWord name) => some (lookup name)
  | nList p q => do
      let list ← documentTerms lookup p
      let rest ← documentTerms lookup q
      return list ++ rest
  | nCall (nList (nWord command) args) =>
      if command = lit "%flatten" then do
        let list ← documentTerms lookup args
        (primFlatten list).toOption
      else none
  | _ => none

/-- What `$&here` writes. -/
def documentValue (lookup : Text → List Text) (tree : Tree) : Option Text :=
  (documentTerms lookup tree).map (Lconv [])

/-- A character of the body, or a variable that is flattened. -/
inductive HerePiece where
  | char (c : UInt8)
  | variable (name : Text)

def HerePiece.value (lookup : Text → List Text) : HerePiece → Text
  | .char c => [c]
  | .variable name => Lconv (lit " ") (lookup name)

/-- The pieces of a body; there are none when a variable has no name. -/
def herePieces : Text → Option (List HerePiece)
  | [] => some []
  | c :: rest =>
      if c ≠ '$'.toUInt8 then (herePieces rest).map (.char c :: ·)
      else if rest.head? = some '$'.toUInt8 then (herePieces rest.tail).map (.char c :: ·)
      else
        let name := rest.takeWhile fun c => !dollarNonWord c
        let after := rest.dropWhile fun c => !dollarNonWord c
        if name = [] then none
        else
          (herePieces (if after.head? = some '^'.toUInt8 then after.tail else after)).map
            (.variable name :: ·)
termination_by body => body.length
decreasing_by
  all_goals simp_all only [List.length_cons, List.length_tail]
  · omega
  · omega
  · have shorter := (List.dropWhile_suffix (l := rest) fun c => !dollarNonWord c).length_le
    split
    · rw [List.length_tail]
      omega
    · omega

/-- The pieces of a body, whose marker may be quoted. -/
def bodyPieces (quoted : Bool) (body : Text) : Option (List HerePiece) :=
  if quoted then some (body.map .char) else herePieces body

/-- Lines with their newlines. -/
def linesText (lines : List Text) : Text := lines.flatMap (· ++ ['\n'.toUInt8])

/-- What follows the marker: a newline and more, or the end of the input. -/
def afterMarker : Option Text → Text
  | some rest => '\n'.toUInt8 :: rest
  | none => []

/-- A document is read as it is meant. -/
def ReadsDocument (eof : Text) (quoted : Bool) (lines : List Text) (ending : Option Text) : Prop :=
  match bodyPieces quoted (linesText lines) with
  | some pieces =>
      ∃ tree, snarfheredoc eof quoted (linesText lines ++ (eof ++ afterMarker ending)) =
          .ok (tree, ending.getD []) ∧
        ∀ lookup, documentValue lookup tree =
          some (pieces.flatMap (HerePiece.value lookup))
  | none =>
      snarfheredoc eof quoted (linesText lines ++ (eof ++ afterMarker ending)) =
        .error (.message (lit "null variable name in here document"))

/-! ### The pieces that were read -/

/-- The pieces so far, with what is in the buffer, stand for a text. -/
def StandsFor (lookup : Text → List Text) (tree : List Tree) (buf value : Text) : Prop :=
  ∃ terms, List.Forall₂ (fun piece words => documentTerms lookup piece = some words)
    tree terms ∧ value = terms.flatten.flatten ++ buf

variable {lookup : Text → List Text} {tree : List Tree} {buf value : Text}

theorem StandsFor.append (stands : StandsFor lookup tree buf value) (more : Text) :
    StandsFor lookup tree (buf ++ more) (value ++ more) := by
  obtain ⟨terms, each, rfl⟩ := stands
  exact ⟨terms, each, List.append_assoc _ _ _⟩

theorem StandsFor.flushed (stands : StandsFor lookup tree buf value) :
    StandsFor lookup (flushed tree buf) [] value := by
  obtain ⟨terms, each, rfl⟩ := stands
  unfold Desh.flushed
  split
  · rename_i empty
    exact ⟨terms, each, by rw [empty]⟩
  · refine ⟨terms ++ [[buf]], List.rel_append each (.cons rfl .nil), ?_⟩
    simp

theorem StandsFor.piece {var : Tree} {word : Text} (stands : StandsFor lookup tree [] value)
    (is : documentTerms lookup var = some [word]) :
    StandsFor lookup (tree ++ [var]) [] (value ++ word) := by
  obtain ⟨terms, each, rfl⟩ := stands
  refine ⟨terms ++ [[word]], List.rel_append each (.cons is .nil), ?_⟩
  simp

theorem documentTerms_variable (name : Text) :
    documentTerms lookup (flatten (nVar (nWord name)) (lit " ")) =
      some [Lconv (lit " ") (lookup name)] := by
  unfold flatten
  simp [documentTerms, primFlatten, Except.toOption]

theorem documentTerms_ofList {terms : List (List Text)}
    (each : List.Forall₂ (fun piece words => documentTerms lookup piece = some words)
      tree terms) : documentTerms lookup (ofList tree) = some terms.flatten := by
  induction each with
  | nil => rfl
  | cons is _ ih => simp [ofList, documentTerms, is, ih]

theorem Lconv_nil (words : List Text) : Lconv [] words = words.flatten := by
  induction words with
  | nil => rfl
  | cons s words ih => rw [Lconv, ih, ite_self, List.append_nil, List.flatten_cons]

/-- A single piece stands for itself. -/
theorem documentValue_pieces : ∀ {pieces : List Tree} {terms : List (List Text)},
    List.Forall₂ (fun piece words => documentTerms lookup piece = some words) pieces terms →
      documentValue lookup (match pieces with
        | [piece] => piece
        | pieces => ofList pieces) = some terms.flatten.flatten := by
  intro pieces terms each
  unfold documentValue
  split
  · cases each with
    | cons is others =>
      cases others
      rw [is, Option.map_some, Lconv_nil, List.flatten_singleton]
  · rw [documentTerms_ofList each, Option.map_some, Lconv_nil]

theorem StandsFor.document (stands : StandsFor lookup tree buf value) :
    documentValue lookup (document tree buf) = some value := by
  obtain ⟨terms, each, rfl⟩ := stands
  unfold Desh.document
  by_cases whole : buf = [] ∧ tree ≠ []
  · rw [if_pos whole, whole.1, List.append_nil]
    exact documentValue_pieces each
  · have last : List.Forall₂ (fun piece words => documentTerms lookup piece = some words)
        (tree ++ [nQword buf]) (terms ++ [[buf]]) := List.rel_append each (.cons rfl .nil)
    rw [if_neg whole]
    refine (documentValue_pieces last).trans ?_
    rw [List.flatten_append, List.flatten_append]
    simp

/-! ### The pieces of a line -/

theorem herePieces_plain {c : UInt8} (plain : c ≠ '$'.toUInt8) (rest : Text) :
    herePieces (c :: rest) = (herePieces rest).map (.char c :: ·) := by
  rw [herePieces, if_pos plain]

theorem herePieces_dollar (rest : Text) :
    herePieces ('$'.toUInt8 :: '$'.toUInt8 :: rest) =
      (herePieces rest).map (.char '$'.toUInt8 :: ·) := by
  rw [herePieces, if_neg (not_not.mpr rfl), List.head?_cons, if_pos rfl, List.tail_cons]

theorem herePieces_append {s : Text} (plain : '$'.toUInt8 ∉ s) (rest : Text) :
    herePieces (s ++ rest) = (herePieces rest).map (s.map .char ++ ·) := by
  induction s with
  | nil =>
    rw [List.nil_append]
    exact Option.map_id'.symm
  | cons c s ih =>
    rw [List.cons_append, herePieces_plain (fun same => plain (same ▸ List.mem_cons_self)),
      ih (mt (List.mem_cons_of_mem c) plain), Option.map_map]
    rfl

/-- What follows a name, without a caret. -/
def afterName (rest : Text) : Text :=
  let after := rest.dropWhile fun c => !dollarNonWord c
  if after.head? = some '^'.toUInt8 then after.tail else after

theorem herePieces_name {rest : Text} (single : rest.head? ≠ some '$'.toUInt8) :
    herePieces ('$'.toUInt8 :: rest) =
      if (rest.takeWhile fun c => !dollarNonWord c) = [] then none
      else (herePieces (afterName rest)).map
        (.variable (rest.takeWhile fun c => !dollarNonWord c) :: ·) := by
  rw [herePieces, if_neg (not_not.mpr rfl), if_neg single]
  rfl

theorem takeWhile_line (l rest : Text) :
    (l ++ '\n'.toUInt8 :: rest).takeWhile (fun c => !dollarNonWord c) =
      l.takeWhile fun c => !dollarNonWord c := by
  induction l with
  | nil => rw [List.nil_append, List.takeWhile_cons_of_neg (by decide)]; rfl
  | cons c l ih =>
    rw [List.cons_append, List.takeWhile_cons, List.takeWhile_cons, ih]

theorem afterName_line (l rest : Text) :
    afterName (l ++ '\n'.toUInt8 :: rest) = afterName l ++ '\n'.toUInt8 :: rest := by
  have dropped : (l ++ '\n'.toUInt8 :: rest).dropWhile (fun c => !dollarNonWord c) =
      l.dropWhile (fun c => !dollarNonWord c) ++ '\n'.toUInt8 :: rest := by
    induction l with
    | nil =>
      rw [List.nil_append, List.dropWhile_cons_of_neg (by decide)]
      rfl
    | cons c l ih =>
      rw [List.cons_append, List.dropWhile_cons, List.dropWhile_cons, ih]
      split <;> rfl
  unfold afterName
  rw [dropped]
  cases l.dropWhile fun c => !dollarNonWord c with
  | nil => rfl
  | cons c after =>
    show (if (c :: (after ++ '\n'.toUInt8 :: rest)).head? = some '^'.toUInt8 then _ else _) =
      (if (c :: after).head? = some '^'.toUInt8 then _ else _) ++ _
    by_cases caret : (c :: after).head? = some '^'.toUInt8
    · rw [if_pos caret, if_pos (show (c :: (after ++ _)).head? = _ from caret)]
      rfl
    · rw [if_neg caret, if_neg (show (c :: (after ++ _)).head? ≠ _ from caret), List.cons_append]

theorem afterName_suffix (rest : Text) : afterName rest <:+ rest := by
  have suffix := List.dropWhile_suffix (l := rest) fun c => !dollarNonWord c
  unfold afterName
  dsimp only
  split
  · exact (List.tail_suffix _).trans suffix
  · exact suffix

/-- No piece goes beyond its line. -/
theorem herePieces_line (rest : Text) : ∀ {l : Text}, '\n'.toUInt8 ∉ l →
    herePieces (l ++ '\n'.toUInt8 :: rest) = (herePieces l).bind fun first =>
      (herePieces rest).map fun others => first ++ .char '\n'.toUInt8 :: others := by
  intro l
  induction count : l.length using Nat.strongRecOn generalizing l with
  | ind length ih =>
    intro single
    cases l with
    | nil =>
      rw [List.nil_append, herePieces_plain (by decide), herePieces]
      rfl
    | cons c l =>
      rw [List.length_cons] at count
      have inner : '\n'.toUInt8 ∉ l := mt (List.mem_cons_of_mem c) single
      by_cases dollar : c = '$'.toUInt8
      · subst dollar
        by_cases second : l.head? = some '$'.toUInt8
        · obtain ⟨l, rfl⟩ := List.head?_eq_some_iff.mp second
          rw [List.length_cons] at count
          rw [List.cons_append, List.cons_append, herePieces_dollar, herePieces_dollar,
            ih l.length (by omega) rfl (mt (List.mem_cons_of_mem _) inner)]
          cases herePieces l <;> cases herePieces rest <;> rfl
        · have second' : (l ++ '\n'.toUInt8 :: rest).head? ≠ some '$'.toUInt8 := by
            cases l with
            | nil => exact fun same => absurd (Option.some.inj same) (by decide)
            | cons d l => exact second
          have suffix := afterName_suffix l
          rw [List.cons_append, herePieces_name second, herePieces_name second', takeWhile_line,
            afterName_line]
          split
          · rfl
          · rw [ih _ (by have := suffix.length_le; omega) rfl fun member =>
              inner (suffix.subset member)]
            cases herePieces (afterName l) <;> cases herePieces rest <;> rfl
      · rw [List.cons_append, herePieces_plain dollar, herePieces_plain dollar,
          ih l.length (by omega) rfl inner]
        cases herePieces l <;> cases herePieces rest <;> rfl

/-! ### Reading the lines -/

theorem getherevar_afterName (input : Text) :
    getherevar input =
      .ok (flatten (nVar (nWord (input.takeWhile fun c => !dollarNonWord c))) (lit " "),
        afterName input) := getherevar_eq input

/-- The rest of a line is read as its pieces. -/
theorem snarf_pieces (eof rest : Text) : ∀ {l : Text}, Line l →
    ∀ {pieces : List HerePiece}, herePieces l = some pieces → ∀ (tree : List Tree) (buf : Text),
      ∃ tree' buf', snarf eof false false tree buf (l ++ '\n'.toUInt8 :: rest) =
          snarf eof false true tree' buf' rest ∧
        ∀ lookup value, StandsFor lookup tree buf value →
          StandsFor lookup tree' buf'
            (value ++ pieces.flatMap (HerePiece.value lookup) ++ ['\n'.toUInt8]) := by
  intro l
  induction count : l.length using Nat.strongRecOn generalizing l with
  | ind length ih =>
    intro line pieces isPieces tree buf
    cases l with
    | nil =>
      rw [herePieces] at isPieces
      cases isPieces
      refine ⟨tree, buf ++ ['\n'.toUInt8], ?_, fun lookup value stands => ?_⟩
      · rw [snarf_plain eof false tree buf line (.inr nofun), List.append_nil]
      · rw [List.flatMap_nil, List.append_nil]
        exact stands.append _
    | cons c l =>
      rw [List.length_cons] at count
      have inner : Line l := line.drop 1
      have nonzero : c ≠ 0 := fun same => line.2 (same ▸ List.mem_cons_self)
      by_cases dollar : c = '$'.toUInt8
      · subst dollar
        by_cases second : l.head? = some '$'.toUInt8
        · obtain ⟨l, rfl⟩ := List.head?_eq_some_iff.mp second
          rw [List.length_cons] at count
          rw [herePieces_dollar] at isPieces
          obtain ⟨others, read, rfl⟩ := Option.map_eq_some_iff.mp isPieces
          obtain ⟨tree', buf', same, stands'⟩ :=
            ih l.length (by omega) rfl (inner.drop 1) read tree (buf ++ ['$'.toUInt8])
          refine ⟨tree', buf', ?_, fun lookup value stands => ?_⟩
          · rw [List.cons_append, snarf, if_neg Bool.false_ne_true, if_neg nonzero,
              if_pos ⟨rfl, rfl⟩, List.cons_append, List.head?_cons, if_pos rfl, List.tail_cons]
            exact same
          · have done := stands' lookup _ (stands.append ['$'.toUInt8])
            rw [List.append_assoc value] at done
            exact done
        · have second' : (l ++ '\n'.toUInt8 :: rest).head? ≠ some '$'.toUInt8 := by
            cases l with
            | nil => exact fun same => absurd (Option.some.inj same) (by decide)
            | cons d l => exact second
          rw [herePieces_name second] at isPieces
          split at isPieces
          · cases isPieces
          · obtain ⟨others, read, rfl⟩ := Option.map_eq_some_iff.mp isPieces
            have suffix := afterName_suffix l
            have after : Line (afterName l) :=
              ⟨fun member => inner.1 (suffix.subset member), fun member =>
                inner.2 (suffix.subset member)⟩
            obtain ⟨tree', buf', same, stands'⟩ :=
              ih _ (by have := suffix.length_le; omega) rfl after read
                (flushed tree buf ++ [flatten (nVar (nWord
                  (l.takeWhile fun c => !dollarNonWord c))) (lit " ")]) []
            refine ⟨tree', buf', ?_, fun lookup value stands => ?_⟩
            · rw [List.cons_append, snarf, if_neg Bool.false_ne_true, if_neg nonzero,
                if_pos ⟨rfl, rfl⟩, if_neg second']
              split
              · rename_i error failed
                rw [getherevar_afterName] at failed
                cases failed
              · rename_i var after' returned
                rw [getherevar_afterName, takeWhile_line, afterName_line] at returned
                cases returned
                exact same
            · have done := stands' lookup _
                (stands.flushed.piece (documentTerms_variable _))
              rw [List.append_assoc value] at done
              exact done
      · have other : (c == '\n'.toUInt8) = false :=
          beq_eq_false_iff_ne.mpr fun same => line.1 (same ▸ List.mem_cons_self)
        rw [herePieces_plain dollar] at isPieces
        obtain ⟨others, read, rfl⟩ := Option.map_eq_some_iff.mp isPieces
        obtain ⟨tree', buf', same, stands'⟩ :=
          ih l.length (by omega) rfl inner read tree (buf ++ [c])
        refine ⟨tree', buf', ?_, fun lookup value stands => ?_⟩
        · rw [List.cons_append, snarf, if_neg Bool.false_ne_true, if_neg nonzero,
            if_neg fun both => dollar both.1, other]
          exact same
        · have done := stands' lookup _ (stands.append [c])
          rw [List.append_assoc value] at done
          exact done

theorem flatMap_char (s : Text) (lookup : Text → List Text) :
    (s.map HerePiece.char).flatMap (HerePiece.value lookup) = s := by
  induction s with
  | nil => rfl
  | cons c s ih => rw [List.map_cons, List.flatMap_cons, ih]; rfl

/-- A line that is not the marker is read as its pieces, whatever of it looks like the marker. -/
theorem snarf_linePieces {eof : Text} {quoted : Bool} (single : '\n'.toUInt8 ∉ eof)
    (plain : quoted = false → '$'.toUInt8 ∉ eof) {l : Text} (line : Line l) (other : l ≠ eof)
    {pieces : List HerePiece} (isPieces : bodyPieces quoted l = some pieces) (tree : List Tree)
    (buf rest : Text) :
    ∃ tree' buf', snarf eof quoted true tree buf (l ++ '\n'.toUInt8 :: rest) =
        snarf eof quoted true tree' buf' rest ∧
      ∀ lookup value, StandsFor lookup tree buf value →
        StandsFor lookup tree' buf'
          (value ++ pieces.flatMap (HerePiece.value lookup) ++ ['\n'.toUInt8]) := by
  rw [snarf_start single quoted tree buf line rest, if_neg other]
  cases quoted with
  | true =>
    cases isPieces
    refine ⟨tree, buf ++ l ++ ['\n'.toUInt8], ?_, fun lookup value stands => ?_⟩
    · rw [snarf_plain eof true tree _ (line.drop _) (.inl rfl), List.append_assoc buf,
        List.take_append_drop]
    · rw [flatMap_char]
      exact (stands.append l).append _
  | false =>
    have front : '$'.toUInt8 ∉ l.take (matched eof l) := by
      rw [← take_matched]
      exact fun member => plain rfl (List.mem_of_mem_take member)
    have whole : herePieces (l.take (matched eof l) ++ l.drop (matched eof l)) = some pieces := by
      rw [List.take_append_drop]
      exact isPieces
    rw [herePieces_append front] at whole
    obtain ⟨others, read, rfl⟩ := Option.map_eq_some_iff.mp whole
    obtain ⟨tree', buf', same, stands'⟩ := snarf_pieces eof rest (line.drop _) read tree
      (buf ++ l.take (matched eof l))
    refine ⟨tree', buf', same, fun lookup value stands => ?_⟩
    have done := stands' lookup _ (stands.append (l.take (matched eof l)))
    rw [List.flatMap_append, flatMap_char, ← List.append_assoc value]
    exact done

theorem bodyPieces_line {quoted : Bool} {l : Text} (single : '\n'.toUInt8 ∉ l) (rest : Text) :
    bodyPieces quoted (l ++ '\n'.toUInt8 :: rest) = (bodyPieces quoted l).bind fun first =>
      (bodyPieces quoted rest).map fun others => first ++ .char '\n'.toUInt8 :: others := by
  cases quoted with
  | true =>
    show some _ = some _
    rw [List.map_append, List.map_cons]
  | false => exact herePieces_line rest single

theorem linesText_cons (l : Text) (lines : List Text) (rest : Text) :
    linesText (l :: lines) ++ rest = l ++ '\n'.toUInt8 :: (linesText lines ++ rest) := by
  simp [linesText]

/-- The lines in front of the marker are read as the pieces of the body. -/
theorem snarf_lines {eof : Text} {quoted : Bool} (single : '\n'.toUInt8 ∉ eof)
    (plain : quoted = false → '$'.toUInt8 ∉ eof) {lines : List Text}
    (others : ∀ l ∈ lines, Line l ∧ l ≠ eof) {pieces : List HerePiece}
    (isPieces : bodyPieces quoted (linesText lines) = some pieces) (tree : List Tree)
    (buf rest : Text) :
    ∃ tree' buf', snarf eof quoted true tree buf (linesText lines ++ rest) =
        snarf eof quoted true tree' buf' rest ∧
      ∀ lookup value, StandsFor lookup tree buf value →
        StandsFor lookup tree' buf' (value ++ pieces.flatMap (HerePiece.value lookup)) := by
  induction lines generalizing pieces tree buf with
  | nil =>
    have none : pieces = [] := by
      cases quoted with
      | true => exact (Option.some.inj isPieces).symm
      | false =>
        rw [show bodyPieces false (linesText []) = herePieces [] from rfl, herePieces] at isPieces
        exact (Option.some.inj isPieces).symm
    subst none
    exact ⟨tree, buf, rfl, fun lookup value stands => (List.append_nil value).symm ▸ stands⟩
  | cons l lines ih =>
    obtain ⟨⟨line, differs⟩, others⟩ := List.forall_mem_cons.mp others
    rw [← List.append_nil (linesText (l :: lines)), linesText_cons, List.append_nil,
      bodyPieces_line line.1] at isPieces
    obtain ⟨first, isFirst, isPieces⟩ := Option.bind_eq_some_iff.mp isPieces
    obtain ⟨later, isLater, rfl⟩ := Option.map_eq_some_iff.mp isPieces
    obtain ⟨tree', buf', same, stands'⟩ :=
      snarf_linePieces single plain line differs isFirst tree buf (linesText lines ++ rest)
    obtain ⟨tree'', buf'', same', stands''⟩ := ih others isLater tree' buf'
    refine ⟨tree'', buf'', ?_, fun lookup value stands => ?_⟩
    · rw [linesText_cons, same, same']
    · have done := stands'' lookup _ (stands' lookup value stands)
      rw [List.flatMap_append, List.flatMap_cons, ← List.append_assoc, ← List.append_assoc]
      exact done

/-- The marker on a line of its own ends the document. -/
theorem snarf_ending {eof : Text} (single : '\n'.toUInt8 ∉ eof) (nulFree : NulFree eof)
    (quoted : Bool) (tree : List Tree) (buf : Text) (ending : Option Text) :
    snarf eof quoted true tree buf (eof ++ afterMarker ending) =
      .ok (document tree buf, ending.getD []) := by
  cases ending with
  | some rest =>
    exact (snarf_start single quoted tree buf ⟨single, nulFree⟩ rest).trans (if_pos rfl)
  | none =>
    rw [snarf.eq_def, if_pos rfl, show eof ++ afterMarker none = eof from List.append_nil eof,
      matched_self, List.drop_length]
    show (if ([] : Text).head? = some 0 then _ else if _ then _ else _) = _
    rw [if_neg nofun, if_pos ⟨rfl, .inl rfl⟩]
    rfl

/-- The only complaint of the loops is that the input ends. -/
theorem snarf_error {eof : Text} {quoted start : Bool} {tree : List Tree} {buf input : Text}
    {error : HereError} (failed : snarf eof quoted start tree buf input = .error error) :
    error = .message [] ∨ error = .message (lit "incomplete here document") := by
  fun_induction snarf eof quoted start tree buf input with
  | case1 =>
    cases failed
    exact .inl rfl
  | case2 => cases failed
  | case3 _ _ _ _ _ _ ih => exact ih failed
  | case4 =>
    cases failed
    exact .inr rfl
  | case5 =>
    cases failed
    exact .inl rfl
  | case6 _ _ _ _ _ _ _ _ _ ih => exact ih failed
  | case7 _ _ _ _ _ _ _ _ _ _ read =>
    rw [getherevar_afterName] at read
    cases read
  | case8 _ _ _ _ _ _ _ _ _ _ _ _ ih => exact ih failed
  | case9 _ _ _ _ _ _ _ _ ih => exact ih failed

/-- A document is not refused for a variable without a name. -/
theorem not_readsDocument {eof : Text} {quoted : Bool} {lines : List Text}
    {ending : Option Text} (nameless : bodyPieces quoted (linesText lines) = none) :
    ¬ReadsDocument eof quoted lines ending := by
  unfold ReadsDocument
  rw [nameless]
  intro failed
  dsimp only at failed
  unfold snarfheredoc at failed
  split at failed
  · cases failed
  · split at failed
    · exact absurd (Except.error.inj failed) (by decide +kernel)
    · rcases snarf_error failed with same | same
      · exact absurd same (by decide +kernel)
      · exact absurd same (by decide +kernel)

end Desh
