/-
This file says which strings `getclosure` makes closures of that `eval` can
call. The parser may return any command for a string that looks like code, and
`extractbindings` takes its prefixes off, so what is left depends on the shape
of the command and on the bindings in front of it.
-/

import Desh.Eval
import Desh.Shape

namespace Desh

open Desh.Tree

/-! ### What `getclosure` makes of a string -/

/-- The kinds of trees `eval` handles. -/
def Tree.Runnable : Tree → Prop
  | nPrim _ | nThunk _ | nLambda _ _ | nList _ _ => True
  | _ => False

/-- What the parser picks for a string: a derivation, with what stands behind its newlines, and
the text it leaves. -/
structure Picked where
  derivation : Derivation .es
  texts : List Text
  more : Text

/-- What `getclosure` makes of a string. -/
inductive Made where
  | nothing
  | raises
  | closure (bindings : List (Text × List Value)) (tree : Tree)
  | crashes
  deriving DecidableEq

/-- What `extractbindings` makes of a tree. -/
def Made.ofTree (tree : Tree) : Made :=
  match extractbindings tree with
  | .ok (bindings, tree) => .closure bindings tree
  | .error (.fail _ _) => .raises
  | .error .assertion => .crashes

/-- `getclosure` of a string term, where `counter` is that of `mkredir`. Where the parser picks
nothing, or has recorded an error, or leaves something of the string, `parsestring` raises an
exception. -/
def getclosure (s : Text) (picked : Option Picked) (counter : Nat) : Made :=
  if closureText s then
    match picked with
    | none => .raises
    | some ⟨derivation, texts, more⟩ =>
        match action id derivation (Parser.start texts counter) with
        | .assertion => .crashes
        | .yyabort _ => .raises
        | .returns tree parser =>
            if parser.error ≠ none ∨ more ≠ [] then .raises
            else if tree = null then .nothing
            else .ofTree tree
  else .nothing

/-- No closure, an exception, or a closure that `eval` can call. -/
def Made.Handled : Made → Prop
  | nothing | raises => True
  | closure _ tree => tree.Runnable
  | crashes => False

/-! ### Bindings of a `%closure` -/

/-- What `extract` comes to: bindings, an exception, or a failed assertion. -/
inductive Verdict where
  | accepted
  | refused
  | crashes
  deriving DecidableEq

namespace Verdict

def andThen : Verdict → Verdict → Verdict
  | accepted, verdict => verdict
  | verdict, _ => verdict

/-- The results of a verdict. -/
def Of {α : Type} : Verdict → Except Failure α → Prop
  | accepted, .ok _ | refused, .error (.fail _ _) | crashes, .error .assertion => True
  | _, _ => False

/-- Whether what follows is to be reached, if it is not refused before. -/
def Allows (onward : Prop) : Verdict → Prop
  | accepted => onward
  | refused => True
  | crashes => False

/-- The values of a binding, the last one first. -/
def ofValues : List Piece → Verdict
  | [] => accepted
  | .word _ :: pieces | .qword _ :: pieces => ofValues pieces
  | .prim s :: pieces =>
      if s = lit "nestedbinding" then
        match pieces with
        | .word count :: pieces => if atoi count = 0 then ofValues pieces else refused
        | .nothing :: _ => crashes
        | _ => refused
      else refused
  | _ => crashes

/-- The name of a binding. -/
def ofName (name : Text) : Verdict :=
  match validatevar name with
  | .ok _ => accepted
  | .error _ => refused

end Verdict

namespace Derivation

/-- What `extract` comes to for bindings, first to last. -/
def verdict : {symbol : Nonterminal} → Derivation symbol → Verdict
  | _, bindingsBinding binding => verdict binding
  | _, bindingsSemicolon bindings binding | _, bindingsNl bindings binding =>
      (verdict bindings).andThen (verdict binding)
  | _, bindingAssign word (assignWords _ _ words) =>
      match word.piece with
      | .word name | .qword name =>
          (Verdict.ofValues words.pieces.reverse).andThen (Verdict.ofName name)
      | _ => .crashes
  | _, bindingFn _ => .crashes
  | _, _ => .accepted

/-- Can a line or a command be called, once its prefixes are taken off? -/
def runs : {symbol : Nonterminal} → Derivation symbol → Bool
  | _, esNl line | _, esEndfile line => runs line
  | _, lineCmd cmd => runs cmd
  | _, lineCmdsa cmdsa line =>
      if cmdsa.shape = .nothing then runs line
      else if line.shape = .nothing then runs cmdsa
      else (Shape.joined (lit "%seq") cmdsa.shape line.shape).runs
  | _, cmdsaSemicolon cmd => runs cmd
  | _, cmdBinder .nClosure _ bindings _ cmd =>
      match bindings.verdict with
      | .accepted => cmd.shape ≠ .nothing && runs cmd
      | .refused => true
      | .crashes => false
  | _, derivation => derivation.shape.runs

end Derivation

/-! ### What `extract` comes to -/

section Returned

variable {parser after : Parser}

theorem Verdict.of_bind {α β : Type} {verdict verdict' : Verdict} {first : Except Failure α}
    {next : α → Except Failure β} (comes : verdict.Of first)
    (onward : ∀ value, first = .ok value → verdict'.Of (next value)) :
    (verdict.andThen verdict').Of (first >>= next) := by
  cases first with
  | ok value =>
    cases verdict with
    | accepted => exact onward value rfl
    | refused | crashes => exact comes.elim
  | error failure => cases verdict <;> cases failure <;> first | exact comes.elim | exact trivial

/-- The values of a binding, the last one first. -/
theorem ofValues_of {pieces : List Piece} {l : List Tree} (fits : List.Forall₂ Piece.Fits pieces l)
    (list : List Value) : (Verdict.ofValues pieces).Of (extractWords l list) := by
  induction pieces using Verdict.ofValues.induct generalizing l list with
  | case1 =>
    cases fits
    trivial
  | case2 s pieces ih | case3 s pieces ih =>
    obtain ⟨_, l, rfl, rest, rfl⟩ := List.forall₂_cons_left_iff.mp fits
    exact ih rest _
  | case4 count pieces zero ih =>
    obtain ⟨_, _, rfl, others, rfl⟩ := List.forall₂_cons_left_iff.mp fits
    obtain ⟨_, l, rfl, rest, rfl⟩ := List.forall₂_cons_left_iff.mp others
    rw [Verdict.ofValues, if_pos rfl, if_pos zero, extractWords, if_pos rfl,
      if_neg (by rw [zero]; decide), if_pos zero]
    exact ih rest _
  | case5 count pieces nonzero =>
    obtain ⟨_, _, rfl, others, rfl⟩ := List.forall₂_cons_left_iff.mp fits
    obtain ⟨_, l, rfl, rest, rfl⟩ := List.forall₂_cons_left_iff.mp others
    rw [Verdict.ofValues, if_pos rfl, if_neg nonzero, extractWords, if_pos rfl,
      if_neg nonzero]
    split <;> trivial
  | case6 pieces =>
    obtain ⟨_, _, rfl, others, rfl⟩ := List.forall₂_cons_left_iff.mp fits
    obtain ⟨_, l, rfl, rest, rfl⟩ := List.forall₂_cons_left_iff.mp others
    rw [Verdict.ofValues, if_pos rfl, extractWords, if_pos rfl]
    trivial
  | case7 pieces notWord notNothing =>
    obtain ⟨_, l, rfl, others, rfl⟩ := List.forall₂_cons_left_iff.mp fits
    have refused : Verdict.ofValues (.prim (lit "nestedbinding") :: pieces) = .refused := by
      unfold Verdict.ofValues
      rw [if_pos rfl]
      split
      · exact absurd rfl (notWord _ _)
      · exact absurd rfl (notNothing _)
      · rfl
    rw [refused]
    unfold extractWords
    rw [if_pos rfl]
    cases others with
    | nil => trivial
    | @cons piece t pieces l first rest =>
      cases piece with
      | word count => exact (notWord _ _ rfl).elim
      | nothing => exact (notNothing _ rfl).elim
      | _ => cases t <;> trivial
  | case8 s pieces other =>
    obtain ⟨_, l, rfl, rest, rfl⟩ := List.forall₂_cons_left_iff.mp fits
    unfold Verdict.ofValues extractWords
    rw [if_neg other, if_neg other]
    trivial
  | case9 pieces nonempty notWord notQword notPrim =>
    cases fits with
    | nil => exact (nonempty rfl).elim
    | @cons piece t pieces l first rest =>
      cases piece with
      | word s => exact (notWord _ _ rfl).elim
      | qword s => exact (notQword _ _ rfl).elim
      | prim s => exact (notPrim _ _ rfl).elim
      | nothing | code | other => cases t <;> trivial

theorem ofName_of (name : Text) : (Verdict.ofName name).Of (validatevar name) := by
  unfold Verdict.ofName validatevar
  split_ifs <;> trivial

theorem listOf_ofList (l : List Tree) : listOf (ofList l) = some l := by
  induction l with
  | nil => rfl
  | cons t l ih => rw [ofList_cons, listOf, ih, Option.map_some]

theorem extract_cons (t : Tree) (l : List Tree) (bindings : List (Text × List Value)) :
    extract (ofList (t :: l)) bindings =
      if t = null then extract (ofList l) bindings
      else (extractBinding t).bind fun binding => extract (ofList l) (binding :: bindings) := by
  by_cases empty : t = null
  · rw [if_pos empty, empty]
    rfl
  · rw [if_neg empty, ofList_cons, extract]
    · rfl
    · exact empty

theorem extract_append (l m : List Tree) (bindings : List (Text × List Value)) :
    extract (ofList (l ++ m)) bindings =
      (extract (ofList l) bindings).bind fun bindings => extract (ofList m) bindings := by
  induction l generalizing bindings with
  | nil => rfl
  | cons t l ih =>
    rw [List.cons_append, extract_cons, extract_cons]
    by_cases empty : t = null
    · rw [if_pos empty, if_pos empty]
      exact ih bindings
    · rw [if_neg empty, if_neg empty]
      cases extractBinding t with
      | error failure => rfl
      | ok binding => exact ih _

/-- The bindings a binding adds. -/
theorem binding_verdict {derivation : Derivation .binding} {tree : Tree}
    (returned : action id derivation parser = .returns tree after)
    (bindings : List (Text × List Value)) :
    derivation.verdict.Of
      (extract (ofList (if tree = null then [] else [tree])) bindings) := by
  have single : ∀ {verdict : Verdict}, tree ≠ null → verdict.Of (extractBinding tree) →
      verdict.Of (extract (ofList (if tree = null then [] else [tree])) bindings) := by
    intro verdict nonnull comes
    rw [if_neg nonnull, extract_cons, if_neg nonnull]
    have both := @Verdict.of_bind _ _ verdict .accepted _
      (fun binding => extract (ofList []) (binding :: bindings)) comes fun _ _ => trivial
    cases verdict <;> exact both
  cases derivation with
  | bindingEmpty =>
    rw [if_pos (eq_of_pure returned).symm]
    trivial
  | bindingFn fn =>
    obtain ⟨name, defn, rfl⟩ := @fn_of_returns _ _ fn _ returned
    exact single nofun trivial
  | bindingAssign word assign =>
    obtain ⟨w, _, isWord, rest⟩ := returns_of_bind returned
    obtain ⟨v, _, isAssign, made⟩ := returns_of_bind rest
    obtain rfl := eq_of_pure made
    cases assign with
    | assignWords _ _ words =>
      obtain ⟨l, rfl, values⟩ := words_pieces isAssign
      refine single nofun ?_
      have fits := fits_word isWord
      have named : ∀ name, ((Verdict.ofValues words.pieces.reverse).andThen
          (Verdict.ofName name)).Of (do
            let list ← extractWords l.reverse []
            validatevar name
            .ok (name, list)) := by
        intro name
        refine Verdict.of_bind (ofValues_of (List.rel_reverse values) []) fun list _ => ?_
        have valid := @Verdict.of_bind _ _ _ .accepted _ (fun _ => Except.ok (name, list))
          (ofName_of name) fun _ _ => trivial
        cases isName : Verdict.ofName name <;> rw [isName] at valid <;> exact valid
      show (match word.piece with
        | .word name | .qword name =>
            (Verdict.ofValues words.pieces.reverse).andThen (Verdict.ofName name)
        | _ => .crashes).Of _
      cases isPiece : word.piece with
      | word name =>
        rw [isPiece] at fits
        rw [show w = nWord name from fits, extractBinding, listOf_ofList]
        exact named name
      | qword name =>
        rw [isPiece] at fits
        rw [show w = nQword name from fits, extractBinding, listOf_ofList]
        exact named name
      | nothing | prim name | code | other =>
        rw [isPiece] at fits
        cases w <;> trivial

/-- The bindings a `%closure` adds. -/
theorem bindings_verdict : ∀ {derivation : Derivation .bindings} {parser after : Parser}
    {tree : Tree}, action id derivation parser = .returns tree after →
      ∃ l, tree = ofList l ∧ ∀ bindings, derivation.verdict.Of (extract (ofList l) bindings)
  | .bindingsBinding binding, _, _, tree, returned => by
    obtain ⟨t, _, isBinding, made⟩ := returns_of_bind returned
    obtain rfl := Option.some.inj ((treecons2_null t).symm.trans (eq_of_check made))
    exact ⟨_, rfl, binding_verdict isBinding⟩
  | .bindingsSemicolon bindings binding, _, _, tree, returned
  | .bindingsNl bindings binding, _, _, tree, returned => by
    obtain ⟨_, _, isBindings, rest⟩ := returns_of_bind returned
    obtain ⟨t, _, isBinding, made⟩ := returns_of_bind rest
    obtain ⟨l, rfl, comes⟩ := bindings_verdict isBindings
    obtain rfl := Option.some.inj ((treeconsend2_ofList l t).symm.trans (eq_of_check made))
    refine ⟨_, rfl, fun first => ?_⟩
    have both := Verdict.of_bind (comes first) fun bindings _ => binding_verdict isBinding bindings
    have same : (if t = null then l else l ++ [t]) = l ++ if t = null then [] else [t] := by
      split
      · rw [List.append_nil]
      · rfl
    rw [same, extract_append]
    exact both

/-! ### Prefixes -/

/-- `extractbindings` raises an exception or leaves a tree that can be called. -/
def Extracts : Except Failure (List (Text × List Value) × Tree) → Prop
  | .ok (_, tree) => tree.Runnable
  | .error (.fail _ _) => True
  | .error .assertion => False

theorem extractPrefixes_closure (p q : Tree) (bindings : List (Text × List Value)) :
    extractPrefixes (nClosure p q) bindings =
      (extract p bindings).bind fun bindings => extractPrefixes (unlist q) bindings := by
  unfold unlist
  split
  · rfl
  · rename_i other
    rw [extractPrefixes]
    · rfl
    · exact other

theorem extracts_closure {p q : Tree} {bindings : List (Text × List Value)} {verdict : Verdict}
    (comes : verdict.Of (extract p bindings)) {onward : Prop}
    (rest : ∀ bindings, Extracts (extractPrefixes (unlist q) bindings) ↔ onward) :
    Extracts (extractPrefixes (nClosure p q) bindings) ↔ verdict.Allows onward := by
  rw [extractPrefixes_closure]
  generalize extract p bindings = extracted at comes
  cases extracted with
  | ok bindings =>
    cases verdict with
    | accepted => exact rest bindings
    | refused | crashes => exact comes.elim
  | error failure =>
    cases verdict <;> cases failure <;> first | exact comes.elim | exact Iff.rfl

theorem Shape.joined_ne_closure (op : Text) (first second : Shape) :
    Shape.joined op first second ≠ .closure := by
  unfold Shape.joined
  split <;> nofun

theorem Shape.ofPieces_ne_closure (pieces : List Piece) : Shape.ofPieces pieces ≠ .closure := by
  unfold Shape.ofPieces
  split <;> nofun

/-- A command that is no `%closure` is left as it is. -/
theorem extracts_shape {shape : Shape} {t : Tree} (shows : shape.Shows t) (nonnull : t ≠ null)
    (other : shape ≠ .closure) (bindings : List (Text × List Value)) :
    Extracts (extractPrefixes (unlist t) bindings) ↔ shape.runs = true := by
  have left : ∀ {t : Tree}, t ≠ null → (∀ p q, t ≠ nClosure p q) →
      (Extracts (extractPrefixes t bindings) ↔ t.Runnable) := by
    intro t nonnull other
    cases t <;> first | exact absurd rfl nonnull | exact absurd rfl (other _ _) | exact Iff.rfl
  cases shape with
  | nothing => exact absurd shows nonnull
  | closure => exact absurd rfl other
  | many =>
    obtain ⟨_, _, _, rfl⟩ := shows
    exact iff_of_true trivial rfl
  | node => cases t <;> first | exact shows.elim | exact iff_of_false id Bool.false_ne_true
  | lone piece =>
    obtain ⟨e, rfl, fits, nonnull'⟩ := shows
    show Extracts (extractPrefixes e bindings) ↔ piece.runs = true
    rw [left nonnull' fun p q same => by rw [same] at fits; cases piece <;> cases fits]
    cases piece with
    | nothing => exact absurd fits nonnull'
    | word s | qword s => rw [show e = _ from fits]; exact iff_of_false id Bool.false_ne_true
    | prim s => rw [show e = _ from fits]; exact iff_of_true trivial rfl
    | code => cases e <;> first | exact fits.elim | exact iff_of_true trivial rfl
    | other => cases e <;> first | exact fits.elim | exact iff_of_false id Bool.false_ne_true

/-- What is left of the tree of a line or a command can be called exactly if the derivation
says so. -/
theorem extracts_iff {symbol : Nonterminal} (derivation : Derivation symbol)
    (command : symbol.HasShape) {parser after : Parser} {tree : Tree}
    (returned : action id derivation parser = .returns tree after) (nonnull : tree ≠ null)
    (bindings : List (Text × List Value)) :
    Extracts (extractPrefixes (unlist tree) bindings) ↔ derivation.runs = true := by
  have shows := shows_of_returns derivation command returned
  induction derivation generalizing parser after tree bindings with
  | esNl line ih | esEndfile line ih =>
    obtain ⟨t, _, isLine, rest⟩ := returns_of_bind returned
    obtain ⟨_, _, -, made⟩ := returns_of_bind rest
    obtain rfl := eq_of_pure made
    exact ih trivial isLine nonnull bindings shows
  | lineCmd cmd ih | cmdsaSemicolon cmd ih => exact ih trivial returned nonnull bindings shows
  | lineCmdsa cmdsa line ih ih' =>
    obtain ⟨t, _, first, rest⟩ := returns_of_bind returned
    obtain ⟨u, _, second, made⟩ := returns_of_bind rest
    have isFirst := shows_of_returns cmdsa trivial first
    have isSecond := shows_of_returns line trivial second
    have sequenced := eq_of_check made
    change (cmdsa.shape.sequence line.shape).Shows tree at shows
    rw [Derivation.runs]
    unfold Shape.sequence at shows
    by_cases empty : cmdsa.shape = .nothing
    · rw [if_pos empty] at shows ⊢
      rw [mkseq, if_pos ⟨rfl, isFirst.nothing_iff.mp empty⟩] at sequenced
      obtain rfl := Option.some.inj sequenced
      exact ih' trivial second nonnull bindings shows
    · rw [if_neg empty] at shows ⊢
      have nonnull' : t ≠ null := fun null => empty (isFirst.nothing_iff.mpr null)
      by_cases empty' : line.shape = .nothing
      · rw [if_pos empty'] at shows ⊢
        rw [mkseq, if_neg fun null => nonnull' null.2,
          if_pos ⟨rfl, isSecond.nothing_iff.mp empty'⟩] at sequenced
        obtain rfl := Option.some.inj sequenced
        exact ih trivial first nonnull bindings shows
      · rw [if_neg empty'] at shows ⊢
        exact extracts_shape shows nonnull (Shape.joined_ne_closure _ _ _) bindings
  | cmdBinder binder _ bindings' _ cmd ih ih' =>
    cases binder with
    | nClosure =>
      obtain ⟨p, _, first, rest⟩ := returns_of_bind returned
      obtain ⟨q, _, second, made⟩ := returns_of_bind rest
      obtain rfl := eq_of_pure made
      obtain ⟨l, rfl, comes⟩ := bindings_verdict first
      have isCmd := shows_of_returns cmd trivial second
      have onward : ∀ bindings, Extracts (extractPrefixes (unlist q) bindings) ↔
          (cmd.shape ≠ .nothing ∧ cmd.runs = true) := by
        intro bindings
        by_cases empty : q = null
        · rw [empty]
          exact iff_of_false id fun both => both.1 (isCmd.nothing_iff.mpr empty)
        · refine (ih' trivial second empty bindings isCmd).trans ?_
          exact (and_iff_right fun nothing => empty (isCmd.nothing_iff.mp nothing)).symm
      refine (extracts_closure (comes bindings) onward).trans ?_
      rw [Derivation.runs]
      cases bindings'.verdict <;> simp [Verdict.Allows]
    | nLocal | nLet | nFor => exact extracts_shape shows nonnull (by rintro ⟨⟩) bindings
  | cmdSimple simple ih =>
    refine extracts_shape shows nonnull ?_ bindings
    rw [Derivation.shape]
    split
    · rintro ⟨⟩
    · exact Shape.ofPieces_ne_closure _
  | cmdAndand left _ right ih ih' | cmdOror left _ right ih ih' =>
    exact extracts_shape shows nonnull (Shape.joined_ne_closure _ _ _) bindings
  | _ => first | exact command.elim | exact extracts_shape shows nonnull (by rintro ⟨⟩) bindings

end Returned

/-! ### Strings -/

/-- The parser accepts the string: its actions return a tree, no error is recorded, and nothing of
the string is left. -/
def Accepts (picked : Picked) (counter : Nat) : Prop :=
  ∃ tree parser, action id picked.derivation (Parser.start picked.texts counter) =
    .returns tree parser ∧ parser.error = none ∧ picked.more = []

/-- A string that does not look like code, or the parser does not accept, or whose command can be
called; and no assertion of the parser fails. -/
def RunsAsCode (s : Text) (picked : Option Picked) (counter : Nat) : Prop :=
  closureText s = true → ∀ choice ∈ picked,
    ¬ComesToFatal choice.derivation.events (Parser.start choice.texts counter) ∧
      (Accepts choice counter →
        choice.derivation.shape = .nothing ∨ choice.derivation.runs = true)

theorem ofTree_handled (tree : Tree) :
    (Made.ofTree tree).Handled ↔ Extracts (extractbindings tree) := by
  unfold Made.ofTree
  split
  · rename_i same
    rw [same]
    exact Iff.rfl
  · rename_i same
    rw [same]
    exact Iff.rfl
  · rename_i same
    rw [same]
    exact Iff.rfl

theorem getclosure_handled (s : Text) (picked : Option Picked) (counter : Nat) :
    (getclosure s picked counter).Handled ↔ RunsAsCode s picked counter := by
  unfold getclosure RunsAsCode
  by_cases code : closureText s = true
  case neg =>
    rw [if_neg code]
    exact iff_of_true trivial fun isCode => absurd isCode code
  rw [if_pos code]
  cases picked with
  | none => exact iff_of_true trivial fun _ _ => nofun
  | some choice =>
    obtain ⟨derivation, texts, more⟩ := choice
    have mild := action_assertion_iff derivation texts counter
    have simplified : ∀ {single : Picked → Prop} {choice : Picked},
        (closureText s = true → ∀ other ∈ some choice, single other) ↔ single choice :=
      ⟨fun all => all code _ rfl, fun holds _ _ same => Option.some.inj same ▸ holds⟩
    rw [simplified]
    dsimp only
    cases returned : action id derivation (Parser.start texts counter) with
    | assertion =>
      rw [returned] at mild
      exact iff_of_false id fun both => mild.mpr both.1 rfl
    | yyabort parser =>
      rw [returned] at mild
      refine iff_of_true trivial ⟨mild.mp nofun, ?_⟩
      rintro ⟨_, _, same, -⟩
      cases returned.symm.trans same
    | returns tree parser =>
      rw [returned] at mild
      rw [and_iff_right (mild.mp nofun)]
      dsimp only
      by_cases failed : parser.error ≠ none ∨ more ≠ []
      · rw [if_pos failed]
        refine iff_of_true trivial ?_
        rintro ⟨_, _, same, noError, all⟩
        obtain ⟨-, rfl⟩ := Parsed.returns.inj (returned.symm.trans same)
        exact failed.elim (absurd noError) (absurd all)
      · rw [if_neg failed]
        rw [not_or, not_not, not_not] at failed
        have accepts : Accepts ⟨derivation, texts, more⟩ counter :=
          ⟨tree, parser, returned, failed⟩
        have shows := shows_of_returns derivation trivial returned
        by_cases empty : tree = null
        · rw [if_pos empty]
          exact iff_of_true trivial fun _ => .inl (shows.nothing_iff.mpr empty)
        · rw [if_neg empty, ofTree_handled]
          refine (extracts_iff derivation trivial returned empty []).trans ?_
          refine ⟨fun runs _ => .inr runs, fun holds => (holds accepts).resolve_left ?_⟩
          exact fun nothing => empty (shows.nothing_iff.mp nothing)

/-! ### The loop of `eval` -/

namespace Services

variable {State Exception : Type}

/-- `getclosure` makes of string terms what the model says, for what the parser picks and the
counter of `mkredir` in each state. A closure term has its closure already. -/
structure Closes (services : Services State TermCell BindingRef Exception)
    (picked : State → Text → Option Picked) (counter : State → Nat) : Prop where
  string : ∀ s state tree context later,
    services.getclosure (.str s) state = .ok (some (tree, context)) later →
      ∃ bindings, Desh.getclosure s (picked state s) (counter state) = .closure bindings tree
  closure : ∀ tree context state,
    services.getclosure (.closure tree context) state = .ok (some (tree, context)) state

/-- A string that `getclosure` makes nothing wrong of, or a closure that can be called. -/
def HeadRuns (picked : State → Text → Option Picked) (counter : State → Nat) (state : State) :
    TermCell → Prop
  | .str s => RunsAsCode s (picked state s) (counter state)
  | .closure tree _ => tree.Runnable

/-- The head of the list is a closure that the `switch` of `eval` has no case for. -/
def Panics {Term Binding : Type} (services : Services State Term Binding Exception)
    (list : List Term) (state : State) : Prop :=
  ∃ term next tree context later, list = term :: next ∧
    services.getclosure term state = .ok (some (tree, context)) later ∧ ¬tree.Runnable

/-- The `switch` panics, or follows a null pointer, exactly for these closures. -/
theorem callClosure_of_not_runnable {Term Binding : Type}
    (services : Services State Term Binding Exception) {tree : Tree} (other : ¬tree.Runnable)
    (context : List Binding) (funcname : Option Text) :
    services.callClosure tree context funcname = throw (if tree = null then services.abort else
      services.panic (lit "eval: bad closure node kind " ++ decimalDigits tree.kind)) := by
  cases tree <;> first | exact absurd trivial other | rfl

end Services

open Derivation in
/-- A word, the only one of a command. -/
def wordCommand (str : Text) (plain : '$'.toUInt8 ∉ str) : Derivation .cmd :=
  cmdSimple (simpleFirst (firstComword (comwordParam (paramWord str plain))))

open Derivation in
/-- The string `@ {echo} {b}`. -/
def quotedPicked : Picked where
  derivation := esEndfile (lineCmd (cmdSimple (simpleWord
    (simpleFirst (firstComword (comwordLambda paramsNil
      (bodyCmd (wordCommand (lit "echo") plain_echo)))))
    (wordSword (swordComword (comwordBody
      (bodyCmd (wordCommand (lit "b") plain_b))))))))
  texts := []
  more := []

/-- The word `%closurefoo`, of which only the start looks like code. -/
def strayPicked : Picked :=
  ⟨.esEndfile (.lineCmd (wordCommand (lit "%closurefoo") (by decide +kernel))), [], []⟩

open Derivation in
/-- The string `%closure()`, without a command. -/
def barePicked : Picked :=
  ⟨esEndfile (lineCmd (cmdBinder .nClosure 0 (bindingsBinding bindingEmpty) 0 cmdEmpty)), [], []⟩

namespace Services

theorem getclosure_quoted :
    Desh.getclosure quotedText (some quotedPicked) 0 = .closure [] quotedTree := by
  decide +kernel

theorem closes_quotedCall : quotedCall.Closes (fun _ _ => some quotedPicked) fun _ => 0 where
  string s state tree context later made := by
    by_cases same : s = quotedText
    · subst same
      have reads : quotedCall.getclosure (.str quotedText) state =
          .ok (some (quotedTree, [])) state := rfl
      cases reads.symm.trans made
      exact ⟨[], getclosure_quoted⟩
    · have reads : quotedCall.getclosure (.str s) state = .ok none state := by
        show EStateM.Result.ok (Option.map _ (readsClosure _ s)) state = _
        rw [readsClosure, if_neg same, Option.bind_none, ite_self]
        rfl
      cases reads.symm.trans made
  closure _ _ _ := rfl

/-- The lists `eval` comes to from `'@ {echo} {b}'`. -/
theorem reached_quotedCall {words : List (List TermCell)} {list : List TermCell}
    {funcname : Option Text} {state : Unit}
    (reached : quotedCall.Reached [] [.str quotedText] () words list funcname state) :
    list = [.str quotedText] ∨ list = quotedWords ++ quotedWords.tail := by
  induction reached with
  | start => exact .inl rfl
  | restart before round same =>
    rename_i words fn list next funcname name state later
    rcases same with rfl | rfl
    · have restarts : quotedCall.round [] [.str quotedText] funcname state =
          .ok (.restart quotedWords (quotedWords ++ quotedWords.tail) funcname) state := rfl
      cases restarts.symm.trans round
      exact .inr rfl
    · cases round

end Services

end Desh
