/-
This file says what the command of a line is: no word, one word, several, a
`%closure`, or another node. The word itself is a literal, a primitive, a block
or something else. Both can be read off the derivation (`shape`, `piece`), and
the tree that the actions build is of this shape (`shows_of_returns`).
-/

import Desh.Parsing

namespace Desh

open Desh.Tree

/-! ### Words -/

/-- What matters about the tree of a word. `code` is a block, a lambda or a list. -/
inductive Piece where
  | nothing
  | word (s : Text)
  | qword (s : Text)
  | prim (s : Text)
  | code
  | other
  deriving DecidableEq

namespace Piece

/-- The trees of a piece. -/
def Fits : Piece → Tree → Prop
  | nothing, t => t = null
  | word s, t => t = nWord s
  | qword s, t => t = nQword s
  | prim s, t => t = nPrim s
  | code, t =>
      match t with
      | nThunk _ | nLambda _ _ | nList _ _ => True
      | _ => False
  | other, t =>
      match t with
      | nConcat _ _ | nVar _ | nVarsub _ _ | nCall _ => True
      | _ => False

/-- Can a command that is this word alone be called? -/
def runs : Piece → Bool
  | prim _ | code => true
  | _ => false

/-- The words of a list of commands, where nothing is not kept. -/
def kept (piece : Piece) : List Piece := if piece = nothing then [] else [piece]

end Piece

namespace Derivation

/-- The piece of a word. -/
def piece : {symbol : Nonterminal} → Derivation symbol → Piece
  | _, wordSword sword => piece sword
  | _, firstComword comword => piece comword
  | _, swordComword comword => piece comword
  | _, swordKeyword keyword => .word keyword.word
  | _, comwordParam param => piece param
  | _, comwordNlwords nlwords => if nlwords.form = .null then .nothing else .code
  | _, comwordBody _ | _, comwordLambda _ _ => .code
  | _, comwordPrim s => .prim s
  | _, paramWord s _ => .word s
  | _, paramQword s => .qword s
  | _, _ => .other

/-- The pieces of a simple command, or of the words of an assignment. -/
def pieces : {symbol : Nonterminal} → Derivation symbol → List Piece
  | _, simpleFirst first => first.piece.kept
  | _, simpleWord simple word => pieces simple ++ word.piece.kept
  | _, wordsWord words word => pieces words ++ [word.piece]
  | _, _ => []

end Derivation

/-! ### Commands -/

/-- What matters about the tree of a command: it is null, a list of one word, a longer list, a
`%closure`, or another node. -/
inductive Shape where
  | nothing
  | lone (piece : Piece)
  | many
  | closure
  | node
  deriving DecidableEq

namespace Shape

/-- The trees of a shape. -/
def Shows : Shape → Tree → Prop
  | nothing, t => t = null
  | lone piece, t => ∃ e, t = ofList [e] ∧ piece.Fits e ∧ e ≠ null
  | many, t => ∃ first second rest, t = nList first (nList second rest)
  | closure, t => ∃ p q, t = nClosure p q
  | node, t =>
      match t with
      | nAssign _ _ | nFor _ _ | nLet _ _ | nLocal _ _ | nMatch _ _ | nExtract _ _ => True
      | _ => False

def ofPieces : List Piece → Shape
  | [] => nothing
  | [piece] => lone piece
  | _ => many

/-- Two commands under an operator. Only where both are the word of the operator alone, it stays
alone. -/
def joined (op : Text) (first second : Shape) : Shape :=
  if first = lone (.word op) ∧ second = lone (.word op) then lone (.word op) else many

/-- Two commands in a row. -/
def sequence (first second : Shape) : Shape :=
  if first = nothing then second
  else if second = nothing then first
  else joined (lit "%seq") first second

/-- Can a command of the shape be called? -/
def runs : Shape → Bool
  | lone piece => piece.runs
  | many => true
  | nothing | closure | node => false

end Shape

/-- The shape of a command, or of a line of commands. -/
def Derivation.shape : {symbol : Nonterminal} → Derivation symbol → Shape
  | _, esNl line | _, esEndfile line => shape line
  | _, lineCmd cmd => shape cmd
  | _, lineCmdsa cmdsa line => (shape cmdsa).sequence (shape line)
  | _, cmdsaSemicolon cmd => shape cmd
  | _, cmdEmpty => .nothing
  | _, cmdSimple simple => if simple.isRedirected then .many else .ofPieces simple.pieces
  | _, cmdAndand left _ right => .joined (lit "%and") (shape left) (shape right)
  | _, cmdOror left _ right => .joined (lit "%or") (shape left) (shape right)
  | _, cmdBinder .nClosure _ _ _ _ => .closure
  | _, cmdBinder _ _ _ _ _ | _, cmdAssign _ _ | _, cmdFn _ | _, cmdMatch _ _
  | _, cmdExtract _ _ | _, cmdRelop _ _ _ => .node
  | _, _ => .many

/-! ### Actions that return -/

section Returned

variable {parser after : Parser}

theorem returns_of_bind {Value Result : Type} {first : Parse Value} {next : Value → Parse Result}
    {result : Result} (returned : (first >>= next) parser = .returns result after) :
    ∃ value middle, first parser = .returns value middle ∧
      next value middle = .returns result after := by
  rw [Parse.bind_apply] at returned
  cases done : first parser with
  | returns value middle =>
    rw [done] at returned
    exact ⟨value, middle, rfl, returned⟩
  | yyabort _ | assertion =>
    rw [done] at returned
    cases returned

theorem bind_of_returns {Value Result : Type} {first : Parse Value} {next : Value → Parse Result}
    {value : Value} {parser middle : Parser} (returned : first parser = .returns value middle) :
    (first >>= next) parser = next value middle := by
  rw [Parse.bind_apply, returned]
  rfl

theorem eq_of_pure {Value : Type} {value result : Value}
    (returned : (pure value : Parse Value) parser = .returns result after) : value = result :=
  (Parsed.returns.inj returned).1

theorem eq_of_check {Value : Type} {value : Option Value} {result : Value}
    (returned : Parse.check value parser = .returns result after) : value = some result := by
  cases value with
  | none => cases returned
  | some value => rw [eq_of_pure returned]

theorem builds_of_returns {symbol : Nonterminal} {derivation : Derivation symbol} {tree : Tree}
    (returned : action id derivation parser = .returns tree after) : Builds derivation tree := by
  have alike := action_simulates id derivation parser parser rfl
  rw [returned] at alike
  generalize performs id derivation.events parser = performed at alike
  cases alike with
  | returns fit _ => exact fit

/-! ### The pieces of words -/

theorem thunkify_code {tree thunk : Tree} (made : thunkify tree = some thunk) :
    Piece.code.Fits thunk := by
  unfold thunkify at made
  split at made <;> first | cases made; trivial | cases made

theorem fits_param {derivation : Derivation .param} {tree : Tree}
    (returned : action id derivation parser = .returns tree after) :
    derivation.piece.Fits tree := by
  cases derivation with
  | paramWord str => exact (eq_of_pure returned).symm
  | paramQword str => exact (eq_of_pure returned).symm

theorem fits_comword {derivation : Derivation .comword} {tree : Tree}
    (returned : action id derivation parser = .returns tree after) :
    derivation.piece.Fits tree := by
  cases derivation with
  | comwordParam param => exact fits_param returned
  | comwordNlwords nlwords =>
    obtain ⟨⟨word, fits⟩, l, rfl⟩ := @builds_of_returns _ _ _ nlwords _ returned
    change (if nlwords.form = .null then Piece.nothing else .code).Fits (ofList l)
    by_cases empty : nlwords.form = .null
    · rw [if_pos empty]
      rw [empty] at fits
      exact fits
    · rw [if_neg empty]
      cases l with
      | nil =>
        generalize nlwords.form = form at word fits empty
        cases form <;> first | exact absurd rfl empty | exact word.elim | exact fits.elim | skip
        · obtain ⟨same, _, isWord | isWord⟩ := fits <;> rw [isWord] at same <;> cases same
        · obtain ⟨_, same⟩ := fits
          cases same
      | cons head rest => trivial
  | comwordBody body =>
    obtain ⟨_, _, -, made⟩ := returns_of_bind returned
    exact thunkify_code (eq_of_check made)
  | comwordLambda params body =>
    obtain ⟨_, _, -, rest⟩ := returns_of_bind returned
    obtain ⟨_, _, -, made⟩ := returns_of_bind rest
    rw [← eq_of_pure made]
    trivial
  | comwordVarsub sword words =>
    obtain ⟨_, _, -, rest⟩ := returns_of_bind returned
    obtain ⟨_, _, -, made⟩ := returns_of_bind rest
    rw [← eq_of_pure made]
    trivial
  | comwordBackback word sword =>
    obtain ⟨_, _, -, rest⟩ := returns_of_bind returned
    obtain ⟨_, _, -, made⟩ := returns_of_bind rest
    rw [← eq_of_pure made]
    trivial
  | comwordVar sword | comwordCall sword | comwordCount sword | comwordFlat sword
  | comwordBackquote sword =>
    obtain ⟨_, _, -, made⟩ := returns_of_bind returned
    rw [← eq_of_pure made]
    trivial
  | comwordPrim str => exact (eq_of_pure returned).symm

theorem fits_sword {derivation : Derivation .sword} {tree : Tree}
    (returned : action id derivation parser = .returns tree after) :
    derivation.piece.Fits tree := by
  cases derivation with
  | swordComword comword => exact fits_comword returned
  | swordKeyword keyword => exact (eq_of_pure returned).symm

/-- Two words joined by a caret. -/
theorem fits_caret {Left Right : Nonterminal} {left : Derivation Left} {right : Derivation Right}
    {tree : Tree}
    (returned : (do
      let left ← action id left
      let right ← action id right
      pure (nConcat left right) : Parse Tree) parser = .returns tree after) :
    Piece.other.Fits tree := by
  obtain ⟨_, _, -, rest⟩ := returns_of_bind returned
  obtain ⟨_, _, -, made⟩ := returns_of_bind rest
  rw [← eq_of_pure made]
  trivial

theorem fits_word {derivation : Derivation .word} {tree : Tree}
    (returned : action id derivation parser = .returns tree after) :
    derivation.piece.Fits tree := by
  cases derivation with
  | wordSword sword => exact fits_sword returned
  | wordCaret word nl sword => exact fits_caret returned

theorem fits_first {derivation : Derivation .first} {tree : Tree}
    (returned : action id derivation parser = .returns tree after) :
    derivation.piece.Fits tree := by
  cases derivation with
  | firstComword comword => exact fits_comword returned
  | firstCaret first nl sword => exact fits_caret returned

/-! ### The shapes of commands -/

/-- One more word of a list of commands. -/
theorem kept_fits {piece : Piece} {tree : Tree} (fits : piece.Fits tree) :
    List.Forall₂ Piece.Fits piece.kept (if tree = null then [] else [tree]) := by
  by_cases empty : piece = .nothing
  · subst empty
    rw [if_pos (show tree = null from fits)]
    exact .nil
  · have nonnull : tree ≠ null := by
      rintro rfl
      cases piece <;> first | exact empty rfl | exact fits.elim | cases fits
    rw [Piece.kept, if_neg empty, if_neg nonnull]
    exact .cons fits .nil

theorem simple_pieces : ∀ {derivation : Derivation .simple} {parser after : Parser} {tree : Tree},
    derivation.isRedirected = false →
      action id derivation parser = .returns tree after →
        ∃ l, tree = ofList l ∧ List.Forall₂ Piece.Fits derivation.pieces l ∧ null ∉ l
  | .simpleFirst first, _, _, tree, _, returned => by
    obtain ⟨given, _, isFirst, made⟩ := returns_of_bind returned
    obtain rfl := Option.some.inj ((treecons2_null given).symm.trans (eq_of_check made))
    refine ⟨_, rfl, kept_fits (fits_first isFirst), ?_⟩
    split
    · exact List.not_mem_nil
    · rename_i nonnull
      exact fun member => nonnull (List.mem_singleton.mp member).symm
  | .simpleWord simple word, _, _, tree, bare, returned => by
    obtain ⟨given, _, isSimple, rest⟩ := returns_of_bind returned
    obtain ⟨last, _, isWord, made⟩ := returns_of_bind rest
    obtain ⟨l, rfl, fits, nonnull⟩ :=
      simple_pieces (show simple.isRedirected = false from bare) isSimple
    obtain rfl := Option.some.inj ((treeconsend2_ofList l last).symm.trans (eq_of_check made))
    have more : List.Forall₂ Piece.Fits (simple.pieces ++ word.piece.kept)
        (l ++ if last = null then [] else [last]) :=
      List.rel_append fits (kept_fits (fits_word isWord))
    by_cases empty : last = null
    · rw [if_pos empty, List.append_nil] at more
      rw [if_pos empty]
      exact ⟨l, rfl, more, nonnull⟩
    · rw [if_neg empty] at more ⊢
      refine ⟨_, rfl, more, ?_⟩
      simp [nonnull, Ne.symm empty]

theorem words_pieces : ∀ {derivation : Derivation .words} {parser after : Parser} {tree : Tree},
    action id derivation parser = .returns tree after →
      ∃ l, tree = ofList l ∧ List.Forall₂ Piece.Fits derivation.pieces l
  | .wordsNil, _, _, tree, returned => ⟨[], (eq_of_pure returned).symm, .nil⟩
  | .wordsWord words word, _, _, tree, returned => by
    obtain ⟨given, _, isWords, rest⟩ := returns_of_bind returned
    obtain ⟨last, _, isWord, made⟩ := returns_of_bind rest
    obtain ⟨l, rfl, fits⟩ := words_pieces isWords
    obtain rfl := Option.some.inj ((treeconsend_ofList l last).symm.trans (eq_of_check made))
    exact ⟨_, rfl, List.rel_append fits (.cons (fits_word isWord) .nil)⟩

theorem shows_ofPieces {pieces : List Piece} {l : List Tree}
    (fits : List.Forall₂ Piece.Fits pieces l) (nonnull : null ∉ l) :
    (Shape.ofPieces pieces).Shows (ofList l) := by
  cases fits with
  | nil => rfl
  | cons first rest =>
    rw [List.mem_cons, not_or] at nonnull
    cases rest with
    | nil => exact ⟨_, rfl, first, Ne.symm nonnull.1⟩
    | cons second others => exact ⟨_, _, _, rfl⟩

theorem fillPlaceholder_many (t : Tree) (s : Text) (second rest : Tree) :
    Shape.many.Shows (fillPlaceholder t (nList (nWord s) (nList second rest))) := by
  have filled : ∃ third others, fillPlaceholder t (nList second rest) = nList third others := by
    by_cases found : second = placeholder
    · rw [found]
      exact ⟨_, _, rfl⟩
    · rw [fillPlaceholder]
      · exact ⟨_, _, rfl⟩
      · exact found
  obtain ⟨third, others, same⟩ := filled
  exact ⟨nWord s, third, others, congrArg (nList (nWord s)) same⟩

/-- A command whose name is followed by something. -/
def Several (t : Tree) : Prop := ∃ s second rest, t = nList (nWord s) (nList second rest)

theorem several_of_marks {marking : Marking} {r : Tree} (mark : marking.Marks r) :
    Several r ∧ ∃ s args, r = ofList (nWord s :: args ++ [placeholder]) := by
  cases marking with
  | plain =>
    obtain ⟨s, args, rfl, -⟩ := mark
    exact ⟨by cases args <;> exact ⟨_, _, _, rfl⟩, s, args, rfl⟩
  | literal eof =>
    obtain ⟨fd, rfl, -⟩ := mark
    exact ⟨⟨_, _, _, rfl⟩, _, [fd, eof], rfl⟩
  | missing =>
    obtain ⟨fd, rfl⟩ := mark
    exact ⟨⟨_, _, _, rfl⟩, _, [fd, null], rfl⟩
  | refused =>
    obtain ⟨fd, eof, rfl, -⟩ := mark
    exact ⟨⟨_, _, _, rfl⟩, _, [fd, eof], rfl⟩

theorem several_of_queueheredoc {t r : Tree}
    (returned : queueheredoc t parser = .returns (some r) after) : Several r := by
  unfold queueheredoc at returned
  split at returned
  · rename_i s fd eof rest
    split at returned
    · cases returned
    · cases eof <;> cases returned <;> exact ⟨_, _, _, rfl⟩
  · cases returned

/-- The command of a redirection has at least its name and the command it applies to. -/
theorem many_of_redirectMany {n : Nat} {marking : Marking} {r t tree : Tree}
    (mark : marking.Marks r)
    (returned : redirectMany (n + 1) (nRedir r t) parser = .returns (some tree) after) :
    Shape.many.Shows tree := by
  obtain ⟨several, s, args, rfl⟩ := several_of_marks mark
  rw [redirectMany_command] at returned
  obtain ⟨queued, middle, isQueued, returned⟩ := returns_of_bind returned
  cases queued with
  | none => cases eq_of_pure returned
  | some r =>
    have several' : Several r := by
      split at isQueued
      · exact several_of_queueheredoc isQueued
      · rw [← Option.some.inj (eq_of_pure isQueued)]
        exact several
    obtain ⟨s, second, rest, rfl⟩ := several'
    obtain ⟨inner, _, -, returned⟩ := returns_of_bind returned
    obtain ⟨thunk, _, -, returned⟩ := returns_of_bind returned
    rw [← Option.some.inj (eq_of_pure returned)]
    exact fillPlaceholder_many _ _ _ _

theorem many_of_redirected {n : Nat} {marking : Marking} {r t tree : Tree}
    (mark : marking.Marks r) (count : redirections t = n)
    (returned : redirected (nRedir r t) parser = .returns tree after) :
    Shape.many.Shows tree := by
  obtain ⟨redirect, middle, isRedirect, returned⟩ := returns_of_bind returned
  cases redirect with
  | none => cases returned
  | some t' =>
    obtain rfl := eq_of_pure returned
    rw [Desh.redirect, redirections, count] at isRedirect
    exact many_of_redirectMany mark isRedirect

/-- A simple command with redirections. -/
theorem many_of_simple {derivation : Derivation .simple} {t tree : Tree}
    (builds : Builds derivation t) (redirects : derivation.isRedirected = true)
    (returned : redirected t parser = .returns tree after) : Shape.many.Shows tree := by
  obtain ⟨redirs, l, rfl, -, -, marks, bare⟩ := builds
  generalize derivation.markings = markings at marks bare
  cases marks with
  | nil =>
    rw [bare.mpr rfl] at redirects
    cases redirects
  | cons mark marks => exact many_of_redirected mark rfl returned

/-- A redirection in front of a command. -/
theorem many_of_cmdRedir {redir : Derivation .redir} {cmd : Derivation .cmd} {r t tree : Tree}
    (builds : Builds redir r) (builds' : Builds cmd t)
    (returned : redirected (nRedir r t) parser = .returns tree after) :
    Shape.many.Shows tree := by
  obtain ⟨r, mark, same⟩ := builds
  obtain ⟨isCmd, fits⟩ := builds'
  by_cases thunk : redir.form = .thunk
  · rw [if_pos thunk] at same
    obtain ⟨var, rfl⟩ := same
    obtain ⟨-, l, rfl, nonnull⟩ | ⟨-, node⟩ := fits.cases isCmd
    · have longer : redirections (ofList (l ++ [nVar var])) = 0 := by
        cases l <;> rfl
      rw [redirected_word (treeappend_ofList l [nVar var]) (redirections_of_fits isCmd fits)
        longer] at returned
      exact many_of_redirected mark rfl returned
    · rw [redirected_node node] at returned
      cases returned
  · rw [if_neg thunk] at same
    rw [same] at returned
    exact many_of_redirected mark rfl returned

/-! ### Commands under an operator -/

/-- A command that starts with the word of an operator, and is not this word alone. -/
theorem eq_lone {shape : Shape} {op : Text} (shows : shape.Shows (ofList [nWord op])) :
    shape = .lone (.word op) := by
  cases shape with
  | nothing => cases shows
  | lone piece =>
    obtain ⟨e, same, fits, -⟩ := shows
    obtain ⟨rfl, -⟩ := Tree.nList.inj same
    cases piece <;> first | cases fits; rfl | exact fits.elim | cases fits
  | many =>
    obtain ⟨_, _, _, same⟩ := shows
    cases same
  | closure =>
    obtain ⟨_, _, same⟩ := shows
    cases same
  | node => exact shows.elim

theorem eq_of_lone {op : Text} {t : Tree} (shows : (Shape.lone (.word op)).Shows t) :
    t = ofList [nWord op] := by
  obtain ⟨_, rfl, rfl, -⟩ := shows
  rfl

/-- `mkseq` keeps the word of an operator alone only where there is nothing else. -/
theorem mkseq_cases {op : Text} {t u tree : Tree} {form form' : Form} (cmd : form.IsCmd)
    (fits : form.Fits t) (cmd' : form'.IsCmd) (fits' : form'.Fits u)
    (both : op ≠ lit "%seq" ∨ t ≠ null ∧ u ≠ null) (made : mkseq op t u = some tree) :
    (t = ofList [nWord op] ∧ u = ofList [nWord op] ∧ tree = ofList [nWord op]) ∨
      ¬(t = ofList [nWord op] ∧ u = ofList [nWord op]) ∧ Shape.many.Shows tree := by
  unfold mkseq at made
  rw [if_neg fun null => both.elim (absurd null.1) fun other => other.1 null.2,
    if_neg fun null => both.elim (absurd null.1) fun other => other.2 null.2] at made
  have last : ∃ (l : List Tree) (sametail : Bool), (l = [] ↔ u = ofList [nWord op]) ∧
      (if firstis t op then treeappend t (ofList l)
      else do
        let t ← thunkify t
        if sametail then (treecons t (ofList l)).map (nList (nWord op))
        else (treecons t (ofList l)).bind (prefixed op)) = some tree := by
    dsimp only at made
    split at made
    · rename_i first
      obtain ⟨l, rfl, rest⟩ := cdrOf_of_fits cmd' fits' first
      rw [rest, Option.bind_eq_bind, Option.bind_some] at made
      refine ⟨l, true, ⟨fun empty => by rw [empty], fun same => ?_⟩, made⟩
      exact (List.cons.inj (ofList_injective same)).2
    · rename_i first
      obtain ⟨v, thunk, -⟩ := thunkify_of_fits cmd' fits'
      rw [thunk, Option.bind_eq_bind, Option.bind_some] at made
      refine ⟨[v], false, ⟨nofun, ?_⟩, made⟩
      rintro rfl
      exact absurd (beq_self_eq_true op) first
  clear made
  obtain ⟨l, sametail, alone, made⟩ := last
  split at made
  · rename_i first
    obtain ⟨m, rfl, -⟩ := cdrOf_of_fits cmd fits first
    obtain rfl := Option.some.inj ((treeappend_ofList _ l).symm.trans made)
    have alone' : m = [] ↔ ofList (nWord op :: m) = ofList [nWord op] :=
      ⟨fun empty => by rw [empty], fun same => (List.cons.inj (ofList_injective same)).2⟩
    rw [← alone, ← alone']
    rcases m with _ | ⟨second, m⟩
    · rcases l with _ | ⟨second, l⟩
      · exact .inl ⟨rfl, rfl, rfl⟩
      · exact .inr ⟨nofun, _, _, _, rfl⟩
    · exact .inr ⟨nofun, _, _, _, rfl⟩
  · rename_i first
    refine .inr ⟨?_, ?_⟩
    · rintro ⟨rfl, -⟩
      exact absurd (beq_self_eq_true op) first
    · obtain ⟨x, -, made⟩ := Option.bind_eq_some_iff.mp made
      have cells := treecons_ofList x l
      split at made
      · rw [cells, Option.map_some] at made
        obtain rfl := Option.some.inj made
        exact ⟨_, _, _, rfl⟩
      · rw [cells, Option.bind_some] at made
        obtain rfl := Option.some.inj made
        exact ⟨_, _, _, rfl⟩

/-- Two commands under an operator. -/
theorem shows_joined {first second : Shape} {op : Text} {t u tree : Tree} {form form' : Form}
    (cmd : form.IsCmd) (fits : form.Fits t) (cmd' : form'.IsCmd) (fits' : form'.Fits u)
    (shows : first.Shows t) (shows' : second.Shows u)
    (both : op ≠ lit "%seq" ∨ t ≠ null ∧ u ≠ null) (made : mkseq op t u = some tree) :
    (Shape.joined op first second).Shows tree := by
  rcases mkseq_cases cmd fits cmd' fits' both made with ⟨rfl, rfl, rfl⟩ | ⟨several, many⟩
  · rw [eq_lone shows, eq_lone shows', Shape.joined, if_pos ⟨rfl, rfl⟩]
    exact ⟨_, rfl, rfl, nofun⟩
  · rw [Shape.joined, if_neg]
    · exact many
    · rintro ⟨rfl, rfl⟩
      exact several ⟨eq_of_lone shows, eq_of_lone shows'⟩

theorem Shape.Shows.nothing_iff {shape : Shape} {t : Tree} (shows : shape.Shows t) :
    shape = .nothing ↔ t = null := by
  constructor
  · rintro rfl
    exact shows
  · rintro rfl
    cases shape with
    | nothing => rfl
    | lone piece =>
      obtain ⟨_, same, -⟩ := shows
      cases same
    | many =>
      obtain ⟨_, _, _, same⟩ := shows
      cases same
    | closure =>
      obtain ⟨_, _, same⟩ := shows
      cases same
    | node => exact shows.elim

/-- Two commands in a row. -/
theorem shows_sequence {first second : Shape} {t u tree : Tree} {form form' : Form}
    (cmd : form.IsCmd) (fits : form.Fits t) (cmd' : form'.IsCmd) (fits' : form'.Fits u)
    (shows : first.Shows t) (shows' : second.Shows u)
    (made : mkseq (lit "%seq") t u = some tree) : (first.sequence second).Shows tree := by
  unfold Shape.sequence
  by_cases empty : first = .nothing
  · rw [if_pos empty]
    rw [mkseq, if_pos ⟨rfl, shows.nothing_iff.mp empty⟩] at made
    exact Option.some.inj made ▸ shows'
  · have nonnull : t ≠ null := fun null => empty (shows.nothing_iff.mpr null)
    rw [if_neg empty]
    by_cases empty' : second = .nothing
    · rw [if_pos empty']
      rw [mkseq, if_neg fun null => nonnull null.2,
        if_pos ⟨rfl, shows'.nothing_iff.mp empty'⟩] at made
      exact Option.some.inj made ▸ shows
    · have nonnull' : u ≠ null := fun null => empty' (shows'.nothing_iff.mpr null)
      rw [if_neg empty']
      exact shows_joined cmd fits cmd' fits' shows shows' (.inr ⟨nonnull, nonnull'⟩) made

/-- A pipe has at least the numbers of its descriptors. -/
theorem mkpipe_many {t u tree : Tree} {outfd infd : Int} {form form' : Form} (cmd : form.IsCmd)
    (fits : form.Fits t) (cmd' : form'.IsCmd) (fits' : form'.Fits u)
    (made : mkpipe t outfd infd u = some tree) : Shape.many.Shows tree := by
  have last : ∃ (l : List Tree) (pipetail : Bool), l ≠ [] ∧
      (if firstis t (lit "%pipe") then treeappend t (ofList l)
      else do
        let t ← thunkify t
        if pipetail then (treecons t (ofList l)).map (nList (nWord (lit "%pipe")))
        else (treecons t (ofList l)).bind (prefixed (lit "%pipe"))) = some tree := by
    unfold mkpipe at made
    dsimp only at made
    split at made
    · rename_i first
      obtain ⟨l, rfl, rest⟩ := cdrOf_of_fits cmd' fits' first
      rw [rest, Option.bind_eq_bind, Option.bind_some, prefixed_numbers, Option.bind_some] at made
      exact ⟨_, true, List.cons_ne_nil _ _, made⟩
    · obtain ⟨v, thunk, -⟩ := thunkify_of_fits cmd' fits'
      have cell : treecons v null = some (ofList [v]) := rfl
      rw [thunk, Option.bind_some, cell, Option.bind_eq_bind, Option.bind_some, prefixed_numbers,
        Option.bind_some] at made
      exact ⟨_, false, List.cons_ne_nil _ _, made⟩
  clear made
  obtain ⟨l, pipetail, nonempty, made⟩ := last
  obtain ⟨first, rest, rfl⟩ := List.exists_cons_of_ne_nil nonempty
  split at made
  · rename_i isFirst
    obtain ⟨m, rfl, -⟩ := cdrOf_of_fits cmd fits isFirst
    obtain rfl := Option.some.inj ((treeappend_ofList _ _).symm.trans made)
    cases m <;> exact ⟨_, _, _, rfl⟩
  · obtain ⟨x, -, made⟩ := Option.bind_eq_some_iff.mp made
    have cells := treecons_ofList x (first :: rest)
    split at made
    · rw [cells, Option.map_some] at made
      obtain rfl := Option.some.inj made
      exact ⟨_, _, _, rfl⟩
    · rw [cells, Option.bind_some] at made
      obtain rfl := Option.some.inj made
      exact ⟨_, _, _, rfl⟩

/-! ### The shape of a derivation's tree -/

theorem prefixThunk_many {op : Text} {t tree : Tree}
    (returned : prefixThunk op t parser = .returns tree after) : Shape.many.Shows tree := by
  obtain ⟨thunk, _, -, made⟩ := returns_of_bind returned
  rw [← eq_of_pure made]
  exact ⟨_, _, _, rfl⟩

/-- A function definition is an assignment to a name with a prefix. -/
theorem fn_of_returns {derivation : Derivation .fn} {tree : Tree}
    (returned : action id derivation parser = .returns tree after) :
    ∃ name defn, tree = nAssign (nConcat (nWord (lit "fn-")) name) defn := by
  cases derivation with
  | fnBody word params body =>
    obtain ⟨_, _, -, rest⟩ := returns_of_bind returned
    obtain ⟨_, _, -, rest⟩ := returns_of_bind rest
    obtain ⟨_, _, -, made⟩ := returns_of_bind rest
    exact ⟨_, _, (eq_of_pure made).symm⟩
  | fnWord word =>
    obtain ⟨_, _, -, made⟩ := returns_of_bind returned
    exact ⟨_, _, (eq_of_pure made).symm⟩

/-- The symbols whose tree is a command. -/
def Nonterminal.HasShape : Nonterminal → Prop
  | .es | .line | .cmdsa | .cmd => True
  | _ => False

/-- The tree of a line or a command has the shape read off the derivation. -/
theorem shows_of_returns {symbol : Nonterminal} (derivation : Derivation symbol)
    (command : symbol.HasShape) {parser after : Parser} {tree : Tree}
    (returned : action id derivation parser = .returns tree after) :
    derivation.shape.Shows tree := by
  induction derivation generalizing parser after tree with
  | esNl line ih | esEndfile line ih =>
    obtain ⟨t, _, isLine, rest⟩ := returns_of_bind returned
    obtain ⟨_, _, -, made⟩ := returns_of_bind rest
    rw [← eq_of_pure made]
    exact ih trivial isLine
  | lineCmd cmd ih | cmdsaSemicolon cmd ih => exact ih trivial returned
  | lineCmdsa cmdsa line ih ih' =>
    obtain ⟨t, _, first, rest⟩ := returns_of_bind returned
    obtain ⟨u, _, second, made⟩ := returns_of_bind rest
    obtain ⟨cmd, fits⟩ := builds_of_returns first
    obtain ⟨cmd', fits'⟩ := builds_of_returns second
    exact shows_sequence cmd fits cmd' fits' (ih trivial first) (ih' trivial second)
      (eq_of_check made)
  | cmdsaBackground cmd ih | cmdNot _ cmd ih =>
    obtain ⟨t, _, -, made⟩ := returns_of_bind returned
    exact prefixThunk_many made
  | cmdEmpty => exact (eq_of_pure returned).symm
  | cmdSimple simple ih =>
    obtain ⟨t, _, isSimple, made⟩ := returns_of_bind returned
    have builds := builds_of_returns isSimple
    change (if simple.isRedirected then Shape.many else .ofPieces simple.pieces).Shows tree
    by_cases redirects : simple.isRedirected = true
    · rw [if_pos redirects]
      exact many_of_simple builds redirects made
    · rw [if_neg redirects]
      obtain ⟨l, rfl, fits, nonnull⟩ := simple_pieces (Bool.eq_false_iff.mpr redirects) isSimple
      have bare : redirections (ofList l) = 0 := by cases l <;> rfl
      rw [redirected, redirect, bare] at made
      have same : redirectMany 0 (ofList l) = pure (some (ofList l)) := by cases l <;> rfl
      rw [same] at made
      rw [← @eq_of_pure _ _ _ (ofList l) _ made]
      exact shows_ofPieces fits nonnull
  | cmdRedir redir cmd ih ih' =>
    obtain ⟨t, _, first, rest⟩ := returns_of_bind returned
    obtain ⟨u, _, second, made⟩ := returns_of_bind rest
    exact many_of_cmdRedir (builds_of_returns first) (builds_of_returns second) made
  | cmdAndand left _ right ih ih' | cmdOror left _ right ih ih' =>
    obtain ⟨t, _, first, rest⟩ := returns_of_bind returned
    obtain ⟨u, _, second, made⟩ := returns_of_bind rest
    obtain ⟨cmd, fits⟩ := builds_of_returns first
    obtain ⟨cmd', fits'⟩ := builds_of_returns second
    exact shows_joined cmd fits cmd' fits' (ih trivial first) (ih' trivial second)
      (.inl (by decide)) (eq_of_check made)
  | cmdPipe left outfd infd _ right ih ih' =>
    obtain ⟨t, _, first, rest⟩ := returns_of_bind returned
    obtain ⟨u, _, second, made⟩ := returns_of_bind rest
    obtain ⟨cmd, fits⟩ := builds_of_returns first
    obtain ⟨cmd', fits'⟩ := builds_of_returns second
    exact mkpipe_many cmd fits cmd' fits' (eq_of_check made)
  | cmdBinder binder _ bindings _ cmd ih ih' =>
    obtain ⟨t, _, -, rest⟩ := returns_of_bind returned
    obtain ⟨u, _, -, made⟩ := returns_of_bind rest
    rw [← eq_of_pure made]
    cases binder with
    | nClosure => exact ⟨t, u, rfl⟩
    | nLocal | nLet | nFor => trivial
  | cmdFn fn ih =>
    obtain ⟨name, defn, rfl⟩ := @fn_of_returns _ _ fn _ returned
    trivial
  | cmdAssign left right ih ih' | cmdMatch left right ih ih' | cmdExtract left right ih ih'
  | cmdRelop _ left right ih ih' =>
    obtain ⟨t, _, -, rest⟩ := returns_of_bind returned
    obtain ⟨u, _, -, made⟩ := returns_of_bind rest
    rw [← eq_of_pure made]
    trivial
  | _ => exact command.elim

end Returned

end Desh
