/-
This file says when the text printed for a closure is read back as the same
closure: exactly where every name and every value in its bindings is printed as
one token that the analyzer reads back.

The tables of the parser are generated, so the parser is a parameter which picks
a derivation of the tokens. In front of the first command of each stands the
`%closure` with the bindings, and without it the derivation is one of the body.
-/

import Desh.Prefix

namespace Desh

open Desh.Tree
open Derivation (ok_of_bind)

/-! ### A `%closure` in front of a command -/

open Derivation in
/-- The first derivation is the second one with a `%closure` in front of its first command. -/
inductive Prefixed (nl : Nat) (bindings : Derivation .bindings) (nl' : Nat) :
    {symbol : Nonterminal} → Derivation symbol → Derivation symbol → Prop where
  | binder (cmd : Derivation .cmd) :
      Prefixed nl bindings nl' (cmdBinder .nClosure nl bindings nl' cmd) cmd
  | andand {left left' : Derivation .cmd} (lines : Nat) (right : Derivation .cmd)
      (first : Prefixed nl bindings nl' left left') :
      Prefixed nl bindings nl' (cmdAndand left lines right) (cmdAndand left' lines right)
  | oror {left left' : Derivation .cmd} (lines : Nat) (right : Derivation .cmd)
      (first : Prefixed nl bindings nl' left left') :
      Prefixed nl bindings nl' (cmdOror left lines right) (cmdOror left' lines right)
  | pipe {left left' : Derivation .cmd} (outfd infd : Int) (lines : Nat) (right : Derivation .cmd)
      (first : Prefixed nl bindings nl' left left') :
      Prefixed nl bindings nl' (cmdPipe left outfd infd lines right)
        (cmdPipe left' outfd infd lines right)
  | semicolon {cmd cmd' : Derivation .cmd} (first : Prefixed nl bindings nl' cmd cmd') :
      Prefixed nl bindings nl' (cmdsaSemicolon cmd) (cmdsaSemicolon cmd')
  | background {cmd cmd' : Derivation .cmd} (first : Prefixed nl bindings nl' cmd cmd') :
      Prefixed nl bindings nl' (cmdsaBackground cmd) (cmdsaBackground cmd')
  | lineCmd {cmd cmd' : Derivation .cmd} (first : Prefixed nl bindings nl' cmd cmd') :
      Prefixed nl bindings nl' (lineCmd cmd) (lineCmd cmd')
  | lineCmdsa {cmdsa cmdsa' : Derivation .cmdsa} (line : Derivation .line)
      (first : Prefixed nl bindings nl' cmdsa cmdsa') :
      Prefixed nl bindings nl' (lineCmdsa cmdsa line) (lineCmdsa cmdsa' line)
  | esNl {line line' : Derivation .line} (first : Prefixed nl bindings nl' line line') :
      Prefixed nl bindings nl' (esNl line) (esNl line')
  | esEndfile {line line' : Derivation .line} (first : Prefixed nl bindings nl' line line') :
      Prefixed nl bindings nl' (esEndfile line) (esEndfile line')

/-- A simple command starts with no keyword. -/
theorem starts_simple {symbol : Nonterminal} (derivation : Derivation symbol)
    (simple : symbol = .param ∨ symbol = .comword ∨ symbol = .first ∨ symbol = .simple) :
    ∃ token rest, derivation.items = .shift token :: rest ∧ token ≠ .CLOSURE := by
  induction derivation with
  | comwordParam _ ih | firstComword _ ih | simpleFirst _ ih => exact ih (by simp)
  | firstCaret _ _ _ ih _ | simpleWord _ _ ih _ | simpleRedir _ _ ih _ =>
    obtain ⟨token, rest, same, other⟩ := ih (by simp)
    rw [Derivation.items, same, List.cons_append]
    exact ⟨token, _, rfl, other⟩
  | paramWord | paramQword | comwordNlwords | comwordBody | comwordLambda | comwordVar
  | comwordVarsub | comwordCall | comwordCount | comwordFlat | comwordPrim | comwordBackquote
  | comwordBackback => exact ⟨_, _, rfl, by simp⟩
  | _ => simp at simple

theorem head?_append_of_closure {items others : List Item}
    (starts : (items ++ others).head? = some (.shift .CLOSURE))
    (other : others.head? ≠ some (.shift .CLOSURE)) :
    items.head? = some (.shift .CLOSURE) := by
  cases items with
  | nil => exact absurd starts other
  | cons => exact starts

open Derivation in
/-- A line that starts with the token of `%closure` has one in front of its first command. -/
theorem prefixed_of_starts {symbol : Nonterminal} (derivation : Derivation symbol)
    (command : symbol.HasShape) (starts : derivation.items.head? = some (.shift .CLOSURE)) :
    ∃ nl bindings nl' body, Prefixed nl bindings nl' derivation body := by
  have simple : ∀ {symbol : Nonterminal} (first : Derivation symbol) (others : List Item),
      symbol = .first ∨ symbol = .simple →
        (first.items ++ others).head? ≠ some (.shift .CLOSURE) := by
    intro symbol first others isSimple starts
    obtain ⟨token, rest, same, other⟩ := starts_simple first (.inr (.inr isSimple))
    rw [same] at starts
    exact other (Item.shift.inj (Option.some.inj starts))
  induction derivation with
  | esNl line ih =>
    obtain ⟨nl, bindings, nl', _, first⟩ :=
      ih trivial (head?_append_of_closure starts (by simp))
    exact ⟨nl, bindings, nl', _, first.esNl⟩
  | esEndfile line ih =>
    obtain ⟨nl, bindings, nl', _, first⟩ :=
      ih trivial (head?_append_of_closure starts (by simp))
    exact ⟨nl, bindings, nl', _, first.esEndfile⟩
  | lineCmd cmd ih =>
    obtain ⟨nl, bindings, nl', _, first⟩ := ih trivial starts
    exact ⟨nl, bindings, nl', _, first.lineCmd⟩
  | lineCmdsa cmdsa line ih =>
    have ends : cmdsa.items ≠ [] := by
      cases cmdsa <;> exact List.append_ne_nil_of_right_ne_nil _ (List.cons_ne_nil _ _)
    rw [Derivation.items, List.head?_append_of_ne_nil _ ends] at starts
    obtain ⟨nl, bindings, nl', _, first⟩ := ih trivial starts
    exact ⟨nl, bindings, nl', _, first.lineCmdsa line⟩
  | cmdsaSemicolon cmd ih =>
    obtain ⟨nl, bindings, nl', _, first⟩ :=
      ih trivial (head?_append_of_closure starts (by simp [punctuation]))
    exact ⟨nl, bindings, nl', _, first.semicolon⟩
  | cmdsaBackground cmd ih =>
    obtain ⟨nl, bindings, nl', _, first⟩ :=
      ih trivial (head?_append_of_closure starts (by simp [punctuation]))
    exact ⟨nl, bindings, nl', _, first.background⟩
  | cmdAndand left lines right ih =>
    rw [Derivation.items, List.append_assoc] at starts
    obtain ⟨nl, bindings, nl', _, first⟩ :=
      ih trivial (head?_append_of_closure starts (by simp))
    exact ⟨nl, bindings, nl', _, first.andand lines right⟩
  | cmdOror left lines right ih =>
    rw [Derivation.items, List.append_assoc] at starts
    obtain ⟨nl, bindings, nl', _, first⟩ :=
      ih trivial (head?_append_of_closure starts (by simp))
    exact ⟨nl, bindings, nl', _, first.oror lines right⟩
  | cmdPipe left outfd infd lines right ih =>
    rw [Derivation.items, List.append_assoc] at starts
    obtain ⟨nl, bindings, nl', _, first⟩ :=
      ih trivial (head?_append_of_closure starts (by simp))
    exact ⟨nl, bindings, nl', _, first.pipe outfd infd lines right⟩
  | cmdBinder binder lines bindings lines' cmd =>
    cases binder with
    | nClosure => exact ⟨_, _, _, _, .binder cmd⟩
    | nLocal | nLet | nFor => cases starts
  | cmdSimple first =>
    exact absurd ((congrArg List.head? (List.append_nil _)).trans starts)
      (simple first [] (.inr rfl))
  | cmdAssign first | cmdRelop _ first => exact absurd starts (simple first _ (.inl rfl))
  | cmdRedir redir => cases redir <;> cases starts
  | cmdFn fn => cases fn <;> cases starts
  | cmdEmpty | cmdNot | cmdMatch | cmdExtract => cases starts
  | _ => exact command.elim

theorem Shape.joined_ne_nothing (op : Text) (first second : Shape) :
    Shape.joined op first second ≠ .nothing := by
  unfold Shape.joined
  split <;> nofun

theorem Shape.joined_ne_code (op : Text) (first second : Shape) :
    Shape.joined op first second ≠ .lone .code := by
  unfold Shape.joined
  split <;> nofun

/-! ### Commands that start with a block -/

/-- Do the items start with a block or a lambda? -/
def StartsBlock (items : List Item) : Prop :=
  items.head? = some (punctuation '{') ∨ items.head? = some (punctuation '@')

theorem StartsBlock.of_append {items others : List Item} (block : StartsBlock (items ++ others))
    (other : ¬StartsBlock others) : StartsBlock items := by
  cases items with
  | nil => exact absurd block other
  | cons => exact block

theorem not_startsBlock {token : Token} {items : List Item}
    (other : token ≠ .char '\x7b'.toUInt8 ∧ token ≠ .char '@'.toUInt8) :
    ¬StartsBlock (.shift token :: items) := by
  rintro (same | same)
  · exact other.1 (Item.shift.inj (Option.some.inj same))
  · exact other.2 (Item.shift.inj (Option.some.inj same))

theorem StartsBlock.left {items others : List Item} (block : StartsBlock (items ++ others))
    (nonempty : items ≠ []) : StartsBlock items := by
  unfold StartsBlock at block
  rwa [List.head?_append_of_ne_nil _ nonempty] at block

/-- Only a list in parentheses is no word. -/
theorem items_of_nothing {symbol : Nonterminal} (derivation : Derivation symbol)
    (word : symbol.IsWord) (empty : derivation.piece = .nothing) :
    ¬StartsBlock derivation.items := by
  induction derivation with
  | swordComword _ ih | comwordParam _ ih | wordSword _ ih | firstComword _ ih =>
    exact ih trivial empty
  | comwordNlwords => exact not_startsBlock (by decide)
  | _ => cases empty

theorem items_of_no_pieces : ∀ {derivation : Derivation .simple},
    derivation.isRedirected = false → derivation.pieces = [] → ¬StartsBlock derivation.items
  | .simpleFirst first, _, empty => by
    refine items_of_nothing first trivial ?_
    by_contra nonempty
    rw [Derivation.pieces, Piece.kept, if_neg nonempty] at empty
    cases empty
  | .simpleWord simple word, bare, empty => by
    have before := items_of_no_pieces (show simple.isRedirected = false from bare)
      (List.append_eq_nil_iff.mp empty).1
    obtain ⟨token, rest, same, -⟩ := starts_simple simple (.inr (.inr (.inr rfl)))
    exact fun block => before (block.left (by rw [same]; exact List.cons_ne_nil _ _))

/-- A command that starts with a block is neither empty nor a `%closure`. -/
theorem shape_of_block {symbol : Nonterminal} (derivation : Derivation symbol)
    (command : symbol.HasShape) (block : StartsBlock derivation.items) :
    derivation.shape ≠ .nothing ∧ derivation.shape ≠ .closure := by
  induction derivation with
  | esNl line ih | esEndfile line ih | cmdsaSemicolon cmd ih =>
    exact ih trivial (block.of_append (not_startsBlock (by decide)))
  | lineCmd cmd ih => exact ih trivial block
  | lineCmdsa cmdsa line ih =>
    have ends : cmdsa.items ≠ [] := by
      cases cmdsa <;> exact List.append_ne_nil_of_right_ne_nil _ (List.cons_ne_nil _ _)
    have first := ih trivial (block.left ends)
    show cmdsa.shape.sequence line.shape ≠ .nothing ∧ cmdsa.shape.sequence line.shape ≠ .closure
    rw [Shape.sequence, if_neg first.1]
    split
    · exact first
    · exact ⟨Shape.joined_ne_nothing _ _ _, Shape.joined_ne_closure _ _ _⟩
  | cmdAndand | cmdOror => exact ⟨Shape.joined_ne_nothing _ _ _, Shape.joined_ne_closure _ _ _⟩
  | cmdEmpty => rcases block with same | same <;> cases same
  | cmdSimple simple =>
    show (if simple.isRedirected then Shape.many else .ofPieces simple.pieces) ≠ .nothing ∧
      (if simple.isRedirected then Shape.many else .ofPieces simple.pieces) ≠ .closure
    split
    · exact ⟨nofun, nofun⟩
    · rename_i bare
      refine ⟨fun empty => ?_, Shape.ofPieces_ne_closure _⟩
      refine items_of_no_pieces (Bool.eq_false_iff.mpr bare) ?_ block
      generalize simple.pieces = pieces at empty
      rcases pieces with _ | ⟨_, _ | _⟩ <;> first | rfl | cases empty
  | cmdBinder binder lines bindings lines' cmd =>
    cases binder with
    | nClosure => exact absurd block (not_startsBlock (by decide))
    | nLocal | nLet | nFor => exact ⟨nofun, nofun⟩
  | cmdsaBackground | cmdRedir | cmdAssign | cmdFn | cmdPipe | cmdNot | cmdMatch | cmdExtract
  | cmdRelop => exact ⟨nofun, nofun⟩
  | _ => exact command.elim

namespace Prefixed

section

variable {nl nl' : Nat} {bindings : Derivation .bindings} {symbol : Nonterminal}
  {derivation body : Derivation symbol}

theorem items (isPrefixed : Prefixed nl bindings nl' derivation body) :
    derivation.items = .shift .CLOSURE :: (newlines nl ++ punctuation '(' ::
      (bindings.items ++ punctuation ')' :: (newlines nl' ++ body.items))) := by
  induction isPrefixed with
  | binder cmd => simp [Derivation.items, Binder.token]
  | _ => rename_i ih; simp [Derivation.items, ih]

theorem shape_ne_nothing (isPrefixed : Prefixed nl bindings nl' derivation body) :
    derivation.shape ≠ .nothing := by
  induction isPrefixed with
  | binder | background | pipe => exact nofun
  | andand | oror => exact Shape.joined_ne_nothing _ _ _
  | semicolon _ ih | lineCmd _ ih | esNl _ ih | esEndfile _ ih => exact ih
  | @lineCmdsa cmdsa cmdsa' line _ ih =>
    show cmdsa.shape.sequence line.shape ≠ .nothing
    rw [Shape.sequence, if_neg ih]
    split
    · exact ih
    · exact Shape.joined_ne_nothing _ _ _

/-- The first bindings read are those of the tree, where it is a `%closure`. -/
theorem closure_of_returns {parser after : Parser} {tree : Tree}
    (isPrefixed : Prefixed nl bindings nl' derivation body)
    (returned : action id derivation parser = .returns tree after) :
    derivation.shape ≠ .closure ∨ ∃ p q middle, tree = nClosure p q ∧
      action id bindings parser = .returns p middle := by
  induction isPrefixed generalizing parser after tree with
  | binder cmd =>
    obtain ⟨p, middle, isBindings, rest⟩ := returns_of_bind returned
    obtain ⟨q, _, -, made⟩ := returns_of_bind rest
    exact .inr ⟨p, q, middle, (eq_of_pure made).symm, isBindings⟩
  | andand | oror => exact .inl (Shape.joined_ne_closure _ _ _)
  | pipe | background => exact .inl (by rintro ⟨⟩)
  | semicolon _ ih | lineCmd _ ih => exact ih returned
  | esNl _ ih | esEndfile _ ih =>
    obtain ⟨t, _, isLine, rest⟩ := returns_of_bind returned
    obtain ⟨_, _, -, made⟩ := returns_of_bind rest
    obtain rfl := eq_of_pure made
    exact ih isLine
  | @lineCmdsa cmdsa cmdsa' line first ih =>
    obtain ⟨t, _, isFirst, rest⟩ := returns_of_bind returned
    obtain ⟨u, _, isLine, made⟩ := returns_of_bind rest
    show cmdsa.shape.sequence line.shape ≠ .closure ∨ _
    rw [Shape.sequence, if_neg first.shape_ne_nothing]
    by_cases empty : line.shape = .nothing
    · rw [if_pos empty]
      refine (ih isFirst).imp_right ?_
      rintro ⟨p, q, middle, rfl, isBindings⟩
      have isNull := (shows_of_returns line trivial isLine).nothing_iff.mp empty
      rw [isNull, mkseq, if_neg (by simp), if_pos ⟨rfl, rfl⟩] at made
      exact ⟨p, q, middle, (Option.some.inj (eq_of_check made)).symm, isBindings⟩
    · rw [if_neg empty]
      exact .inl (Shape.joined_ne_closure _ _ _)

/-- A `%closure` in front of a block makes a `%closure` of it. -/
theorem returns {p tree : Tree} {parser after : Parser}
    (isPrefixed : Prefixed nl bindings nl' derivation body)
    (block : StartsBlock body.items) (single : body.shape = .lone .code)
    (isBindings : ∀ parser, action id bindings parser = .returns p parser)
    (returned : action id body parser = .returns tree after) :
    action id derivation parser = .returns (nClosure p tree) after := by
  induction isPrefixed generalizing parser after tree with
  | binder cmd =>
    rw [action, bind_of_returns (isBindings parser), bind_of_returns returned]
    rfl
  | andand | oror => exact absurd single (Shape.joined_ne_code _ _ _)
  | pipe | background => cases single
  | semicolon _ ih =>
    exact ih (block.of_append (not_startsBlock (by decide))) single returned
  | lineCmd _ ih => exact ih block single returned
  | esNl _ ih | esEndfile _ ih =>
    obtain ⟨t, middle, isLine, rest⟩ := returns_of_bind returned
    obtain ⟨_, _, ends, made⟩ := returns_of_bind rest
    obtain rfl := eq_of_pure made
    have block := block.of_append (not_startsBlock (by decide))
    rw [action, bind_of_returns (ih block single isLine), bind_of_returns ends]
    cases made
    rfl
  | @lineCmdsa cmdsa cmdsa' line first ih =>
    obtain ⟨t, _, isFirst, rest⟩ := returns_of_bind returned
    obtain ⟨u, _, isLine, made⟩ := returns_of_bind rest
    have ends : cmdsa'.items ≠ [] := by
      cases cmdsa' <;> exact List.append_ne_nil_of_right_ne_nil _ (List.cons_ne_nil _ _)
    have block := block.left ends
    change cmdsa'.shape.sequence line.shape = _ at single
    rw [Shape.sequence, if_neg (shape_of_block cmdsa' trivial block).1] at single
    by_cases empty : line.shape = .nothing
    · rw [if_pos empty] at single
      obtain rfl := (shows_of_returns line trivial isLine).nothing_iff.mp empty
      have nonnull : t ≠ null := fun null =>
        (shape_of_block cmdsa' trivial block).1
          ((shows_of_returns cmdsa' trivial isFirst).nothing_iff.mpr null)
      rw [action, bind_of_returns (ih block single isFirst), bind_of_returns isLine, mkseq,
        if_neg (by simp), if_pos ⟨rfl, rfl⟩]
      rw [mkseq, if_neg fun both => nonnull both.2, if_pos ⟨rfl, rfl⟩] at made
      cases made
      rfl
    · rw [if_neg empty] at single
      exact absurd single (Shape.joined_ne_code _ _ _)

end

end Prefixed

/-! ### The text of a closure -/

/-- The tokens in front of the bindings of a `%closure`. -/
theorem tokens_closure (rest : Text) :
    (yylex (inityy (lit "%closure(" ++ rest))).1 = .CLOSURE ∧
      (yylex (yylex (inityy (lit "%closure(" ++ rest))).2).1 = .char '('.toUInt8 ∧
        (yylex (yylex (inityy (lit "%closure(" ++ rest))).2).2 = inityy rest := by
  have word : yylex (inityy (lit "%closure(" ++ rest)) =
      (.CLOSURE, reading .keyWord ('('.toUInt8 :: rest)) := by
    obtain ⟨taken, dropped⟩ := @takeWhile_run (fun c => !nonWord c) (lit "closure")
      ('('.toUInt8 :: rest) (by decide +kernel) (by rintro _ ⟨⟩; decide)
    rw [inityy_eq_reading, show lit "%closure(" ++ rest =
      '%'.toUInt8 :: (lit "closure" ++ '('.toUInt8 :: rest) from rfl,
      yylex_word _ _ (by decide), lexWord]
    rw [if_neg (by decide), if_neg (by decide), taken, dropped]
    rfl
  rw [word, yylex_special _ _ rest (by decide) (by decide) (by decide) (by decide)
    (by decide) (.inl rfl)]
  exact ⟨rfl, rfl, rfl⟩

theorem lexes_closure (rest : Text) :
    Lexes (inityy (lit "%closure(" ++ rest)) [.CLOSURE, .char '('.toUInt8] (inityy rest) :=
  tokens_closure rest

theorem yylex_brace (rest : Text) :
    (yylex (inityy ('\x7b'.toUInt8 :: rest))).1 = .char '\x7b'.toUInt8 := by
  rw [inityy_eq_reading, yylex_special _ _ rest (by decide) (by decide) (by decide) (by decide)
    (by decide) (.inr rfl)]
  rfl

theorem yylex_lambda (rest : Text) :
    (yylex (inityy (lit "@ " ++ rest))).1 = .char '@'.toUInt8 := by
  rw [inityy_eq_reading, show lit "@ " ++ rest = '@'.toUInt8 :: ' '.toUInt8 :: rest from rfl,
    yylex_word _ _ (by decide), lexWord]
  rw [if_neg (by decide), if_neg (by decide), List.takeWhile_cons_of_neg (by decide)]
  rfl

/-- The first token is what the parser reads first. -/
theorem Scans.head? {lexer after : Lexer} {items : List Item} {texts : List Text}
    (scans : Scans lexer items texts after) (nonempty : items ≠ []) :
    items.head? = some (.shift (yylex lexer).1) := by
  cases scans with
  | done => exact absurd rfl nonempty
  | shift => rfl
  | reads newline => exact congrArg (some ∘ Item.shift) newline.symm

/-- The parser, which the build generates. What it picks for a text is a derivation of its tokens.
Where a text is a `%closure` with bindings in front of the body, it picks for it the bindings and
behind them what it picks for the body alone. -/
structure Parses (pick : Text → Option Picked) (body text : Text) : Prop where
  derives : ∀ text, ∀ picked ∈ pick text,
    ∃ after, Scans (inityy text) picked.derivation.items picked.texts after
  behind : ∀ picked ∈ pick body, ∀ tokens : List Token,
    (∃ bindings : Derivation .bindings, bindings.items = tokens.map .shift) →
      Lexes (inityy text) (.CLOSURE :: .char '('.toUInt8 :: (tokens ++ [.char ')'.toUInt8]))
        (inityy body) →
        ∃ nl bindings nl' derivation, Prefixed nl bindings nl' derivation picked.derivation ∧
          pick text = some { picked with derivation }

/-- A name and values of a binding. The name is not empty and not all digits, and there is no NUL
in them. -/
structure Bindable (b : Text × List Text) : Prop where
  name : b.1 ≠ [] ∧ b.1.all isdigit = false
  nulFree : NulFree b.1 ∧ ∀ s ∈ b.2, NulFree s

theorem Bindable.validatevar {b : Text × List Text} (bindable : Bindable b) :
    validatevar b.1 = .ok () := by
  have other : iscounting b.1 = false := by
    -- a number has digits only
    by_contra counting
    rw [Bool.not_eq_false, iscounting, Bool.and_eq_true] at counting
    have all := bindable.name.2
    rw [← List.takeWhile_append_dropWhile (p := fun c => c == '0'.toUInt8) (l := b.1),
      List.all_append, counting.2, Bool.and_true, List.all_eq_false] at all
    obtain ⟨c, member, other⟩ := all
    have zero := List.mem_takeWhile_imp (p := fun c => c == '0'.toUInt8) member
    rw [beq_iff_eq.mp zero] at other
    exact other rfl
  rw [Desh.validatevar, if_neg bindable.name.1, if_neg (by rw [other]; decide)]

theorem getclosure_eq_iff {text : Text} {picked : Option Picked} {counter : Nat}
    {bindings : List (Text × List Value)} {tree : Tree} :
    getclosure text picked counter = .closure bindings tree ↔
      closureText text = true ∧ ∃ derivation texts t parser,
        picked = some ⟨derivation, texts, []⟩ ∧
          action id derivation (Parser.start texts counter) = .returns t parser ∧
            parser.error = none ∧ t ≠ null ∧ extractbindings t = .ok (bindings, tree) := by
  constructor
  · intro made
    unfold getclosure at made
    split at made
    · rename_i code
      refine ⟨code, ?_⟩
      split at made
      · cases made
      · rename_i derivation texts more
        split at made
        · cases made
        · cases made
        · rename_i t parser returned
          split_ifs at made with failed empty
          rw [not_or, not_not, not_not] at failed
          obtain ⟨noError, rfl⟩ := failed
          refine ⟨derivation, texts, t, parser, rfl, returned, noError, empty, ?_⟩
          unfold Made.ofTree at made
          split at made <;> cases made
          assumption
    · cases made
  · rintro ⟨code, derivation, texts, t, parser, rfl, returned, noError, nonnull, extracted⟩
    unfold getclosure
    rw [if_pos code]
    simp only [returned, noError, nonnull, ne_eq, not_true_eq_false, or_self, if_false]
    rw [Made.ofTree, extracted]

/-- What is left of a tree that is no `%closure`. -/
theorem extractPrefixes_shape {shape : Shape} {t tree : Tree}
    {bindings result : List (Text × List Value)} (shows : shape.Shows t) (other : shape ≠ .closure)
    (extracted : extractPrefixes (unlist t) bindings = .ok (result, tree)) :
    result = bindings ∧ unlist t = tree := by
  have plain : ∀ {t : Tree}, (∀ p q, t ≠ nClosure p q) →
      extractPrefixes t bindings = .ok (result, tree) → result = bindings ∧ t = tree := by
    intro t other extracted
    cases t <;> first | exact absurd rfl (other _ _) | (cases extracted; exact ⟨rfl, rfl⟩) |
      cases extracted
  refine plain (fun p q same => ?_) extracted
  cases shape with
  | nothing =>
    rw [show t = null from shows] at same
    cases same
  | lone piece =>
    obtain ⟨e, rfl, fits, -⟩ := shows
    rw [show e = nClosure p q from same] at fits
    cases piece <;> cases fits
  | many =>
    obtain ⟨_, _, _, rfl⟩ := shows
    cases same
  | closure => exact other rfl
  | node => cases t <;> first | exact shows.elim | cases same

/-- A function: the trees closures have. -/
def Tree.IsFunction : Tree → Prop
  | nThunk _ | nLambda _ _ => True
  | _ => False

theorem shape_of_function {shape : Shape} {t : Tree} (shows : shape.Shows t)
    (function : (unlist t).IsFunction) : shape = .lone .code := by
  cases shape with
  | nothing =>
    rw [show t = null from shows] at function
    exact function.elim
  | lone piece =>
    obtain ⟨e, rfl, fits, -⟩ := shows
    cases piece with
    | code => rfl
    | nothing | word | qword | prim =>
      rw [show e = _ from fits] at function
      exact function.elim
    | other => cases e <;> first | exact fits.elim | exact function.elim
  | many =>
    obtain ⟨_, _, _, rfl⟩ := shows
    exact function.elim
  | closure =>
    obtain ⟨_, _, rfl⟩ := shows
    exact function.elim
  | node => cases t <;> first | exact shows.elim | exact function.elim

theorem extract_suffix {t : Tree} {bindings result : List (Text × List Value)}
    (extracted : extract t bindings = .ok result) : bindings <:+ result := by
  fun_induction extract t bindings with
  | case1 =>
    cases extracted
    exact List.suffix_rfl
  | case2 _ _ ih => exact ih extracted
  | case3 bindings defn next _ ih =>
    obtain ⟨binding, -, onward⟩ := ok_of_bind extracted
    exact (List.suffix_cons _ _).trans (ih binding onward)
  | case4 => cases extracted

theorem extractPrefixes_suffix {t tree : Tree} {bindings result : List (Text × List Value)}
    (extracted : extractPrefixes t bindings = .ok (result, tree)) : bindings <:+ result := by
  fun_induction extractPrefixes t bindings with
  | case1 => cases extracted
  | case2 p q bindings ih =>
    obtain ⟨middle, first, onward⟩ := ok_of_bind extracted
    exact (extract_suffix first).trans (ih middle onward)
  | case3 p q bindings _ ih =>
    obtain ⟨middle, first, onward⟩ := ok_of_bind extracted
    exact (extract_suffix first).trans (ih middle onward)
  | case4 =>
    cases extracted
    exact List.suffix_rfl

section

variable {pick : Text → Option Picked} {body text : Text} {counter : Nat} {tree : Tree}
  {binding : List (Text × List Text)}

/-- What is printed in front of a body. -/
theorem cconv_eq (prints : tconv false tree = some body) (nonempty : binding ≠ []) :
    cconv tree binding = some (lit "%closure(" ++
      (bindingsText binding.reverse ++ ')'.toUInt8 :: body)) := by
  rw [cconv, prints, Option.map_some, if_neg nonempty, enclose_eq, if_neg nonempty]
  simp [lit]

theorem items_ne_nil (derivation : Derivation .es) : derivation.items ≠ [] := by
  cases derivation <;> exact List.append_ne_nil_of_right_ne_nil _ (List.cons_ne_nil _ _)

/-- What the parser picks for a body that is read back. -/
theorem body_of_again (parses : Parses pick body text) (function : tree.IsFunction)
    (prints : tconv false tree = some body)
    (again : getclosure body (pick body) counter = .closure [] tree) :
    ∃ derivation texts t parser, pick body = some ⟨derivation, texts, []⟩ ∧
      action id derivation (Parser.start texts counter) = .returns t parser ∧
        parser.error = none ∧ t ≠ null ∧ unlist t = tree ∧ StartsBlock derivation.items ∧
          derivation.shape = .lone .code := by
  obtain ⟨-, derivation, texts, t, parser, picked, returned, noError, nonnull, extracted⟩ :=
    getclosure_eq_iff.mp again
  obtain ⟨after, scans⟩ := parses.derives body _ picked
  have block : StartsBlock derivation.items := by
    rw [StartsBlock, scans.head? (items_ne_nil derivation)]
    cases tree with
    | nThunk p =>
      obtain ⟨inner, -, printed⟩ := Option.bind_eq_some_iff.mp prints
      obtain rfl := Option.some.inj printed
      exact .inl (congrArg (some ∘ Item.shift) (yylex_brace _))
    | nLambda p q =>
      obtain ⟨params, -, rest⟩ := Option.bind_eq_some_iff.mp prints
      obtain ⟨inner, -, printed⟩ := Option.bind_eq_some_iff.mp rest
      obtain rfl := Option.some.inj printed
      refine .inr (congrArg (some ∘ Item.shift) ?_)
      rw [List.append_assoc, List.append_assoc, List.append_assoc]
      exact yylex_lambda _
    | _ => exact function.elim
  have shows := shows_of_returns derivation trivial returned
  have other := (shape_of_block derivation trivial block).2
  obtain ⟨-, same⟩ := extractPrefixes_shape shows other extracted
  exact ⟨derivation, texts, t, parser, picked, returned, noError, nonnull, same, block,
    shape_of_function shows (same ▸ function)⟩

theorem plain_opening {tokens : List Token} (plain : ∀ token ∈ tokens, token.Plain) :
    ∀ token ∈ Token.CLOSURE :: .char '('.toUInt8 :: (tokens ++ [.char ')'.toUInt8]),
      token.Plain := by
  refine List.forall_mem_cons.mpr ⟨⟨nofun, nofun, nofun, nofun⟩,
    List.forall_mem_cons.mpr ⟨plain_char (by decide), List.forall_mem_append.mpr ⟨plain, ?_⟩⟩⟩
  exact List.forall_mem_singleton.mpr (plain_char (by decide))

theorem ended_items (derivation : Derivation .es) : Ended derivation.items := by
  cases derivation with
  | esNl line =>
    left
    rw [Derivation.items, show [Item.shift .NL, .reads] = [.shift .NL] ++ [.reads] from rfl,
      ← List.append_assoc, List.getLast?_concat]
  | esEndfile line =>
    right
    rw [Derivation.items, List.getLast?_concat]

/-- Where all bindings are readable, they are read back. -/
theorem reimported_of_readable (parses : Parses pick body text) (function : tree.IsFunction)
    (prints : tconv false tree = some body) (isText : cconv tree binding = some text)
    (again : getclosure body (pick body) counter = .closure [] tree)
    (nonempty : binding ≠ []) (bindable : ∀ b ∈ binding, Bindable b)
    (readable : ∀ b ∈ binding, ReadsAgain b) :
    getclosure text (pick text) counter = .closure (binding.map toValues) tree := by
  obtain rfl := Option.some.inj ((cconv_eq prints nonempty).symm.trans isText)
  obtain ⟨derivation, texts, t, parser, picked, returned, noError, nonnull, same, block, single⟩ :=
    body_of_again parses function prints again
  obtain ⟨tokens, w, listing, plain, lexes⟩ := @lexes_bindings body binding.reverse
    (List.reverse_ne_nil_iff.mpr nonempty) (fun b member => readable b (List.mem_reverse.mp member))
    fun b member => (bindable b (List.mem_reverse.mp member)).nulFree
  have lexes' : Lexes
      (inityy (lit "%closure(" ++ (bindingsText binding.reverse ++ ')'.toUInt8 :: body)))
      (.CLOSURE :: .char '('.toUInt8 :: (tokens ++ [.char ')'.toUInt8])) (inityy body) := by
    refine (lexes_closure _).append (lexes.append ?_)
    rw [Lexes, yylex_separator _ _ (.inr (.inr rfl))]
    exact ⟨rfl, rfl⟩
  have exist := (Derivation.exists_bindings listing fun token member => by
    obtain ⟨token', isToken, same⟩ := List.mem_map.mp member
    rw [← Item.shift.inj same]
    exact lexes.typed token' isToken).1
  obtain ⟨nl, bindings, nl', derivation', isPrefixed, picked'⟩ :=
    parses.behind _ picked tokens exist lexes'
  obtain ⟨after, scans⟩ := parses.derives _ _ picked'
  obtain ⟨rest, items, -, -⟩ := scans.lexes lexes' (plain_opening plain) (ended_items derivation')
  rw [show derivation'.items = _ from isPrefixed.items, List.map_cons, List.map_cons,
    List.map_append, List.cons_append, List.cons_append, List.append_assoc] at items
  have reduced : (binding.reverse.map some).reduceOption = binding.reverse := by
    rw [List.reduceOption, List.filterMap_map, Function.id_comp, List.filterMap_some]
  have valid : ∀ q ∈ (binding.reverse.map some).reduceOption, validatevar q.1 = .ok () := by
    intro q member
    rw [reduced, List.mem_reverse] at member
    exact (bindable q member).validatevar
  obtain rfl : nl = 0 := by
    cases nl with
    | zero => rfl
    | succ nl => cases (List.cons.inj (List.cons.inj items).2).1
  have items := (List.cons.inj (List.cons.inj items).2).2
  have noCaret : punctuation '^' ∉ tokens.map Item.shift := by
    intro member
    obtain ⟨token, isToken, same⟩ := List.mem_map.mp member
    exact (plain token isToken).caret (Item.shift.inj same)
  obtain ⟨⟨l, isBindings, extracted⟩, -⟩ | ⟨_, _, _, token, -, -, -, -, separator, same⟩ :=
    Derivation.makesAll_of_listing listing items noCaret valid ⟨_, _, rfl, rfl, by decide⟩
  · refine getclosure_eq_iff.mpr ⟨?_, derivation', texts, _, parser, picked',
      isPrefixed.returns block single isBindings returned, noError, by simp, ?_⟩
    · rw [closureText, Bool.or_eq_true]
      exact .inr rfl
    · rw [extractbindings, show unlist (nClosure (ofList l) t) = nClosure (ofList l) t from rfl,
        extractPrefixes_closure, extracted, reduced, same, List.append_nil, List.map_reverse,
        List.reverse_reverse]
      cases tree <;> first | exact function.elim | rfl
  · rcases separator with rfl | rfl <;> cases (List.cons.inj same).1

/-- Only readable bindings are read back. -/
theorem readable_of_reimported (parses : Parses pick body text)
    (prints : tconv false tree = some body) (isText : cconv tree binding = some text)
    (nonempty : binding ≠ []) (bindable : ∀ b ∈ binding, Bindable b)
    (made : getclosure text (pick text) counter = .closure (binding.map toValues) tree) :
    ∀ b ∈ binding, ReadsAgain b := by
  obtain rfl := Option.some.inj ((cconv_eq prints nonempty).symm.trans isText)
  obtain ⟨-, derivation, texts, t, parser, picked, returned, -, -, extracted⟩ :=
    getclosure_eq_iff.mp made
  obtain ⟨after, scans⟩ := parses.derives _ _ picked
  obtain ⟨isClosure, isBracket, left⟩ :=
    tokens_closure (bindingsText binding.reverse ++ ')'.toUInt8 :: body)
  have starts : derivation.items.head? = some (.shift .CLOSURE) := by
    rw [scans.head? (items_ne_nil derivation), isClosure]
  obtain ⟨nl, bindings, nl', behind, isPrefixed⟩ := prefixed_of_starts derivation trivial starts
  obtain other | ⟨p, q, middle, rfl, isBindings⟩ := isPrefixed.closure_of_returns returned
  · have shows := shows_of_returns derivation trivial returned
    have empty := (extractPrefixes_shape shows other extracted).1
    exact absurd (List.map_eq_nil_iff.mp empty) nonempty
  rw [extractbindings, show unlist (nClosure p q) = nClosure p q from rfl,
    extractPrefixes_closure] at extracted
  obtain ⟨first, isFirst, onward⟩ := ok_of_bind extracted
  have suffix := extractPrefixes_suffix onward
  obtain ⟨l, rfl, comes⟩ := Derivation.listing_of_extract isBindings
  obtain ⟨read, listing, rfl⟩ := comes [] first isFirst (by
    intro b member value isValue
    obtain ⟨b, -, rfl⟩ := List.mem_map.mp (suffix.mem member)
    obtain ⟨s, -, rfl⟩ := List.mem_map.mp isValue
    exact ⟨s, rfl⟩)
  have isFirst : read.reduceOption <+: binding.reverse := by
    rw [List.append_nil, ← List.map_reverse] at suffix
    obtain ⟨others, same⟩ := suffix
    obtain ⟨before, behind, rfl, -, mapped⟩ := List.map_eq_append_iff.mp same.symm
    have injective : Function.Injective toValues := fun b b' equal => by
      obtain ⟨name, values⟩ := Prod.mk.inj equal
      exact Prod.ext name (List.map_injective_iff.mpr (fun _ _ => Value.str.inj) values)
    rw [List.map_injective_iff.mpr injective mapped, List.reverse_append, List.reverse_reverse]
    exact List.prefix_append _ _
  have nulFree : ∀ b ∈ binding.reverse, NulFree b.1 ∧ ∀ s ∈ b.2, NulFree s := fun b member =>
    (bindable b (List.mem_reverse.mp member)).nulFree
  -- the parser has read the two tokens in front of the bindings
  rw [show derivation.items = _ from isPrefixed.items] at scans
  have behindName := scans.uncons.2 nofun
  have onward : Scans (inityy (bindingsText binding.reverse ++ ')'.toUInt8 :: body))
      (bindings.items ++ punctuation ')' :: (newlines nl' ++ behind.items)) texts after := by
    cases nl with
    | zero =>
      have behindBracket := behindName.uncons.2 nofun
      rw [left] at behindBracket
      exact behindBracket
    | succ nl =>
      have newline := behindName.uncons.1
      rw [isBracket] at newline
      cases newline
  intro b member
  exact readable_of_listing listing isFirst nulFree onward b (List.mem_reverse.mpr member)

end

/-- A closure whose body is read back is read back from its text exactly if every name and every
value of its bindings is printed as one token which carries it: none is a relational operator, has
a backslash in front of a quote, or needs a quoted form with an unprintable byte among others, and
no bare name starts with a dash. -/
theorem reimported_iff (pick : Text → Option Picked) (counter : Nat) {tree : Tree}
    {body text : Text} {binding : List (Text × List Text)} (parses : Parses pick body text)
    (function : tree.IsFunction) (prints : tconv false tree = some body)
    (isText : cconv tree binding = some text)
    (again : getclosure body (pick body) counter = .closure [] tree)
    (bindable : ∀ b ∈ binding, Bindable b) :
    getclosure text (pick text) counter = .closure (binding.map toValues) tree ↔
      ∀ b ∈ binding, ReadsAgain b := by
  by_cases nonempty : binding = []
  · subst nonempty
    rw [cconv, prints, Option.map_some, if_pos rfl] at isText
    obtain rfl := Option.some.inj isText
    exact iff_of_true again nofun
  · exact ⟨readable_of_reimported parses prints isText nonempty bindable,
      reimported_of_readable parses function prints isText again nonempty bindable⟩

/-! ### A closure that is read back, and one that is not -/

/-- The block `{b}`. -/
def blockTree : Tree := nThunk (ofList [nWord (lit "b")])

open Derivation in
/-- The word `{b}`, as the only one of a command. -/
def blockCmd : Derivation .cmd :=
  cmdSimple (simpleFirst (firstComword (comwordBody
    (bodyCmd (wordCommand (lit "b") plain_b)))))

open Derivation in
/-- A word of an assignment. -/
def plainWord (str : Text) (plain : '$'.toUInt8 ∉ str) : Derivation .word :=
  wordSword (swordComword (comwordParam (paramWord str plain)))

open Derivation in
/-- The bindings `c=;a=x`. -/
def plainBindings : Derivation .bindings :=
  bindingsSemicolon
    (bindingsBinding (bindingAssign (plainWord (lit "c") plain_c)
      (assignWords false false wordsNil)))
    (bindingAssign (plainWord (lit "a") plain_a) (assignWords false false
      (wordsWord wordsNil (plainWord (lit "x") plain_x))))

open Derivation in
/-- What the parser picks for `{b}`, and for `%closure(c=;a=x){b}`. -/
def pickBlock (text : Text) : Option Picked :=
  if text = lit "\x7bb\x7d" then some ⟨esEndfile (lineCmd blockCmd), [], []⟩
  else if text = lit "%closure(c=;a=x)\x7bb\x7d" then
    some ⟨esEndfile (lineCmd (cmdBinder .nClosure 0 plainBindings 0 blockCmd)), [], []⟩
  else none

theorem scans_yylexes (count : Nat) (lexer : Lexer) :
    Scans lexer ((yylexes count lexer).1.map .shift) [] (yylexes count lexer).2 := by
  induction count generalizing lexer with
  | zero => exact .done lexer
  | succ count ih => exact .shift (ih _)

theorem parses_block :
    Parses pickBlock (lit "\x7bb\x7d") (lit "%closure(c=;a=x)\x7bb\x7d") where
  derives text picked member := by
    unfold pickBlock at member
    split_ifs at member with body closure
    · subst body
      cases member
      have items : (Derivation.esEndfile (.lineCmd blockCmd)).items =
          (yylexes 4 (inityy (lit "\x7bb\x7d"))).1.map .shift := by decide +kernel
      exact ⟨_, items ▸ scans_yylexes 4 _⟩
    · subst closure
      cases member
      have items : (Derivation.esEndfile (.lineCmd (.cmdBinder .nClosure 0 plainBindings 0
          blockCmd))).items =
            (yylexes 13 (inityy (lit "%closure(c=;a=x)\x7bb\x7d"))).1.map .shift := by
        decide +kernel
      exact ⟨_, items ▸ scans_yylexes 13 _⟩
    · cases member
  behind picked member _ _ _ := by
    cases member
    exact ⟨0, plainBindings, 0, _, .esEndfile (.lineCmd (.binder blockCmd)), rfl⟩

theorem reimported_block :
    getclosure (lit "%closure(c=;a=x)\x7bb\x7d") (pickBlock (lit "%closure(c=;a=x)\x7bb\x7d")) 0 =
      .closure ([(lit "a", [lit "x"]), (lit "c", [])].map toValues) blockTree := by
  refine (reimported_iff pickBlock 0 parses_block (show blockTree.IsFunction from trivial)
    (by decide +kernel) (by decide +kernel) (by decide +kernel) ?_).mpr ?_
  · rw [List.forall_mem_cons, List.forall_mem_singleton]
    exact ⟨⟨by decide +kernel, by decide +kernel⟩, ⟨by decide +kernel, by decide +kernel⟩⟩
  · rw [List.forall_mem_cons, List.forall_mem_singleton]
    exact ⟨⟨by decide +kernel, by decide +kernel, by decide +kernel⟩,
      ⟨by decide +kernel, by decide +kernel, by decide +kernel⟩⟩

/-- The word `'x'^\t^'y'`, as which `x`, a tab and `y` are printed. -/
def tabbedWord : Derivation .word :=
  .wordCaret (.wordCaret (.wordSword (.swordComword (.comwordParam (.paramQword (lit "x"))))) 0
    (.swordComword (.comwordParam (.paramQword (lit "\t"))))) 0
      (.swordComword (.comwordParam (.paramQword (lit "y"))))

open Derivation in
/-- A closure with such a value in its bindings. -/
def tabbedPicked : Picked where
  derivation := esEndfile (lineCmd (cmdBinder .nClosure 0 (bindingsBinding
    (bindingAssign (plainWord (lit "a") plain_a) (assignWords false false
      (wordsWord wordsNil tabbedWord)))) 0 blockCmd))
  texts := []
  more := []

theorem not_reimported_tabbed :
    Bindable (lit "a", [lit "x\ty"]) ∧
    getclosure (lit "\x7bb\x7d") (pickBlock (lit "\x7bb\x7d")) 0 = .closure [] blockTree ∧
      cconv blockTree [(lit "a", [lit "x\ty"])] =
        some (lit "%closure(a='x'^\\t^'y')\x7bb\x7d") ∧
      tabbedPicked.derivation.items =
        (yylexes 14 (inityy (lit "%closure(a='x'^\\t^'y')\x7bb\x7d"))).1.map Item.shift ∧
      getclosure (lit "%closure(a='x'^\\t^'y')\x7bb\x7d") (some tabbedPicked) 0 = .crashes := by
  exact ⟨⟨by decide +kernel, by decide +kernel⟩, by decide +kernel, by decide +kernel,
    by decide +kernel, by decide +kernel⟩

end Desh
