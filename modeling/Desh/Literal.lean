/-
This file says which derivations tokens of literal text can have: a word that
starts with such a token and is not joined to another is this token alone, so
that a list of words up to the next separator is known word by word. It also
says what the actions make of them, and that there are such derivations.
-/

import Desh.Printed
import Desh.Shape

namespace Desh

open Desh.Tree

/-! ### The first token of a word -/

/-- The symbols that are words. -/
def Nonterminal.IsWord : Nonterminal → Prop
  | .param | .comword | .sword | .word | .first => True
  | _ => False

/-- A word starts with a token that separates nothing. -/
theorem starts_word {symbol : Nonterminal} (derivation : Derivation symbol)
    (word : symbol.IsWord) :
    ∃ token rest, derivation.items = .shift token :: rest ∧ token.separates = false := by
  induction derivation with
  | swordComword _ ih | comwordParam _ ih | wordSword _ ih | firstComword _ ih =>
    exact ih trivial
  | wordCaret _ _ _ ih ih' | firstCaret _ _ _ ih ih' =>
    obtain ⟨token, rest, same, plain⟩ := ih trivial
    rw [Derivation.items, same, List.cons_append, List.cons_append]
    exact ⟨token, _, rfl, plain⟩
  | swordKeyword keyword => cases keyword <;> exact ⟨_, _, rfl, rfl⟩
  | paramWord | paramQword | comwordNlwords | comwordBody | comwordLambda | comwordVar
  | comwordVarsub | comwordCall | comwordCount | comwordFlat | comwordPrim | comwordBackquote
  | comwordBackback => exact ⟨_, _, rfl, rfl⟩
  | _ => exact word.elim

theorem separates_of_literal {token : Token} {s : Text} (text : swordText token = some s) :
    token.separates = false := by
  cases token with
  | char c =>
    rw [swordText_char] at text
    split at text
    · rename_i special
      rcases special with rfl | rfl <;> rfl
    · cases text
  | NL | ENDFILE => cases text
  | _ => rfl

namespace Derivation

/-- A word that carries literal text, and this text. -/
def Carries {symbol : Nonterminal} (derivation : Derivation symbol) (s : Text) : Prop :=
  derivation.piece = .word s ∨ derivation.piece = .qword s

theorem literal_param {derivation : Derivation .param} {token : Token} {rest : List Item}
    {s : Text} (starts : derivation.items = .shift token :: rest)
    (text : swordText token = some s) : rest = [] ∧ derivation.Carries s := by
  cases derivation with
  | paramWord str plain =>
    cases starts
    cases text
    exact ⟨rfl, .inl rfl⟩
  | paramQword str =>
    cases starts
    cases text
    exact ⟨rfl, .inr rfl⟩

/-- Behind a literal token a word without carets ends. -/
theorem literal_comword {derivation : Derivation .comword} {token : Token} {rest : List Item}
    {s : Text} (starts : derivation.items = .shift token :: rest)
    (text : swordText token = some s) : rest = [] ∧ derivation.Carries s := by
  cases derivation with
  | comwordParam param => exact literal_param starts text
  | _ => cases starts; cases text

theorem literal_sword {derivation : Derivation .sword} {token : Token} {rest : List Item}
    {s : Text} (starts : derivation.items = .shift token :: rest)
    (text : swordText token = some s) : rest = [] ∧ derivation.Carries s := by
  cases derivation with
  | swordComword comword => exact literal_comword starts text
  | swordKeyword keyword =>
    obtain ⟨same, rfl⟩ := List.cons.inj starts
    obtain rfl := Item.shift.inj same
    refine ⟨rfl, .inl ?_⟩
    cases keyword <;> cases text <;> rfl

/-- A word is one without carets, or goes on with a caret. -/
theorem word_cases (derivation : Derivation .word) :
    ∃ sword : Derivation .sword, derivation = wordSword sword ∨
      ∃ more, derivation.items = sword.items ++ punctuation '^' :: more := by
  match derivation with
  | wordSword sword => exact ⟨sword, .inl rfl⟩
  | wordCaret word nl sword' =>
    obtain ⟨sword, rfl | ⟨more, same⟩⟩ := word_cases word
    · refine ⟨sword, .inr ⟨newlines nl ++ sword'.items, ?_⟩⟩
      rw [items, items, List.append_assoc, List.cons_append]
    · refine ⟨sword, .inr ⟨more ++ punctuation '^' :: (newlines nl ++ sword'.items), ?_⟩⟩
      rw [items, same]
      simp

/-- A literal token in front of anything but a caret is a word of its own. -/
theorem literal_word {derivation : Derivation .word} {token : Token} {s : Text}
    {more rest : List Item} (same : derivation.items ++ more = .shift token :: rest)
    (text : swordText token = some s) (joined : rest.head? ≠ some (punctuation '^')) :
    derivation.items = [.shift token] ∧ more = rest ∧ derivation.Carries s := by
  obtain ⟨sword, word⟩ := word_cases derivation
  obtain ⟨token', tail, starts, -⟩ := starts_word sword trivial
  rcases word with rfl | ⟨others, items⟩
  · rw [show (wordSword sword).items = sword.items from rfl, starts, List.cons_append] at same
    obtain ⟨isToken, rfl⟩ := List.cons.inj same
    rw [isToken] at starts
    obtain ⟨rfl, carries⟩ := literal_sword starts text
    exact ⟨starts, rfl, carries⟩
  · rw [items, starts, List.append_assoc, List.cons_append] at same
    obtain ⟨isToken, rfl⟩ := List.cons.inj same
    rw [isToken] at starts
    obtain ⟨rfl, -⟩ := literal_sword starts text
    exact absurd rfl joined

/-! ### Lists of words -/

/-- The words of a list, first to last. -/
def wordList : {symbol : Nonterminal} → Derivation symbol → List (Derivation .word)
  | _, wordsWord words word => wordList words ++ [word]
  | _, _ => []

theorem items_wordList (derivation : Derivation .words) :
    derivation.items = derivation.wordList.flatMap items := by
  match derivation with
  | wordsNil => rfl
  | wordsWord words word =>
    rw [items, wordList, List.flatMap_append, ← items_wordList words, List.flatMap_singleton]

theorem pieces_wordList (derivation : Derivation .words) :
    derivation.pieces = derivation.wordList.map piece := by
  match derivation with
  | wordsNil => rfl
  | wordsWord words word =>
    rw [pieces, wordList, List.map_append, ← pieces_wordList words, List.map_singleton]

end Derivation

/-- Items that start with a separator, but not with a caret. -/
def Separated (items : List Item) : Prop :=
  ∃ token rest, items = .shift token :: rest ∧ token.separates = true ∧
    token ≠ .char '^'.toUInt8

namespace Derivation

/-- Literal tokens up to a separator are words of their own. -/
theorem literal_wordList {list : List (Derivation .word)} {tokens : List Token}
    {values : List Text} {more rest : List Item}
    (same : list.flatMap items ++ more = tokens.map .shift ++ rest)
    (texts : List.Forall₂ (swordText · = some ·) tokens values) (before : Separated more)
    (after : Separated rest) : more = rest ∧ List.Forall₂ Carries list values := by
  obtain ⟨first, others, rfl, isFirst, -⟩ := before
  obtain ⟨last, others', rfl, isLast, notCaret⟩ := after
  induction list generalizing tokens values with
  | nil =>
    cases texts with
    | nil => exact ⟨same, .nil⟩
    | cons text texts =>
      obtain ⟨isToken, -⟩ := List.cons.inj same
      rw [Item.shift.inj isToken, separates_of_literal text] at isFirst
      cases isFirst
  | cons word list ih =>
    rw [List.flatMap_cons, List.append_assoc] at same
    cases texts with
    | nil =>
      obtain ⟨token, tail, starts, plain⟩ := starts_word word trivial
      rw [starts, List.cons_append] at same
      obtain ⟨isToken, -⟩ := List.cons.inj same
      rw [Item.shift.inj isToken] at plain
      cases isLast.symm.trans plain
    | @cons token s tokens values text texts =>
      have joined : (tokens.map Item.shift ++ .shift last :: others').head? ≠
          some (punctuation '^') := by
        cases texts with
        | nil => exact fun caret => notCaret (Item.shift.inj (Option.some.inj caret))
        | cons text' =>
          intro caret
          rw [Item.shift.inj (Option.some.inj caret)] at text'
          cases text'
      obtain ⟨-, onward, carries⟩ := literal_word same text joined
      obtain ⟨rest, all⟩ := ih texts onward
      exact ⟨rest, .cons carries all⟩

/-! ### What the actions make of literal words -/

/-- The tree of a literal word. -/
def LiteralTree (s : Text) (tree : Tree) : Prop := tree = nWord s ∨ tree = nQword s

/-- Words that carry text are plain words, quoted words and keywords. -/
theorem carries_cases {derivation : Derivation .word} {s : Text}
    (carries : derivation.Carries s) :
    (∃ plain, derivation = wordSword (swordComword (comwordParam (paramWord s plain)))) ∨
      derivation = wordSword (swordComword (comwordParam (paramQword s))) ∨
        ∃ keyword : Keyword, derivation = wordSword (swordKeyword keyword) ∧ keyword.word = s := by
  cases derivation with
  | wordCaret => rcases carries with same | same <;> cases same
  | wordSword sword =>
    cases sword with
    | swordKeyword keyword =>
      rcases carries with same | same <;> cases same
      exact .inr (.inr ⟨keyword, rfl, rfl⟩)
    | swordComword comword =>
      cases comword with
      | comwordParam param =>
        cases param with
        | paramWord str plain =>
          rcases carries with same | same <;> cases same
          exact .inl ⟨plain, rfl⟩
        | paramQword str =>
          rcases carries with same | same <;> cases same
          exact .inr (.inl rfl)
      | comwordNlwords nlwords =>
        have same : ((wordSword (swordComword (comwordNlwords nlwords))).piece) =
            if nlwords.form = .null then .nothing else .code := rfl
        unfold Carries at carries
        rw [same] at carries
        split at carries <;> rcases carries with same | same <;> cases same
      | _ => rcases carries with same | same <;> cases same

theorem action_carries {derivation : Derivation .word} {s : Text} (carries : derivation.Carries s) :
    ∃ tree, LiteralTree s tree ∧ ∀ parser, action id derivation parser = .returns tree parser := by
  obtain ⟨plain, rfl⟩ | rfl | ⟨keyword, rfl, rfl⟩ := carries_cases carries
  · exact ⟨_, .inl rfl, fun _ => rfl⟩
  · exact ⟨_, .inr rfl, fun _ => rfl⟩
  · exact ⟨_, .inl rfl, fun _ => rfl⟩

/-- The token of a word that carries text. -/
theorem carries_items {derivation : Derivation .word} {s : Text} (carries : derivation.Carries s) :
    ∃ token, derivation.items = [.shift token] ∧ swordText token = some s := by
  obtain ⟨plain, rfl⟩ | rfl | ⟨keyword, rfl, rfl⟩ := carries_cases carries
  · exact ⟨_, rfl, rfl⟩
  · exact ⟨_, rfl, rfl⟩
  · exact ⟨_, rfl, by cases keyword <;> rfl⟩

theorem Carries.literal {symbol : Nonterminal} {derivation : Derivation symbol} {s : Text}
    {tree : Tree} (carries : derivation.Carries s) (fits : derivation.piece.Fits tree) :
    LiteralTree s tree := by
  rcases carries with same | same <;> rw [same] at fits
  · exact .inl fits
  · exact .inr fits

theorem returns_words : ∀ {derivation : Derivation .words},
    (∀ word ∈ derivation.wordList, ∃ s, word.Carries s) →
      ∃ tree, ∀ parser, action id derivation parser = .returns tree parser
  | wordsNil, _ => ⟨_, fun _ => rfl⟩
  | wordsWord words word, each => by
    rw [wordList, List.forall_mem_append] at each
    obtain ⟨given, isWords⟩ := returns_words each.1
    obtain ⟨s, carries⟩ := each.2 word (List.mem_singleton_self word)
    obtain ⟨last, -, isWord⟩ := action_carries carries
    obtain ⟨l, rfl, -⟩ := words_pieces (isWords (Parser.start [] 0))
    refine ⟨ofList (l ++ [last]), fun parser => ?_⟩
    rw [action, bind_of_returns (isWords parser), bind_of_returns (isWord parser),
      treeconsend_ofList]
    rfl

/-- The tree of a list of literal words. -/
theorem action_words {derivation : Derivation .words} {values : List Text}
    (carries : List.Forall₂ Carries derivation.wordList values) :
    ∃ l, List.Forall₂ LiteralTree values l ∧
      ∀ parser, action id derivation parser = .returns (ofList l) parser := by
  have each : ∀ word ∈ derivation.wordList, ∃ s, word.Carries s := by
    generalize derivation.wordList = list at carries
    induction carries with
    | nil => nofun
    | cons first _ ih => exact List.forall_mem_cons.mpr ⟨⟨_, first⟩, ih⟩
  have literal : ∀ {list : List (Derivation .word)} {values : List Text} {l : List Tree},
      List.Forall₂ Carries list values → List.Forall₂ Piece.Fits (list.map piece) l →
        List.Forall₂ LiteralTree values l := by
    intro list values l carries fits
    induction carries generalizing l with
    | nil =>
      cases fits
      exact .nil
    | cons first _ ih =>
      cases fits with
      | cons fit others => exact .cons (first.literal fit) (ih others)
  obtain ⟨tree, returned⟩ := returns_words each
  obtain ⟨l, rfl, fits⟩ := words_pieces (returned (Parser.start [] 0))
  exact ⟨l, literal carries (pieces_wordList derivation ▸ fits), returned⟩

/-! ### There are such derivations -/

theorem exists_sword {token : Token} {s : Text} (typed : token.Typed)
    (text : swordText token = some s) :
    ∃ sword : Derivation .sword, sword.items = [.shift token] := by
  have keyword (keyword : Keyword) : ∃ sword : Derivation .sword,
      sword.items = [.shift keyword.token] := ⟨swordKeyword keyword, rfl⟩
  cases token with
  | WORD str => exact ⟨swordComword (comwordParam (paramWord str typed)), rfl⟩
  | QWORD str => exact ⟨swordComword (comwordParam (paramQword str)), rfl⟩
  | EXTRACT => exact keyword .extract
  | LOCAL => exact keyword .local
  | LET => exact keyword .let
  | FOR => exact keyword .for
  | FN => exact keyword .fn
  | CLOSURE => exact keyword .closure
  | char c =>
    rw [swordText_char] at text
    split at text
    · rename_i special
      rcases special with rfl | rfl
      · exact keyword .bang
      · exact keyword .tilde
    · cases text
  | _ => cases text

/-- More literal words at the end of a list. -/
theorem exists_words (words : Derivation .words) {tokens : List Token} {values : List Text}
    (typed : ∀ token ∈ tokens, token.Typed)
    (texts : List.Forall₂ (swordText · = some ·) tokens values) :
    ∃ words' : Derivation .words, words'.items = words.items ++ tokens.map .shift := by
  induction texts generalizing words with
  | nil => exact ⟨words, (List.append_nil _).symm⟩
  | @cons token _ tokens _ text _ ih =>
    obtain ⟨sword, items⟩ := exists_sword (typed token List.mem_cons_self) text
    obtain ⟨words', same⟩ := ih (wordsWord words (wordSword sword))
      fun token member => typed token (List.mem_cons_of_mem _ member)
    refine ⟨words', ?_⟩
    rw [same, Derivation.items, Derivation.items, items]
    simp

end Derivation

end Desh
