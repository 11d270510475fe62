/-
This file compares what the parser reads of a printed list of strings, and of
the bindings of a printed closure, with what was printed: string by string, the
token read carries the string exactly if it is printed as one token.
-/

import Desh.Conv
import Desh.Grammar
import Desh.Printed

namespace Desh

/-! ### What is read of a text -/

/-- What a text gives the parser: the tokens of `yylex`. Behind a newline the parser may take here
documents from the text that is left. -/
inductive Scans : Lexer → List Item → List Text → Lexer → Prop where
  | done (lexer : Lexer) : Scans lexer [] [] lexer
  | shift {lexer after : Lexer} {items : List Item} {texts : List Text}
      (rest : Scans (yylex lexer).2 items texts after) :
      Scans lexer (.shift (yylex lexer).1 :: items) texts after
  | reads {lexer after : Lexer} {items : List Item} {texts : List Text} {input : Text}
      (newline : (yylex lexer).1 = .NL) (left : input <:+ (yylex lexer).2.input)
      (rest : Scans { (yylex lexer).2 with input } items texts after) :
      Scans lexer (.shift .NL :: .reads :: items) ((yylex lexer).2.input :: texts) after

/-- The next tokens, and the state behind them. -/
def Lexes : Lexer → List Token → Lexer → Prop
  | lexer, [], after => lexer = after
  | lexer, token :: tokens, after => (yylex lexer).1 = token ∧ Lexes (yylex lexer).2 tokens after

theorem Lexes.append {lexer middle after : Lexer} {tokens others : List Token}
    (first : Lexes lexer tokens middle) (second : Lexes middle others after) :
    Lexes lexer (tokens ++ others) after := by
  induction tokens generalizing lexer with
  | nil => exact (show lexer = middle from first) ▸ second
  | cons token tokens ih => exact ⟨first.1, ih first.2⟩

theorem Scans.of_lexes {lexer middle after : Lexer} {tokens : List Token} {items : List Item}
    {texts : List Text} (lexes : Lexes lexer tokens middle)
    (scans : Scans middle items texts after) :
    Scans lexer (tokens.map .shift ++ items) texts after := by
  induction tokens generalizing lexer with
  | nil => exact (show lexer = middle from lexes) ▸ scans
  | cons token tokens ih =>
    obtain ⟨rfl, rest⟩ := lexes
    exact .shift (ih rest)

/-- The last item of what the parser accepts. -/
def Ended (items : List Item) : Prop :=
  items.getLast? = some .reads ∨ items.getLast? = some (.shift .ENDFILE)

/-- A token that ends no line, redirects nothing and joins no words. -/
structure Token.Plain (token : Token) : Prop where
  newline : token ≠ .NL
  endfile : token ≠ .ENDFILE
  redir : ∀ tree, token ≠ .REDIR tree
  caret : token ≠ .char '^'.toUInt8

theorem plain_char {c : UInt8} (other : c ≠ '^'.toUInt8) : (Token.char c).Plain :=
  ⟨nofun, nofun, nofun, fun same => other (Token.char.inj same)⟩

theorem plain_of_literal {token : Token} {s : Text} (text : swordText token = some s) :
    token.Plain := by
  refine ⟨?_, ?_, ?_, ?_⟩
  · rintro rfl
    cases text
  · rintro rfl
    cases text
  · rintro _ rfl
    cases text
  · rintro rfl
    cases text

theorem plain_of_literals {tokens : List Token} {values : List Text}
    (carry : List.Forall₂ (swordText · = some ·) tokens values) :
    ∀ token ∈ tokens, token.Plain := by
  induction carry with
  | nil => nofun
  | cons text _ ih => exact List.forall_mem_cons.mpr ⟨plain_of_literal text, ih⟩

theorem Lexes.typed {lexer after : Lexer} {tokens : List Token} (lexes : Lexes lexer tokens after) :
    ∀ token ∈ tokens, token.Typed := by
  induction tokens generalizing lexer with
  | nil => nofun
  | cons token tokens ih =>
    obtain ⟨rfl, rest⟩ := lexes
    exact List.forall_mem_cons.mpr ⟨yylex_typed lexer, ih rest⟩

/-- The parser reads the tokens that are there. -/
theorem Scans.lexes {lexer middle after : Lexer} {tokens : List Token} {items : List Item}
    {texts : List Text} (scans : Scans lexer items texts after) (lexes : Lexes lexer tokens middle)
    (plain : ∀ token ∈ tokens, token.Plain) (ended : Ended items) :
    ∃ rest, items = tokens.map .shift ++ rest ∧ Scans middle rest texts after ∧ Ended rest := by
  induction tokens generalizing lexer items with
  | nil => exact ⟨items, rfl, (show lexer = middle from lexes) ▸ scans, ended⟩
  | cons token tokens ih =>
    rw [List.forall_mem_cons] at plain
    obtain ⟨same, onward⟩ := lexes
    cases scans with
    | done => rcases ended with ended | ended <;> cases ended
    | reads newline => exact absurd (same.symm.trans newline) plain.1.newline
    | @shift _ _ items _ rest =>
      have ended' : Ended items := by
        cases items with
        | cons => exact ended
        | nil =>
          rcases ended with ended | ended
          · cases ended
          · exact absurd (same.symm.trans (Item.shift.inj (Option.some.inj ended))) plain.1.endfile
      obtain ⟨others, split, scans, ended⟩ :=
        ih rest onward plain.2 ended'
      exact ⟨others, by rw [split, same, List.map_cons, List.cons_append], scans, ended⟩

/-- A token the parser shifts is the one that is there. -/
theorem Scans.uncons {lexer after : Lexer} {token : Token} {items : List Item}
    {texts : List Text} (scans : Scans lexer (.shift token :: items) texts after) :
    (yylex lexer).1 = token ∧ (token ≠ .NL → Scans (yylex lexer).2 items texts after) := by
  cases scans with
  | shift rest => exact ⟨rfl, fun _ => rest⟩
  | reads newline => exact ⟨newline, fun other => absurd rfl other⟩

theorem Scans.of_yylex {lexer other after : Lexer} {item : Item} {items : List Item}
    {texts : List Text} (scans : Scans lexer (item :: items) texts after)
    (same : yylex lexer = yylex other) : Scans other (item :: items) texts after := by
  cases scans with
  | shift rest =>
    rw [same] at rest ⊢
    exact .shift rest
  | reads newline left rest =>
    rw [same] at newline left rest ⊢
    exact .reads newline left rest

/-! ### Separators in a text -/

theorem yylex_blank (w : WordState) (input : Text) :
    yylex (reading w (' '.toUInt8 :: input)) = yylex (reading .nonWord input) := by
  unfold yylex
  simp only [reading, skipBlank_space w input (.inl rfl), Bool.false_eq_true, if_false]

/-- What may follow a list of strings. -/
def Delimits (follow : Text) : Prop :=
  ∀ d, follow.head? = some d → d = ' '.toUInt8 ∨ d = ';'.toUInt8 ∨ d = ')'.toUInt8

theorem Delimits.properties {follow : Text} (delimits : Delimits follow) :
    Stops follow ∧ Follows follow ∧ follow.head? ≠ some '='.toUInt8 := by
  refine ⟨fun d head => ?_, fun d head => ?_, fun head => ?_⟩
  · rcases delimits d head with rfl | rfl | rfl <;> decide
  · rcases delimits d head with rfl | rfl | rfl <;> decide
  · exact absurd (delimits _ head) (by decide)

theorem delimits_cons {d : UInt8} (rest : Text)
    (delimiter : d = ' '.toUInt8 ∨ d = ';'.toUInt8 ∨ d = ')'.toUInt8) : Delimits (d :: rest) := by
  rintro _ ⟨⟩
  exact delimiter

theorem yylex_separator {d : UInt8} (w : WordState) (rest : Text)
    (separator : d = '='.toUInt8 ∨ d = ';'.toUInt8 ∨ d = ')'.toUInt8) :
    yylex (reading w (d :: rest)) = (.char d, reading .nonWord rest) := by
  rcases separator with rfl | rfl | rfl <;>
  · rw [yylex_special w _ rest (by decide) (by decide) (by decide) (by decide) (by decide)
      (.inl rfl)]
    rfl

/-! ### Lists of strings -/

section Lists

variable {follow : Text}

theorem lexes_sconv {s : Text} (whole : Whole s) (nulFree : NulFree s)
    (delimits : Delimits follow) :
    ∃ token w, swordText token = some s ∧
      Lexes (reading .nonWord (sconv false s ++ follow)) [token] (reading w follow) := by
  obtain ⟨stops, ends, other⟩ := delimits.properties
  obtain ⟨w, left, text⟩ := yylex_whole whole nulFree ends stops fun _ _ => other
  exact ⟨_, w, text, rfl, left⟩

theorem lconv_cons (s next : Text) (list : List Text) :
    lconv (s :: next :: list) ++ follow =
      sconv false s ++ ' '.toUInt8 :: (lconv (next :: list) ++ follow) := by
  rw [lconv, List.append_assoc, List.append_assoc]
  rfl

/-- The tokens of a list of strings. -/
theorem lexes_lconv : ∀ {values : List Text}, (∀ s ∈ values, Whole s) →
    (∀ s ∈ values, NulFree s) → Delimits follow →
      ∃ tokens w, List.Forall₂ (swordText · = some ·) tokens values ∧
        Lexes (reading .nonWord (lconv values ++ follow)) tokens (reading w follow)
  | [], _, _, _ => ⟨[], .nonWord, .nil, rfl⟩
  | [s], whole, nulFree, delimits => by
    obtain ⟨token, w, text, lexes⟩ := lexes_sconv (whole s List.mem_cons_self)
      (nulFree s List.mem_cons_self) delimits
    exact ⟨[token], w, .cons text .nil, lexes⟩
  | s :: next :: list, whole, nulFree, delimits => by
    rw [List.forall_mem_cons] at whole nulFree
    obtain ⟨token, w, text, lexes⟩ := lexes_sconv whole.1 nulFree.1
      (delimits_cons (lconv (next :: list) ++ follow) (.inl rfl))
    obtain ⟨tokens, w', texts, others⟩ := lexes_lconv whole.2 nulFree.2 delimits
    refine ⟨token :: tokens, w', .cons text texts, ?_⟩
    rw [lconv_cons]
    refine lexes.append ?_
    cases texts with
    | cons text' texts =>
      rw [Lexes, yylex_blank]
      exact others

/-- A token that carries a string that was printed. -/
theorem whole_of_token {items : List Item} {texts : List Text} {after : Lexer} {token : Token}
    {s : Text} (text : swordText token = some s) (nulFree : NulFree s) (delimits : Delimits follow)
    (scans : Scans (reading .nonWord (sconv false s ++ follow)) (.shift token :: items) texts
      after) :
    Whole s ∧ ∃ w, Scans (reading w follow) items texts after := by
  obtain ⟨same, onward⟩ := scans.uncons
  obtain ⟨stops, ends, other⟩ := delimits.properties
  obtain ⟨whole, -⟩ := whole_of_yylex nulFree ends stops (same ▸ text)
  obtain ⟨w, left, -⟩ := yylex_whole whole nulFree ends stops fun _ _ => other
  refine ⟨whole, w, left ▸ onward ?_⟩
  rintro rfl
  cases text

/-- Where the tokens read carry the strings, each is printed as one token. -/
theorem whole_of_scans {items : List Item} {texts : List Text} {after : Lexer} :
    ∀ {tokens : List Token} {values : List Text},
      List.Forall₂ (swordText · = some ·) tokens values → (∀ s ∈ values, NulFree s) →
        Delimits follow →
          Scans (reading .nonWord (lconv values ++ follow)) (tokens.map .shift ++ items) texts
            after →
            (∀ s ∈ values, Whole s) ∧ ∃ w, Scans (reading w follow) items texts after
  | _, _, .nil, _, _, scans => ⟨nofun, _, scans⟩
  | _, _, .cons text .nil, nulFree, delimits, scans => by
    rw [List.forall_mem_singleton] at nulFree ⊢
    exact whole_of_token text nulFree delimits scans
  | _, _, .cons text (.cons text' others), nulFree, delimits, scans => by
    rw [List.forall_mem_cons] at nulFree ⊢
    rw [lconv_cons] at scans
    obtain ⟨whole, w, scans⟩ :=
      whole_of_token text nulFree.1 (delimits_cons _ (.inl rfl)) scans
    obtain ⟨wholes, onward⟩ := whole_of_scans (.cons text' others) nulFree.2 delimits
      (scans.of_yylex (yylex_blank w _))
    exact ⟨⟨whole, wholes⟩, onward⟩

/-- A list of strings starts with no separator, an empty one with what follows. -/
theorem lconv_not_caret {values : List Text} {d : UInt8} {rest : Text}
    (nulFree : ∀ s ∈ values, NulFree s) (delimiter : d = ';'.toUInt8 ∨ d = ')'.toUInt8) :
    (yylex (reading .nonWord (lconv values ++ d :: rest))).1 ≠ .char '^'.toUInt8 := by
  intro caret
  have delimits : Delimits (d :: rest) := delimits_cons rest (.inr delimiter)
  match values with
  | [] =>
    rw [lconv, List.nil_append, yylex_separator _ _ (.inr delimiter)] at caret
    rcases delimiter with rfl | rfl <;> cases caret
  | [s] =>
    have plain := sconv_not_separates (nulFree s List.mem_cons_self) delimits.properties.2.1
    rw [lconv] at caret
    rw [caret] at plain
    cases plain
  | s :: next :: list =>
    have blank : Delimits (' '.toUInt8 :: (lconv (next :: list) ++ d :: rest)) :=
      delimits_cons _ (.inl rfl)
    have plain := sconv_not_separates (nulFree s List.mem_cons_self) blank.properties.2.1
    rw [lconv_cons] at caret
    rw [caret] at plain
    cases plain

end Lists

/-! ### Bindings -/

/-- What `enclose` prints of one binding. -/
def bindingConv (b : Text × List Text) : Text :=
  sconv false b.1 ++ '='.toUInt8 :: lconv b.2

/-- The bindings of a closure in the order in which they are printed. -/
def bindingsText : List (Text × List Text) → Text
  | [] => []
  | [b] => bindingConv b
  | b :: next :: list => bindingConv b ++ ';'.toUInt8 :: bindingsText (next :: list)

theorem bindingsText_concat (list : List (Text × List Text)) (b : Text × List Text) :
    bindingsText (list ++ [b]) =
      (if list = [] then [] else bindingsText list ++ lit ";") ++ bindingConv b := by
  match list with
  | [] => rfl
  | [first] => simp [bindingsText, lit]
  | first :: next :: list =>
    have ih := bindingsText_concat (next :: list) b
    rw [if_neg (List.cons_ne_nil _ _)] at ih ⊢
    rw [List.cons_append, List.cons_append, bindingsText, ← List.cons_append, ih, bindingsText]
    simp

theorem enclose_eq (binding : List (Text × List Text)) (sep : Text) :
    enclose binding sep = bindingsText binding.reverse ++ if binding = [] then [] else sep := by
  induction binding generalizing sep with
  | nil => rfl
  | cons b next ih =>
    rw [List.reverse_cons, bindingsText_concat, enclose, ih, if_neg (List.cons_ne_nil _ _)]
    by_cases last : next = []
    · rw [last]
      simp [bindingsText, bindingConv, lit]
    · rw [if_neg last, if_neg (by simpa using last)]
      simp [bindingConv, lit]

/-- A binding whose name and values are read back as they were printed. The name is followed by
`=`, which a word that starts with a dash would take along. -/
structure ReadsAgain (b : Text × List Text) : Prop where
  name : Whole b.1
  dash : isBare b.1 = true → b.1.head? ≠ some '-'.toUInt8
  values : ∀ s ∈ b.2, Whole s

/-- What the parser reads of a binding, where carets may stand around the `=`. -/
def Binds (b : Text × List Text) (items : List Item) : Prop :=
  ∃ token values before behind, swordText token = some b.1 ∧
    List.Forall₂ (swordText · = some ·) values b.2 ∧
    items = .shift token :: (caret before ++ punctuation '=' :: (caret behind ++
      values.map .shift))

/-- What the parser reads of a binding that may be empty. -/
def Fills : Option (Text × List Text) → List Item → Prop
  | none, items => items = []
  | some b, items => Binds b items

/-- What the parser reads of bindings, first to last. -/
inductive Listing : List (Option (Text × List Text)) → List Item → Prop where
  | one {b : Option (Text × List Text)} {items : List Item} (fills : Fills b items) :
      Listing [b] items
  | more {b : Option (Text × List Text)} {others : List (Option (Text × List Text))}
      {items rest : List Item} {token : Token} (fills : Fills b items)
      (separator : token = .char ';'.toUInt8 ∨ token = .NL) (listing : Listing others rest) :
      Listing (b :: others) (items ++ .shift token :: rest)

section Bindings

variable {b : Text × List Text} {d : UInt8} {rest : Text}

theorem equals_properties (rest : Text) :
    Stops ('='.toUInt8 :: rest) ∧ Follows ('='.toUInt8 :: rest) := by
  refine ⟨?_, follows_cons (by decide) (by decide)⟩
  rintro _ ⟨⟩
  decide

theorem bindingConv_append (b : Text × List Text) (follow : Text) :
    bindingConv b ++ follow = sconv false b.1 ++ '='.toUInt8 :: (lconv b.2 ++ follow) := by
  simp [bindingConv]

theorem lexes_binding (readable : ReadsAgain b) (nulFree : NulFree b.1 ∧ ∀ s ∈ b.2, NulFree s)
    (delimiter : d = ';'.toUInt8 ∨ d = ')'.toUInt8) :
    ∃ tokens w, Binds b (tokens.map .shift) ∧ (∀ token ∈ tokens, token.Plain) ∧
      Lexes (reading .nonWord (bindingConv b ++ d :: rest)) tokens (reading w (d :: rest)) := by
  obtain ⟨stops, ends⟩ := equals_properties (lconv b.2 ++ d :: rest)
  obtain ⟨_, left, text⟩ := yylex_whole readable.name nulFree.1 ends stops fun bare head =>
    absurd head (readable.dash bare)
  obtain ⟨values, w, carry, lexes⟩ :=
    lexes_lconv readable.values nulFree.2 (delimits_cons rest (.inr delimiter))
  rw [bindingConv_append]
  refine ⟨_ :: .char '='.toUInt8 :: values, w, ⟨_, values, false, false, text, carry, rfl⟩, ?_,
    rfl, ?_⟩
  · exact List.forall_mem_cons.mpr ⟨plain_of_literal text,
      List.forall_mem_cons.mpr ⟨plain_char (by decide), plain_of_literals carry⟩⟩
  rw [left, Lexes, yylex_separator _ _ (.inl rfl)]
  exact ⟨rfl, lexes⟩

/-- Where the parser reads a binding as it was printed, it is readable. -/
theorem readable_of_scans {items more : List Item} {texts : List Text} {after : Lexer}
    (binds : Binds b items) (nulFree : NulFree b.1 ∧ ∀ s ∈ b.2, NulFree s)
    (delimiter : d = ';'.toUInt8 ∨ d = ')'.toUInt8)
    (scans : Scans (reading .nonWord (bindingConv b ++ d :: rest)) (items ++ more) texts after) :
    ReadsAgain b ∧ ∃ w, Scans (reading w (d :: rest)) more texts after := by
  obtain ⟨token, values, before, behind, text, carry, rfl⟩ := binds
  rw [bindingConv_append, List.cons_append] at scans
  obtain ⟨same, onward⟩ := scans.uncons
  obtain ⟨stops, ends⟩ := equals_properties (lconv b.2 ++ d :: rest)
  obtain ⟨whole, dash⟩ := whole_of_yylex nulFree.1 ends stops (same ▸ text)
  obtain ⟨w, left, -⟩ := yylex_whole whole nulFree.1 ends stops dash
  have rest := left ▸ onward (by rintro rfl; cases text)
  -- no caret is read in front of the `=`, and none behind it
  cases before with
  | true =>
    obtain ⟨caret, -⟩ := rest.uncons
    rw [yylex_separator _ _ (.inl rfl)] at caret
    cases caret
  | false =>
    obtain ⟨-, rest⟩ := rest.uncons
    rw [yylex_separator _ _ (.inl rfl)] at rest
    have rest := rest nofun
    cases behind with
    | true => exact absurd rest.uncons.1 (lconv_not_caret nulFree.2 delimiter)
    | false =>
      rw [caret, if_neg Bool.false_ne_true, List.nil_append] at rest
      obtain ⟨wholes, onward⟩ :=
        whole_of_scans carry nulFree.2 (delimits_cons _ (.inr delimiter)) rest
      exact ⟨⟨whole, fun bare head => absurd rfl (dash bare head), wholes⟩, onward⟩

/-- The tokens of the bindings of a closure. -/
theorem lexes_bindings : ∀ {list : List (Text × List Text)}, list ≠ [] →
    (∀ b ∈ list, ReadsAgain b) → (∀ b ∈ list, NulFree b.1 ∧ ∀ s ∈ b.2, NulFree s) →
      ∃ tokens w, Listing (list.map some) (tokens.map .shift) ∧
        (∀ token ∈ tokens, token.Plain) ∧
        Lexes (reading .nonWord (bindingsText list ++ ')'.toUInt8 :: rest)) tokens
          (reading w (')'.toUInt8 :: rest))
  | [], nonempty, _, _ => absurd rfl nonempty
  | [b], _, readable, nulFree => by
    obtain ⟨tokens, w, binds, plain, lexes⟩ := lexes_binding (readable b List.mem_cons_self)
      (nulFree b List.mem_cons_self) (.inr rfl)
    exact ⟨tokens, w, .one binds, plain, lexes⟩
  | b :: next :: list, _, readable, nulFree => by
    rw [List.forall_mem_cons] at readable nulFree
    obtain ⟨tokens, w, binds, plain, lexes⟩ := lexes_binding readable.1 nulFree.1 (.inl rfl)
    obtain ⟨others, w', listing, plains, lexes'⟩ :=
      lexes_bindings (List.cons_ne_nil next list) readable.2 nulFree.2
    refine ⟨tokens ++ .char ';'.toUInt8 :: others, w', ?_, ?_, ?_⟩
    · rw [List.map_append, List.map_cons, List.map_cons]
      exact .more binds (.inl rfl) listing
    · exact List.forall_mem_append.mpr ⟨plain,
        List.forall_mem_cons.mpr ⟨plain_char (by decide), plains⟩⟩
    · rw [bindingsText, List.append_assoc, List.cons_append]
      refine lexes.append ?_
      rw [Lexes, yylex_separator _ _ (.inr (.inl rfl))]
      exact ⟨rfl, lexes'⟩

theorem bindingsText_append (b : Text × List Text) (list : List (Text × List Text)) (rest : Text) :
    ∃ d more, (d = ';'.toUInt8 ∨ d = ')'.toUInt8) ∧
      bindingsText (b :: list) ++ ')'.toUInt8 :: rest = bindingConv b ++ d :: more ∧
      ((list = [] ∧ d = ')'.toUInt8 ∧ more = rest) ∨
        (list ≠ [] ∧ d = ';'.toUInt8 ∧ more = bindingsText list ++ ')'.toUInt8 :: rest)) := by
  cases list with
  | nil => exact ⟨_, rest, .inr rfl, rfl, .inl ⟨rfl, rfl, rfl⟩⟩
  | cons next list =>
    refine ⟨_, _, .inl rfl, ?_, .inr ⟨List.cons_ne_nil _ _, rfl, rfl⟩⟩
    rw [bindingsText, List.append_assoc, List.cons_append]

/-- A printed binding starts with no separator. -/
theorem bindingConv_not_separates {follow : Text} {items : List Item} {texts : List Text}
    {after : Lexer} {token : Token} (nulFree : NulFree b.1) (separates : token.separates = true) :
    ¬Scans (reading .nonWord (bindingConv b ++ follow)) (.shift token :: items) texts after := by
  intro scans
  have plain := sconv_not_separates nulFree (equals_properties (lconv b.2 ++ follow)).2
  rw [← bindingConv_append, scans.uncons.1, separates] at plain
  cases plain

/-- Where the parser reads bindings the first of which are the first that were printed, and then
the closing parenthesis, all that were printed are readable. -/
theorem readable_of_listing {more : List Item} {texts : List Text} {after : Lexer}
    {list : List (Text × List Text)} {read : List (Option (Text × List Text))} {items : List Item}
    (listing : Listing read items) (first : read.reduceOption <+: list)
    (nulFree : ∀ b ∈ list, NulFree b.1 ∧ ∀ s ∈ b.2, NulFree s)
    (scans : Scans (reading .nonWord (bindingsText list ++ ')'.toUInt8 :: rest))
      (items ++ punctuation ')' :: more) texts after) :
    ∀ b ∈ list, ReadsAgain b := by
  induction listing generalizing list with
  | @one b' items fills =>
    cases list with
    | nil => nofun
    | cons b list =>
      rw [List.forall_mem_cons] at nulFree ⊢
      obtain ⟨d, onward, delimiter, print, left⟩ :=
        bindingsText_append b list rest
      rw [print] at scans
      cases b' with
      | none =>
        obtain rfl := show items = [] from fills
        exact absurd scans (bindingConv_not_separates nulFree.1.1 rfl)
      | some q =>
        obtain rfl : q = b := (List.cons_prefix_cons.mp first).1
        obtain ⟨readable, w, scans⟩ := readable_of_scans fills nulFree.1 delimiter scans
        rcases left with ⟨rfl, -, -⟩ | ⟨-, rfl, -⟩
        · exact ⟨readable, nofun⟩
        · have same := scans.uncons.1
          rw [yylex_separator _ _ (.inr (.inl rfl))] at same
          cases same
  | @more b' others items items' token fills separator listing ih =>
    cases list with
    | nil => nofun
    | cons b list =>
      rw [List.forall_mem_cons] at nulFree ⊢
      obtain ⟨d, onward, delimiter, print, left⟩ :=
        bindingsText_append b list rest
      rw [print, List.append_assoc, List.cons_append] at scans
      cases b' with
      | none =>
        obtain rfl := show items = [] from fills
        refine absurd scans (bindingConv_not_separates nulFree.1.1 ?_)
        rcases separator with rfl | rfl <;> rfl
      | some q =>
        obtain ⟨rfl, firsts⟩ := List.cons_prefix_cons.mp
          (show q :: others.reduceOption <+: b :: list from first)
        obtain ⟨readable, w, scans⟩ := readable_of_scans fills nulFree.1 delimiter scans
        obtain ⟨same, onward'⟩ := scans.uncons
        rw [yylex_separator _ _ (.inr delimiter)] at same onward'
        obtain rfl := same
        rcases left with ⟨-, rfl, -⟩ | ⟨-, rfl, rfl⟩
        · rcases separator with same | same <;> cases same
        · exact ⟨readable, ih firsts nulFree.2 (onward' nofun)⟩

end Bindings

end Desh
