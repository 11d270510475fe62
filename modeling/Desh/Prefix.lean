/-
This file compares the bindings in front of a closure with what the parser reads
of them: where `extract` makes strings of all their values, each name and each
value is one token, and where they are read as they were printed, `extract`
gives them back.
-/

import Mathlib.Data.List.ReduceOption
import Desh.Getclosure
import Desh.Literal
import Desh.Reading

namespace Desh

open Desh.Tree

/-! ### What is read of extracted bindings -/

/-- A binding of strings as `extract` gives it. -/
def toValues (b : Text × List Text) : Text × List Value := (b.1, b.2.map .str)

/-- Bindings that hold strings only. -/
def AllStrings (bindings : List (Text × List Value)) : Prop :=
  ∀ b ∈ bindings, ∀ value ∈ b.2, ∃ s, value = .str s

open Derivation in
/-- Values that are strings come from literal words. -/
theorem literal_of_extractWords {l : List Tree} {list result : List Value}
    (extracted : extractWords l list = .ok result) (strings : .nested ∉ result) :
    ∃ values, List.Forall₂ LiteralTree values l ∧
      result = values.reverse.map .str ++ list := by
  fun_induction extractWords l list with
  | case1 list =>
    cases extracted
    exact ⟨[], .nil, rfl⟩
  | case2 s defn list ih =>
    obtain ⟨values, literal, rfl⟩ := ih extracted
    exact ⟨s :: values, .cons (.inl rfl) literal, by simp⟩
  | case3 s defn list ih =>
    obtain ⟨values, literal, rfl⟩ := ih extracted
    exact ⟨s :: values, .cons (.inr rfl) literal, by simp⟩
  | case5 _ _ _ _ _ ih =>
    obtain ⟨values, -, rfl⟩ := ih extracted
    simp at strings
  | case4 | case6 | case7 | case8 | case9 | case10 => cases extracted

open Derivation in
/-- Literal words are extracted as they are. -/
theorem extractWords_literal {l : List Tree} {values : List Text}
    (literal : List.Forall₂ LiteralTree values l) (list : List Value) :
    extractWords l list = .ok (values.reverse.map .str ++ list) := by
  induction literal generalizing list with
  | nil => rfl
  | cons first _ ih =>
    rcases first with rfl | rfl <;>
    · rw [extractWords, ih]
      simp

namespace Derivation

theorem carries_of_literal {derivation : Derivation .word} {s : Text} {tree : Tree}
    (fits : derivation.piece.Fits tree) (literal : LiteralTree s tree) :
    derivation.Carries s := by
  unfold Carries
  cases isPiece : derivation.piece <;> rw [isPiece] at fits <;> rcases literal with rfl | rfl <;>
    cases fits
  · exact .inl rfl
  · exact .inr rfl

section Returned

variable {parser after : Parser}

theorem wordList_of_literal {derivation : Derivation .words} {values : List Text} {l : List Tree}
    (returned : action id derivation parser = .returns (ofList l) after)
    (literal : List.Forall₂ LiteralTree values l) :
    List.Forall₂ Carries derivation.wordList values := by
  obtain ⟨l', same, fits⟩ := words_pieces returned
  obtain rfl := ofList_injective same
  rw [pieces_wordList, List.forall₂_map_left_iff] at fits
  clear returned same
  generalize derivation.wordList = list at fits
  induction fits generalizing values with
  | nil =>
    cases literal
    exact .nil
  | cons fit _ ih =>
    cases literal with
    | cons isLiteral others => exact .cons (carries_of_literal fit isLiteral) (ih others)

theorem carried_items {list : List (Derivation .word)} {values : List Text}
    (carries : List.Forall₂ Carries list values) :
    ∃ tokens : List Token, list.flatMap items = tokens.map .shift ∧
      List.Forall₂ (swordText · = some ·) tokens values := by
  induction carries with
  | nil => exact ⟨[], rfl, .nil⟩
  | cons first _ ih =>
    obtain ⟨token, same, text⟩ := carries_items first
    obtain ⟨tokens, others, texts⟩ := ih
    exact ⟨token :: tokens, by rw [List.flatMap_cons, same, others]; rfl, .cons text texts⟩

/-- What is read of a binding that `extract` takes for one of strings. -/
theorem fills_of_extract {derivation : Derivation .binding} {tree : Tree}
    (returned : action id derivation parser = .returns tree after)
    {bindings result : List (Text × List Value)}
    (extracted : extract (ofList (if tree = null then [] else [tree])) bindings = .ok result)
    (strings : AllStrings result) :
    ∃ b, Fills b derivation.items ∧ result = (b.toList.map toValues) ++ bindings := by
  cases derivation with
  | bindingEmpty =>
    rw [if_pos (eq_of_pure returned).symm] at extracted
    cases extracted
    exact ⟨none, rfl, rfl⟩
  | bindingFn fn =>
    obtain ⟨name, defn, rfl⟩ := @fn_of_returns _ _ fn _ returned
    cases extracted
  | bindingAssign word assign =>
    obtain ⟨w, _, isWord, rest⟩ := returns_of_bind returned
    obtain ⟨v, _, isAssign, made⟩ := returns_of_bind rest
    obtain rfl := eq_of_pure made
    rw [if_neg nofun, extract_cons, if_neg nofun] at extracted
    cases assign with
    | assignWords before behind words =>
      obtain ⟨l, rfl, -⟩ := words_pieces isAssign
      have named : ∃ name, LiteralTree name w ∧ extractBinding (nAssign w (ofList l)) = (do
          let list ← extractWords l.reverse []
          validatevar name
          .ok (name, list)) := by
        cases w with
        | nWord name => exact ⟨name, .inl rfl, by rw [extractBinding, listOf_ofList]⟩
        | nQword name => exact ⟨name, .inr rfl, by rw [extractBinding, listOf_ofList]⟩
        | _ => cases extracted
      obtain ⟨name, isName, read⟩ := named
      rw [read] at extracted
      cases words' : extractWords l.reverse [] with
      | error failure => rw [words'] at extracted; cases extracted
      | ok list =>
        have onward : (validatevar name >>= fun _ => .ok (name, list)).bind
            (fun binding => extract (ofList []) (binding :: bindings)) = .ok result := by
          rw [words'] at extracted
          exact extracted
        cases valid : validatevar name with
        | error failure => rw [valid] at onward; cases onward
        | ok =>
          rw [valid] at onward
          cases onward
          obtain ⟨values, literal, rfl⟩ := literal_of_extractWords words' fun nested => by
            obtain ⟨s, same⟩ := strings _ List.mem_cons_self _ nested
            cases same
          have carries := wordList_of_literal isAssign
            (List.forall₂_reverse_iff.mp (by rwa [List.reverse_reverse]) :
              List.Forall₂ LiteralTree values.reverse l)
          obtain ⟨tokens, items, texts⟩ := carried_items carries
          obtain ⟨token, isToken, text⟩ :=
            carries_items (carries_of_literal (fits_word isWord) isName)
          refine ⟨some (name, values.reverse), ⟨token, tokens, before, behind, text, texts, ?_⟩, ?_⟩
          · rw [Derivation.items, isToken, Derivation.items, items_wordList, items]
            simp
          · simp [toValues]

end Returned

theorem listing_concat {read : List (Option (Text × List Text))} {b : Option (Text × List Text)}
    {items others : List Item} {token : Token} (listing : Listing read items)
    (separator : token = .char ';'.toUInt8 ∨ token = .NL) (fills : Fills b others) :
    Listing (read ++ [b]) (items ++ .shift token :: others) := by
  induction listing with
  | one first => exact .more first separator (.one fills)
  | more first separator' _ ih =>
    rw [List.append_assoc, List.cons_append]
    exact .more first separator' ih

theorem ok_of_bind {α β : Type} {first : Except Failure α} {next : α → Except Failure β}
    {result : β} (returned : first.bind next = .ok result) :
    ∃ value, first = .ok value ∧ next value = .ok result := by
  cases first with
  | error failure => cases returned
  | ok value => exact ⟨value, rfl, returned⟩

/-- What is read of bindings that `extract` takes for ones of strings. -/
theorem listing_of_extract : ∀ {derivation : Derivation .bindings} {parser after : Parser}
    {tree : Tree}, action id derivation parser = .returns tree after →
      ∃ l, tree = ofList l ∧ ∀ bindings result, extract (ofList l) bindings = .ok result →
        AllStrings result → ∃ read, Listing read derivation.items ∧
          result = (read.reduceOption.map toValues).reverse ++ bindings
  | .bindingsBinding binding, _, _, tree, returned => by
    obtain ⟨t, _, isBinding, made⟩ := returns_of_bind returned
    obtain rfl := Option.some.inj ((treecons2_null t).symm.trans (eq_of_check made))
    refine ⟨_, rfl, fun bindings result extracted strings => ?_⟩
    obtain ⟨b, fills, rfl⟩ := fills_of_extract isBinding extracted strings
    refine ⟨[b], .one fills, ?_⟩
    cases b <;> rfl
  | .bindingsSemicolon bindings binding, _, _, tree, returned
  | .bindingsNl bindings binding, _, _, tree, returned => by
    obtain ⟨_, _, isBindings, rest⟩ := returns_of_bind returned
    obtain ⟨t, _, isBinding, made⟩ := returns_of_bind rest
    obtain ⟨l, rfl, comes⟩ := listing_of_extract isBindings
    obtain rfl := Option.some.inj ((treeconsend2_ofList l t).symm.trans (eq_of_check made))
    refine ⟨_, rfl, fun first result extracted strings => ?_⟩
    have same : (if t = null then l else l ++ [t]) = l ++ if t = null then [] else [t] := by
      split
      · rw [List.append_nil]
      · rfl
    rw [same, extract_append] at extracted
    obtain ⟨middle, isMiddle, extracted⟩ := ok_of_bind extracted
    obtain ⟨b, fills, rfl⟩ := fills_of_extract isBinding extracted strings
    obtain ⟨read, listing, rfl⟩ := comes first middle isMiddle fun b member =>
      strings b (List.mem_append_right _ member)
    refine ⟨read ++ [b], ?_, ?_⟩
    · first
        | exact listing_concat listing (.inl rfl) fills
        | exact listing_concat listing (.inr rfl) fills
    · rw [List.reduceOption_append, List.reduceOption_singleton]
      cases b <;> simp

/-! ### Bindings read as they were printed -/

/-- Words joined by a caret are no list of literal words in front of a separator. -/
theorem not_caret {tokens : List Token} {values : List Text} {more rest : List Item}
    (carry : List.Forall₂ (swordText · = some ·) tokens values) (after : Separated rest) :
    punctuation '^' :: more ≠ tokens.map .shift ++ rest := by
  intro same
  cases carry with
  | nil =>
    obtain ⟨token, others, rfl, -, other⟩ := after
    exact other (Item.shift.inj (List.cons.inj same).1).symm
  | cons text =>
    rw [← Item.shift.inj (List.cons.inj same).1] at text
    cases text

/-- The actions make of a binding what `extract` takes for the binding given. -/
def Makes (derivation : Derivation .binding) (b : Option (Text × List Text)) : Prop :=
  ∃ tree, (∀ parser, action id derivation parser = .returns tree parser) ∧
    ∀ bindings, extract (ofList (if tree = null then [] else [tree])) bindings =
      .ok (b.toList.map toValues ++ bindings)

theorem makes_assign {word : Derivation .word} {words : Derivation .words} {name : Text}
    {values : List Text} {before behind : Bool} (carries : word.Carries name)
    (carry : List.Forall₂ Carries words.wordList values) (valid : validatevar name = .ok ()) :
    Makes (bindingAssign word (assignWords before behind words)) (some (name, values)) := by
  obtain ⟨w, isName, isWord⟩ := action_carries carries
  obtain ⟨l, literal, isWords⟩ := action_words carry
  refine ⟨nAssign w (ofList l), fun parser => ?_, fun bindings => ?_⟩
  · have isAssign : action id (assignWords before behind words) parser =
        .returns (ofList l) parser := isWords parser
    rw [action, bind_of_returns (isWord parser), bind_of_returns isAssign]
    rfl
  · rw [if_neg (by simp), extract_cons, if_neg (by simp)]
    have read : extractBinding (nAssign w (ofList l)) = .ok (toValues (name, values)) := by
      have strings := extractWords_literal (List.rel_reverse literal) []
      rw [List.reverse_reverse, List.append_nil] at strings
      rcases isName with rfl | rfl <;>
      · rw [extractBinding, listOf_ofList]
        dsimp only
        rw [strings, valid]
        rfl
    rw [read]
    rfl

/-- A binding read as it was printed. -/
theorem makes_of_items {derivation : Derivation .binding} {b : Option (Text × List Text)}
    {items more rest : List Item} (same : derivation.items ++ more = items ++ rest)
    (fills : Fills b items) (plain : punctuation '^' ∉ items)
    (valid : ∀ q ∈ b, validatevar q.1 = .ok ()) (before : Separated more)
    (after : Separated rest) : more = rest ∧ Makes derivation b := by
  obtain ⟨first, others, rfl, isFirst, -⟩ := id before
  obtain ⟨last, others', rfl, isLast, -⟩ := id after
  cases b with
  | none =>
    obtain rfl := show items = [] from fills
    rw [List.nil_append] at same
    cases derivation with
    | bindingEmpty => exact ⟨same, _, fun _ => rfl, fun _ => rfl⟩
    | bindingFn fn =>
      cases fn <;> cases (List.cons.inj same).1 <;> cases isLast
    | bindingAssign word assign =>
      obtain ⟨token, tail, starts, other⟩ := starts_word word trivial
      rw [items, starts] at same
      rw [← Item.shift.inj (List.cons.inj same).1, other] at isLast
      cases isLast
  | some q =>
    obtain ⟨token, values, caret₁, caret₂, text, carry, rfl⟩ := fills
    obtain rfl : caret₁ = false := by
      cases caret₁ with
      | false => rfl
      | true => simp [caret] at plain
    obtain rfl : caret₂ = false := by
      cases caret₂ with
      | false => rfl
      | true => simp [caret] at plain
    change derivation.items ++ _ = .shift token :: punctuation '=' :: values.map .shift ++ _ at same
    cases derivation with
    | bindingEmpty =>
      rw [Item.shift.inj (List.cons.inj same).1, separates_of_literal text] at isFirst
      cases isFirst
    | bindingFn fn =>
      -- a function goes on with a name
      have named : ∃ (word : Derivation .word) (tail : List Item),
          fn.items = .shift .FN :: (word.items ++ tail) := by
        cases fn with
        | fnBody word params body => exact ⟨word, _, by simp [Derivation.items]; rfl⟩
        | fnWord word => exact ⟨word, [], by simp [Derivation.items]⟩
      obtain ⟨word, tail, isFn⟩ := named
      obtain ⟨token', more, starts, other⟩ := starts_word word trivial
      rw [items, isFn, starts] at same
      rw [Item.shift.inj (List.cons.inj (List.cons.inj same).2).1] at other
      cases other
    | bindingAssign word assign =>
      cases assign with
      | assignWords before behind words =>
        rw [items, items, List.append_assoc] at same
        obtain ⟨-, same, carries⟩ := literal_word same text (by
          intro caret
          cases caret)
        obtain rfl : before = false := by
          cases before with
          | false => rfl
          | true => cases (List.cons.inj same).1
        have same := (List.cons.inj same).2
        obtain rfl : behind = false := by
          cases behind with
          | false => rfl
          | true => exact absurd same (not_caret carry after)
        change words.items ++ _ = _ at same
        rw [items_wordList] at same
        obtain ⟨same, carry⟩ := literal_wordList same carry before after
        exact ⟨same, makes_assign carries carry (valid q rfl)⟩

/-- The actions make of bindings what `extract` takes for the bindings given. -/
def MakesAll (derivation : Derivation .bindings) (read : List (Option (Text × List Text))) : Prop :=
  ∃ l, (∀ parser, action id derivation parser = .returns (ofList l) parser) ∧
    ∀ bindings, extract (ofList l) bindings =
      .ok ((read.reduceOption.map toValues).reverse ++ bindings)

theorem Makes.single {derivation : Derivation .binding} {b : Option (Text × List Text)}
    (makes : Makes derivation b) : MakesAll (bindingsBinding derivation) [b] := by
  obtain ⟨tree, returned, extracted⟩ := makes
  refine ⟨_, fun parser => ?_, fun bindings => (extracted bindings).trans ?_⟩
  · rw [action, bind_of_returns (returned parser), treecons2_null]
    rfl
  · cases b <;> rfl

theorem MakesAll.concat {derivation : Derivation .bindings} {binding : Derivation .binding}
    {read : List (Option (Text × List Text))} {b : Option (Text × List Text)}
    (all : MakesAll derivation read) (makes : Makes binding b) :
    MakesAll (bindingsSemicolon derivation binding) (read ++ [b]) := by
  obtain ⟨l, returned, extracted⟩ := all
  obtain ⟨tree, returned', extracted'⟩ := makes
  have same : (if tree = null then l else l ++ [tree]) =
      l ++ if tree = null then [] else [tree] := by
    split
    · rw [List.append_nil]
    · rfl
  refine ⟨if tree = null then l else l ++ [tree], fun parser => ?_, fun bindings => ?_⟩
  · rw [action, bind_of_returns (returned parser), bind_of_returns (returned' parser),
      treeconsend2_ofList]
    rfl
  · rw [same, extract_append, extracted]
    refine (extracted' _).trans ?_
    rw [List.reduceOption_append, List.reduceOption_singleton]
    cases b <;> simp

/-- A binding read as the first of those printed: the last one, or others follow. -/
theorem makes_of_listing {derivation : Derivation .binding}
    {read : List (Option (Text × List Text))} {items more rest : List Item}
    (listing : Listing read items)
    (same : derivation.items ++ more = items ++ punctuation ')' :: rest)
    (plain : punctuation '^' ∉ items) (valid : ∀ q ∈ read.reduceOption, validatevar q.1 = .ok ())
    (before : Separated more) :
    ∃ b, Makes derivation b ∧
      ((read = [b] ∧ more = punctuation ')' :: rest) ∨
        ∃ others others' token, read = b :: others ∧ Listing others others' ∧ others' <:+ items ∧
          (token = .char ';'.toUInt8 ∨ token = .NL) ∧
            more = .shift token :: (others' ++ punctuation ')' :: rest)) := by
  have closes : Separated (punctuation ')' :: rest) := ⟨_, _, rfl, rfl, by decide⟩
  cases listing with
  | @one b items fills =>
    obtain ⟨rest, makes⟩ := makes_of_items same fills plain
      (fun q member => valid q (by cases member; exact List.mem_cons_self)) before closes
    exact ⟨b, makes, .inl ⟨rfl, rest⟩⟩
  | @more b others items others' token fills separator listing =>
    rw [List.append_assoc, List.cons_append] at same
    have separated : Separated (.shift token :: (others' ++ punctuation ')' :: rest)) := by
      rcases separator with rfl | rfl <;> exact ⟨_, _, rfl, rfl, by decide⟩
    obtain ⟨rest, makes⟩ := makes_of_items same fills
      (fun member => plain (List.mem_append_left _ member))
      (fun q member => valid q (by cases member; exact List.mem_cons_self)) before separated
    refine ⟨b, makes, .inr ⟨others, others', token, rfl, listing, ?_, separator, rest⟩⟩
    exact (List.suffix_cons _ _).trans (List.suffix_append _ _)

/-- Bindings read as they were printed: all of them, or others follow. -/
theorem makesAll_of_listing : ∀ {derivation : Derivation .bindings}
    {read : List (Option (Text × List Text))} {items more rest : List Item},
    Listing read items → derivation.items ++ more = items ++ punctuation ')' :: rest →
      punctuation '^' ∉ items → (∀ q ∈ read.reduceOption, validatevar q.1 = .ok ()) →
        Separated more →
          (MakesAll derivation read ∧ more = punctuation ')' :: rest) ∨
            ∃ first others others' token, read = first ++ others ∧ MakesAll derivation first ∧
              Listing others others' ∧ others' <:+ items ∧
                (token = .char ';'.toUInt8 ∨ token = .NL) ∧
                  more = .shift token :: (others' ++ punctuation ')' :: rest)
  | .bindingsBinding binding, read, items, more, rest, listing, same, plain, valid, before => by
    obtain ⟨b, makes, ⟨rfl, last⟩ | ⟨others, others', token, rfl, listing, within, onward⟩⟩ :=
      makes_of_listing listing same plain valid before
    · exact .inl ⟨makes.single, last⟩
    · exact .inr ⟨[b], others, others', token, rfl, makes.single, listing, within, onward⟩
  | .bindingsSemicolon bindings binding, read, items, more, rest, listing, same, plain, valid,
      before
  | .bindingsNl bindings binding, read, items, more, rest, listing, same, plain, valid, before => by
    rw [Derivation.items, List.append_assoc, List.cons_append] at same
    obtain ⟨-, last⟩ | ⟨first, others, others', token, rfl, makes, listing, within, -, onward⟩ :=
      makesAll_of_listing listing same plain valid ⟨_, _, rfl, rfl, by decide⟩
    · cases (List.cons.inj last).1
    have caret : punctuation '^' ∉ others' := fun member => plain (within.mem member)
    have named : ∀ q ∈ others.reduceOption, validatevar q.1 = .ok () := fun q member =>
      valid q (by rw [List.reduceOption_append]; exact List.mem_append_right _ member)
    obtain ⟨b, isBinding, ⟨rfl, last⟩ | ⟨others, others', token, rfl, listing, within', rest⟩⟩ :=
      makes_of_listing listing (List.cons.inj onward).2 caret named before
    · exact .inl ⟨makes.concat isBinding, last⟩
    · exact .inr ⟨first ++ [b], others, others', token, by simp, makes.concat isBinding, listing,
        within'.trans within, rest⟩

/-! ### There are such bindings -/

theorem exists_binding {b : Option (Text × List Text)} {items : List Item} (fills : Fills b items)
    (typed : ∀ token, .shift token ∈ items → token.Typed) :
    ∃ derivation : Derivation .binding, derivation.items = items := by
  cases b with
  | none => exact ⟨bindingEmpty, (show items = [] from fills).symm⟩
  | some q =>
    obtain ⟨token, values, before, behind, text, carry, rfl⟩ := fills
    obtain ⟨sword, isName⟩ := exists_sword (typed token List.mem_cons_self) text
    obtain ⟨words, isWords⟩ := exists_words wordsNil
      (fun value member => typed value (by simp [List.mem_map_of_mem member])) carry
    refine ⟨bindingAssign (wordSword sword) (assignWords before behind words), ?_⟩
    rw [items, items, items, isName, isWords, items]
    simp

/-- There are bindings that are read so, and they may follow others. -/
theorem exists_bindings {read : List (Option (Text × List Text))} {items : List Item}
    (listing : Listing read items) (typed : ∀ token, .shift token ∈ items → token.Typed) :
    (∃ derivation : Derivation .bindings, derivation.items = items) ∧
      ∀ (bindings : Derivation .bindings) (token : Token),
        token = .char ';'.toUInt8 ∨ token = .NL →
          ∃ derivation : Derivation .bindings,
            derivation.items = bindings.items ++ .shift token :: items := by
  have following : ∀ (binding : Derivation .binding) (bindings : Derivation .bindings)
      (token : Token), token = .char ';'.toUInt8 ∨ token = .NL →
        ∃ derivation : Derivation .bindings,
          derivation.items = bindings.items ++ .shift token :: binding.items := by
    rintro binding bindings token (rfl | rfl)
    · exact ⟨bindingsSemicolon bindings binding, rfl⟩
    · exact ⟨bindingsNl bindings binding, rfl⟩
  induction listing with
  | one fills =>
    obtain ⟨binding, rfl⟩ := exists_binding fills typed
    exact ⟨⟨bindingsBinding binding, rfl⟩, following binding⟩
  | more fills separator _ ih =>
    obtain ⟨binding, rfl⟩ := exists_binding fills fun token member =>
      typed token (List.mem_append_left _ member)
    obtain ⟨-, more⟩ := ih fun token member =>
      typed token (List.mem_append_right _ (List.mem_cons_of_mem _ member))
    refine ⟨more (bindingsBinding binding) _ separator, fun bindings token isSeparator => ?_⟩
    obtain ⟨derivation, same⟩ := following binding bindings token isSeparator
    obtain ⟨derivation', same'⟩ := more derivation _ separator
    exact ⟨derivation', by rw [same', same]; simp⟩

end Derivation

end Desh
