/-
This file says what `yylex` gives for a string that `%S` printed, whatever comes
behind it: when its first token carries the whole string, and that it starts
with no separator. The strings of a closure or of an assignment are read back
one by one with these facts.
-/

import Desh.Quote

namespace Desh

/-! ### Strings printed as one token -/

/-- Is the string printed as it is? -/
def isBare (s : Text) : Bool := !s.isEmpty && s.all fun c => !nonWord c && c != '@'.toUInt8

/-- The strings that are printed as one token which carries them. -/
def Whole (s : Text) : Prop :=
  s ∉ relationalWords ∧ backslashBeforeQuote s = false ∧
    (isBare s = true ∨ s.length ≤ 1 ∨ s.all isprint = true)

instance (s : Text) : Decidable (Whole s) := inferInstanceAs (Decidable (_ ∧ _))

/-- The tokens that come between words: what ends a command or joins words. -/
def Token.separates : Token → Bool
  | .NL | .ENDFILE => true
  | .char c =>
      c == ';'.toUInt8 || c == '&'.toUInt8 || c == ')'.toUInt8 || c == '='.toUInt8 ||
        c == '^'.toUInt8
  | _ => false

theorem sconv_bare {s : Text} (bare : isBare s = true) : sconv false s = s := by
  refine if_neg ?_
  simp only [isBare, Bool.and_eq_true, Bool.not_eq_true', List.all_eq_true, bne_iff_ne] at bare
  simp only [Bool.or_eq_true, Bool.false_eq_true, false_or, not_or, Bool.not_eq_true, bare.1,
    List.any_eq_false, beq_iff_eq]
  exact bare.2

theorem sconv_quoted {s : Text} (quoted : isBare s = false) :
    sconv false s = sconvQuoted .begin s := by
  refine if_pos ?_
  by_contra plain
  simp only [Bool.or_eq_true, Bool.false_eq_true, false_or, not_or, Bool.not_eq_true,
    List.any_eq_false, Bool.or_eq_true, beq_iff_eq] at plain
  refine absurd quoted ?_
  simp only [isBare, plain.1, Bool.not_false, Bool.true_and, Bool.not_eq_false, List.all_eq_true,
    Bool.and_eq_true, Bool.not_eq_true', bne_iff_ne]
  exact fun c member => plain.2 c member

/-- What a bare string consists of. -/
theorem isBare_cases {s : Text} (bare : isBare s = true) :
    ∃ c t, s = c :: t ∧ (∀ e ∈ c :: t, nonWord e = false) ∧ c :: t ≠ ['@'.toUInt8] := by
  cases s with
  | nil => cases bare
  | cons c t =>
    simp only [isBare, Bool.and_eq_true, List.all_eq_true, Bool.not_eq_true', bne_iff_ne] at bare
    refine ⟨c, t, rfl, fun e member => (bare.2 e member).1, fun same => ?_⟩
    exact (bare.2 c List.mem_cons_self).2 (List.cons.inj same).1

/-! ### The first token -/

section

variable {s follow : Text}

/-- The quoted form of a string of printable bytes. -/
theorem sconvQuoted_printable (printable : s.all isprint = true) :
    sconvQuoted .begin s = 39 :: (doubleQuotes s ++ [39]) := by
  cases s with
  | nil => rfl
  | cons c s =>
    rw [List.all_cons, Bool.and_eq_true] at printable
    have all : s.takeWhile isprint = s :=
      List.takeWhile_eq_self_iff.mpr fun d => List.all_eq_true.mp printable.2 d
    have none : s.dropWhile isprint = [] :=
      List.dropWhile_eq_nil_iff.mpr fun d => List.all_eq_true.mp printable.2 d
    rw [sconvQuoted_begin_printable printable.1, all, none]
    simp [sconvQuoted]

/-- A string that is printed as one token is read back. -/
theorem yylex_whole (whole : Whole s) (nulFree : NulFree s) (ends : Follows follow)
    (stops : Stops follow)
    (dash : isBare s = true → s.head? = some '-'.toUInt8 → follow.head? ≠ some '='.toUInt8) :
    ∃ w, (yylex (reading .nonWord (sconv false s ++ follow))).2 = reading w follow ∧
      swordText (yylex (reading .nonWord (sconv false s ++ follow))).1 = some s := by
  obtain ⟨relational, safe, form⟩ := whole
  cases bare : isBare s
  case true =>
    rw [sconv_bare bare]
    obtain ⟨c, t, rfl, plain, lone⟩ := isBare_cases bare
    obtain ⟨w, left, text⟩ := yylex_bare c t follow plain lone stops fun isDash =>
      dash bare (congrArg some isDash)
    exact ⟨w, left, by rw [text, if_neg relational]⟩
  rw [sconv_quoted bare]
  by_cases printable : s.all isprint = true
  · have head : follow.head? ≠ some 39 := fun quote => (ends 39 quote).1 rfl
    have all : ∀ c ∈ s, isprint c = true := List.all_eq_true.mp printable
    rw [backslashBeforeQuote_printable all] at safe
    rw [sconvQuoted_printable printable]
    have read := yylex_doubleQuotes s follow (oneLine_of_printable all) head safe
    rw [List.cons_append, List.append_assoc, List.singleton_append, read]
    exact ⟨_, rfl, rfl⟩
  · rw [bare, or_iff_left printable] at form
    have short := form.resolve_left Bool.false_ne_true
    cases s with
    | nil => exact absurd rfl printable
    | cons c t =>
      obtain rfl : t = [] :=
        List.length_eq_zero_iff.mp (Nat.le_zero.mp (Nat.le_of_succ_le_succ short))
      have unprintable : isprint c = false := by simpa using printable
      rw [sconvQuoted_begin_escape unprintable,
        show sconvQuoted .unquoted [] = [] from rfl, List.append_nil,
        yylex_sconvEscape c follow (nulFree_cons.mp nulFree).1 ends]
      exact ⟨_, rfl, rfl⟩

theorem keyword_dash (d : UInt8) (s : Text) (next : Option UInt8) :
    keyword ('-'.toUInt8 :: d :: s) next = none := rfl

/-- Only such a string is carried by the first token. -/
theorem whole_of_yylex (nulFree : NulFree s) (ends : Follows follow) (stops : Stops follow)
    (text : swordText (yylex (reading .nonWord (sconv false s ++ follow))).1 = some s) :
    Whole s ∧ (isBare s = true → s.head? = some '-'.toUInt8 → follow.head? ≠ some '='.toUInt8) := by
  cases bare : isBare s
  case true =>
    rw [sconv_bare bare] at text
    obtain ⟨c, t, rfl, plain, lone⟩ := isBare_cases bare
    have dash : c = '-'.toUInt8 → follow.head? ≠ some '='.toUInt8 := by
      rintro rfl head
      -- the word goes on behind the `=`, which the string does not hold
      rw [List.cons_append, yylex_word _ _ (plain _ List.mem_cons_self), lexWord] at text
      simp only [Bool.false_eq_true, if_false, if_true] at text
      obtain ⟨rest, rfl⟩ := List.head?_eq_some_iff.mp head
      have word : ∀ e ∈ t, (!argumentNonWord e) = true := fun e member => by
        simp [argumentNonWord, plain e (List.mem_cons_of_mem _ member)]
      rw [List.takeWhile_append_of_pos word, List.takeWhile_cons_of_pos (by decide)] at text
      obtain ⟨d, u, same⟩ : ∃ d u, t ++ '='.toUInt8 ::
          rest.takeWhile (fun e => !argumentNonWord e) = d :: u := by
        cases t <;> exact ⟨_, _, rfl⟩
      rw [same, keyword_dash] at text
      have longer := congrArg List.length (List.cons.inj (Option.some.inj text)).2
      rw [← same] at longer
      simp at longer
    obtain ⟨_, -, read⟩ := yylex_bare c t follow plain lone stops dash
    rw [read] at text
    by_cases relational : c :: t ∈ relationalWords
    · rw [if_pos relational] at text
      cases text
    · exact ⟨⟨relational, backslashBeforeQuote_plain _ plain, .inl bare⟩,
        fun _ head => dash (Option.some.inj head)⟩
  refine ⟨?_, by simp⟩
  rw [sconv_quoted bare] at text
  have relational : s ∉ relationalWords := fun member => by
    have isBare : ∀ word ∈ relationalWords, isBare word = true := by decide
    exact absurd (isBare s member) (by rw [bare]; decide)
  cases s with
  | nil => decide
  | cons c t =>
    obtain ⟨printed, piece, rest, split, nonempty, print, shape, lossy⟩ :=
      sconvQuoted_begin_cons c t
    rw [print, List.append_assoc] at text
    cases here : backslashBeforeQuote piece
    · rw [yylex_piece (nulFree_cons.mp nulFree).1 shape _ (follows_unquoted rest follow ends)
        here] at text
      obtain rfl := List.append_right_eq_self.mp (split.symm.trans (Option.some.inj text).symm)
      rw [List.append_nil] at split
      rw [here] at lossy
      refine ⟨relational, lossy, .inr ?_⟩
      rw [split]
      rcases shape with ⟨-, rfl, -⟩ | ⟨printable, -⟩
      · exact .inl le_rfl
      · exact .inr (List.all_eq_true.mpr printable)
    · -- a backslash alone would not be printable
      rcases shape with ⟨unprintable, rfl, -⟩ | ⟨printable, rfl⟩
      · have other : c ≠ 92 := by
          rintro rfl
          exact absurd unprintable (by decide)
        simp [backslashBeforeQuote, beq_false_of_ne other] at here
      rw [List.cons_append, List.append_assoc, List.singleton_append] at text
      exact absurd (by rw [← split]) (not_prefix_of_backslash rest printable here text)

theorem keyword_not_separates (buf : Text) (next : Option UInt8) :
    ∀ token ∈ keyword buf next, token.separates = false := by
  unfold keyword
  split
  · rename_i k
    by_cases special : k = '@'.toUInt8 ∨ k = '~'.toUInt8
    · rw [if_pos special]
      rintro _ ⟨⟩
      rcases special with rfl | rfl <;> decide
    · rw [if_neg special]
      exact mem_ite (Token.separates · = false) rfl nofun
  · repeat' apply mem_ite (Token.separates · = false)
    all_goals first | rfl | nofun

theorem lexQuote_not_separates (lexer : Lexer) (quote : UInt8) (input : Text) :
    (lexQuote lexer quote input).1.separates = false := by
  unfold lexQuote
  split <;> rfl

/-- No printed string starts with a separator. -/
theorem sconv_not_separates (nulFree : NulFree s) (ends : Follows follow) :
    (yylex (reading .nonWord (sconv false s ++ follow))).1.separates = false := by
  cases bare : isBare s
  case true =>
    rw [sconv_bare bare]
    obtain ⟨c, t, rfl, plain, -⟩ := isBare_cases bare
    rw [List.cons_append, yylex_word _ _ (plain _ List.mem_cons_self), lexWord]
    split
    · rename_i token found
      exact keyword_not_separates _ _ token found
    · rfl
  rw [sconv_quoted bare]
  cases s with
  | nil => exact yylex_quote _ ▸ lexQuote_not_separates _ _ _
  | cons c t =>
    obtain ⟨printed, piece, rest, -, -, print, shape, -⟩ := sconvQuoted_begin_cons c t
    rw [print, List.append_assoc]
    rcases shape with ⟨-, -, rfl⟩ | ⟨-, rfl⟩
    · rw [yylex_sconvEscape c _ (nulFree_cons.mp nulFree).1 (follows_unquoted rest follow ends)]
      rfl
    · rw [List.cons_append, yylex_quote]
      exact lexQuote_not_separates _ _ _

end

end Desh
