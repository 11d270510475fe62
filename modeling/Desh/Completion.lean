/-
This file models `copy_term`, by which completion hands a term to the shell: the
term is copied between quotes, into a command that the shell then reads. The
first character goes another way than the others, and a term that starts with a
quote gets no opening quote; a backslash is copied as it is, though the scanner
gives it a meaning in front of a quote. The file proves which terms are read
back as one quoted word.
-/

import Desh.Quote

namespace Desh

/-! ### The quoter -/

/-- The loop of `copy_term`, from the offset it writes at: what it writes, and what it leaves of
the term. -/
def copyLoop (max : Nat) : Nat → Text → Text × Text
  | off, c :: d :: t =>
      if max - 3 ≤ off then ([], c :: d :: t)
      else
        let doubled := if c = 39 then [39, 39] else [c]
        let (written, left) := copyLoop max (off + doubled.length) (d :: t)
        (doubled ++ written, left)
  | _, t => ([], t)

/-- What `copy_term` writes before its loop, and after it without the closing quote. -/
def copyFirst (c : UInt8) : Text := if c = 39 then [] else [39, c]

def copyLast : Text → Text
  | c :: _ => if c = 39 then [] else [c]
  | [] => []

/-- `copy_term`: the text it appends. -/
def copyTerm (off max : Nat) : Text → Text
  | [] => [39, 39]
  | c :: t =>
      if c = 39 ∧ t = [] then [39, 39]
      else
        let (written, left) := copyLoop max (off + (copyFirst c).length) t
        copyFirst c ++ written ++ copyLast left ++ [39]

/-- The loop comes to the last character, so that the term is not truncated. -/
def Fits (off max : Nat) : Text → Prop
  | [] => True
  | c :: t => (copyLoop max (off + (copyFirst c).length) t).2.length ≤ 1

/-- A term without a trailing quote. -/
def dropQuote (t : Text) : Text := if t.getLast? = some 39 then t.dropLast else t

/-- A term without a leading and a trailing quote, where it has them. -/
def stripQuotes (t : Text) : Text := dropQuote (if t.head? = some 39 then t.tail else t)

theorem copyLoop_fits {max off : Nat} {t : Text} (nonempty : t ≠ [])
    (fits : (copyLoop max off t).2.length ≤ 1) :
    ∃ middle last, t = middle ++ [last] ∧ copyLoop max off t = (doubleQuotes middle, [last]) := by
  fun_induction copyLoop max off t with
  | case1 off c d t full => simp at fits
  | case2 off c d t space doubled written left loop inductionHypothesis =>
    rw [loop] at inductionHypothesis
    obtain ⟨middle, last, split, same⟩ := inductionHypothesis nofun fits
    cases same
    refine ⟨c :: middle, last, by rw [split, List.cons_append], ?_⟩
    rw [doubleQuotes_cons]
  | case3 off t short =>
    match t with
    | [] => exact absurd rfl nonempty
    | [last] => exact ⟨[], last, rfl, rfl⟩
    | c :: d :: t => exact absurd rfl (short c d t)

theorem dropQuote_append (middle : Text) (last : UInt8) :
    dropQuote (middle ++ [last]) = middle ++ copyLast [last] := by
  unfold dropQuote copyLast
  rw [List.getLast?_append, List.getLast?_singleton, List.dropLast_concat]
  by_cases quote : last = 39
  · rw [quote]
    simp
  · simp [quote]

theorem doubleQuotes_append (first second : Text) :
    doubleQuotes (first ++ second) = doubleQuotes first ++ doubleQuotes second :=
  List.flatMap_append

theorem doubleQuotes_copyLast (last : UInt8) :
    doubleQuotes (copyLast [last]) = copyLast [last] := by
  by_cases quote : last = 39
  · rw [quote]
    rfl
  · rw [show copyLast [last] = [last] from if_neg quote, doubleQuotes_cons, if_neg quote]
    rfl

/-- What is written behind the first character is what is left without a trailing quote. -/
theorem copyLoop_written {max off : Nat} {t : Text}
    (fits : (copyLoop max off t).2.length ≤ 1) :
    (copyLoop max off t).1 ++ copyLast (copyLoop max off t).2 = doubleQuotes (dropQuote t) := by
  by_cases empty : t = []
  · rw [empty]
    rfl
  · obtain ⟨middle, last, split, same⟩ := copyLoop_fits empty fits
    rw [same, split, dropQuote_append, doubleQuotes_append, doubleQuotes_copyLast]

/-- Does the copy have an opening quote? -/
def opened (t : Text) : Bool := t == [39] || t.head? != some 39

/-- A term that fits is copied with its quotes doubled, and without a quote at its ends. -/
theorem copyTerm_eq {off max : Nat} {t : Text} (fits : Fits off max t) :
    copyTerm off max t =
      (if opened t then [39] else []) ++ (doubleQuotes (stripQuotes t) ++ [39]) := by
  match t with
  | [] => rfl
  | c :: t =>
    rw [copyTerm]
    by_cases only : c = 39 ∧ t = []
    · rw [if_pos only, only.1, only.2]
      rfl
    · rw [if_neg only]
      have written := copyLoop_written fits
      rcases loop : copyLoop max (off + (copyFirst c).length) t with ⟨copied, left⟩
      rw [loop] at written
      dsimp only at written ⊢
      rw [List.append_assoc (copyFirst c), written]
      by_cases quote : c = 39
      · have more : t ≠ [] := fun empty => only ⟨quote, empty⟩
        have closed : opened (c :: t) = false := by simp [opened, quote, more]
        have strip : stripQuotes (c :: t) = dropQuote t := by simp [stripQuotes, quote]
        rw [closed, strip, copyFirst, if_pos quote]
        rfl
      · have isOpened : opened (c :: t) = true := by simp [opened, quote]
        have strip : stripQuotes (c :: t) = c :: dropQuote t := by
          unfold stripQuotes
          rw [if_neg (by simpa using quote)]
          rcases List.eq_nil_or_concat t with rfl | ⟨middle, last, rfl⟩
          · simp [dropQuote, quote]
          · rw [List.concat_eq_append, ← List.cons_append, dropQuote_append, dropQuote_append]
            rfl
        rw [isOpened, strip, copyFirst, if_neg quote, doubleQuotes_cons, if_neg quote]
        rfl

/-! ### Quoted words of the scanner -/

/-- A token that is no quoted word. -/
def Token.Unquoted : Token → Prop
  | .QWORD _ => False
  | _ => True

theorem keyword_unquoted (buf : Text) (next : Option UInt8) :
    ∀ token ∈ keyword buf next, token.Unquoted := by
  unfold keyword
  split <;> repeat' apply mem_ite Token.Unquoted
  all_goals first | trivial | nofun

theorem lexWord_unquoted (lexer : Lexer) (dollar : Bool) (c : UInt8) (rest : Text) :
    (lexWord lexer dollar c rest).1.Unquoted := by
  unfold lexWord
  dsimp only
  split
  · rename_i token found
    exact keyword_unquoted _ _ token found
  · trivial

theorem lexRedirection_unquoted (lexer : Lexer) (cmd : Text) (fd : Int) (input : Text) :
    (lexRedirection lexer cmd fd input).1.Unquoted := by
  unfold lexRedirection
  split
  · trivial
  · exact fst_ite Token.Unquoted trivial trivial

theorem lexLess_unquoted (lexer : Lexer) (input : Text) : (lexLess lexer input).1.Unquoted := by
  have redirection := lexRedirection_unquoted lexer
  unfold lexLess
  split
  · refine fst_ite Token.Unquoted ?_
      (fst_ite Token.Unquoted ?_ (fst_ite Token.Unquoted trivial (redirection _ _ _)))
    · split
      · exact fst_ite Token.Unquoted (redirection _ _ _) (redirection _ _ _)
      · exact redirection _ _ _
    · split
      · exact fst_ite Token.Unquoted (redirection _ _ _) (redirection _ _ _)
      · exact redirection _ _ _
  · exact redirection _ _ _

theorem lexGreater_unquoted (lexer : Lexer) (input : Text) :
    (lexGreater lexer input).1.Unquoted := by
  have redirection := lexRedirection_unquoted lexer
  unfold lexGreater
  split
  · refine fst_ite Token.Unquoted ?_
      (fst_ite Token.Unquoted (redirection _ _ _) (redirection _ _ _))
    split
    · exact fst_ite Token.Unquoted (redirection _ _ _) (redirection _ _ _)
    · exact redirection _ _ _
  · exact redirection _ _ _

theorem lexPipe_unquoted (lexer : Lexer) (input : Text) : (lexPipe lexer input).1.Unquoted := by
  refine fst_ite Token.Unquoted trivial ?_
  split
  · trivial
  · exact fst_ite Token.Unquoted trivial trivial

theorem lexComment_unquoted (lexer : Lexer) (input : Text) :
    (lexComment lexer input).1.Unquoted := by
  unfold lexComment
  split
  · trivial
  · exact fst_ite Token.Unquoted trivial trivial

/-- Quoted words come from quotes and backslashes. -/
theorem lexSpecial_unquoted (lexer : Lexer) {c : UInt8} (input : Text) (single : c ≠ 39)
    (double : c ≠ 34) (backslash : c ≠ 92) : (lexSpecial lexer c input).1.Unquoted := by
  unfold lexSpecial
  rw [if_neg (not_or.mpr ⟨single, double⟩), if_neg backslash]
  repeat' first
    | exact lexComment_unquoted _ _
    | exact lexPipe_unquoted _ _
    | exact lexLess_unquoted _ _
    | exact lexGreater_unquoted _ _
    | apply fst_ite Token.Unquoted
    | trivial
  change (if lexer.w = .realWord then Token.SUB else Token.char c).Unquoted
  split <;> trivial

theorem skipBlank_nonWord (input : Text) : (skipBlank .nonWord input).1 = .nonWord := by
  generalize start : WordState.nonWord = w
  fun_induction skipBlank w input <;> simp_all

theorem skipBlank_suffix (w : WordState) (input : Text) : (skipBlank w input).2 <:+ input := by
  fun_induction skipBlank w input with
  | case1 w => exact List.suffix_refl _
  | case2 w c input blank inductionHypothesis =>
    exact inductionHypothesis.trans (List.suffix_cons _ _)
  | case3 w => exact List.suffix_refl _
  | case4 w blank rest inductionHypothesis =>
    exact inductionHypothesis.trans ((List.suffix_cons _ _).trans (List.suffix_cons _ _))
  | case5 => exact List.suffix_refl _
  | case6 => exact List.suffix_refl _

/-- The scanner outside of a word, behind the blanks. -/
theorem yylex_skipBlank (input : Text) :
    yylex (reading .nonWord input) =
      match (skipBlank .nonWord input).2 with
      | [] => (.ENDFILE, reading .nonWord [])
      | c :: rest =>
          if c = 0 then interactiveCtrlC (reading .nonWord rest)
          else if nonWord c then lexSpecial (reading .nonWord (c :: rest)) c rest
          else lexWord (reading .nonWord (c :: rest)) false c rest := by
  unfold yylex
  simp only [reading, Bool.false_eq_true, if_false, skipBlank_nonWord]
  cases (skipBlank .nonWord input).2 with
  | nil => rfl
  | cons c rest =>
    dsimp only
    split_ifs <;> simp_all

/-- Where the scanner reads a quoted word, behind the blanks. -/
theorem yylex_qword {input s : Text} (word : (yylex (reading .nonWord input)).1 = .QWORD s) :
    ∃ c after, (skipBlank .nonWord input).2 = c :: after ∧
      ((c = 39 ∨ c = 34) ∧
          quoteLoop c after [] = .done s (yylex (reading .nonWord input)).2.input ∨
        c = 92 ∧ ∃ d rest, after = d :: rest ∧
          (lexEscape (reading .realWord (c :: after)) d rest).1 = .QWORD s) := by
  rw [yylex_skipBlank] at word ⊢
  cases skipped : (skipBlank .nonWord input).2 with
  | nil =>
    rw [skipped] at word
    cases word
  | cons c after =>
    rw [skipped] at word
    dsimp only at word ⊢
    refine ⟨c, after, rfl, ?_⟩
    by_cases zero : c = 0
    · rw [if_pos zero] at word
      cases word
    · rw [if_neg zero] at word ⊢
      by_cases special : nonWord c = true
      · rw [if_pos special] at word ⊢
        by_cases quote : c = 39 ∨ c = 34
        · refine .inl ⟨quote, ?_⟩
          have same : lexSpecial (reading .nonWord (c :: after)) c after =
              lexQuote (reading .nonWord (c :: after)) c after := by
            rcases quote with rfl | rfl <;> rfl
          rw [same, lexQuote] at word ⊢
          cases loop : quoteLoop c after [] with
          | done buf left =>
            rw [loop] at word
            cases word
            rfl
          | interrupt left =>
            rw [loop] at word
            cases word
          | eof =>
            rw [loop] at word
            cases word
        · by_cases backslash : c = 92
          · refine .inr ⟨backslash, ?_⟩
            subst backslash
            cases after with
            | nil => cases word
            | cons d rest => exact ⟨d, rest, rfl, word⟩
          · obtain ⟨single, double⟩ := not_or.mp quote
            have unquoted := lexSpecial_unquoted (reading .nonWord (c :: after)) after single
              double backslash
            rw [word] at unquoted
            exact unquoted.elim
      · rw [if_neg special] at word
        have unquoted := lexWord_unquoted (reading .nonWord (c :: after)) false c after
        rw [word] at unquoted
        exact unquoted.elim

/-- The characters of a quoted word, quotes counted twice. -/
def weight (quote : UInt8) (s : Text) : Nat := s.length + s.count quote

theorem weight_append (quote : UInt8) (first second : Text) :
    weight quote (first ++ second) = weight quote first + weight quote second := by
  unfold weight
  rw [List.length_append, List.count_append]
  omega

theorem weight_quote (quote : UInt8) : weight quote [quote] = 2 := by simp [weight]

theorem weight_other {quote c : UInt8} (other : c ≠ quote) : weight quote [c] = 1 := by
  simp [weight, other]

theorem length_doubleQuotes (s : Text) : (doubleQuotes s).length = weight 39 s := by
  induction s with
  | nil => rfl
  | cons c s inductionHypothesis =>
    rw [doubleQuotes_cons, List.length_append, inductionHypothesis,
      show c :: s = [c] ++ s from rfl, weight_append]
    by_cases quote : c = 39
    · rw [if_pos quote, quote, weight_quote]
      rfl
    · rw [if_neg quote, weight_other quote]
      rfl

/-- Each character of a quoted word takes one character of the input, and a quote takes two. -/
theorem quoteLoop_weight (quote : UInt8) (input buf : Text) {result left : Text}
    (finished : quoteLoop quote input buf = .done result left) :
    left.length + 1 + weight quote result ≤ input.length + weight quote buf := by
  fun_induction quoteLoop quote input buf with
  | case1 => cases finished
  | case2 buf =>
    cases finished
    exact Nat.le_refl _
  | case3 buf rest inductionHypothesis =>
    have bound := inductionHypothesis finished
    rw [weight_append, weight_quote] at bound
    rw [List.length_cons, List.length_cons]
    omega
  | case4 buf d rest other =>
    cases finished
    exact Nat.le_refl _
  | case5 => cases finished
  | case6 buf rest other inductionHypothesis =>
    have bound := inductionHypothesis finished
    rw [List.length_cons, List.length_cons]
    omega
  | case7 buf rest other line inductionHypothesis =>
    have bound := inductionHypothesis finished
    rw [weight_append, weight_quote] at bound
    rw [List.length_cons, List.length_cons]
    omega
  | case8 buf d rest line other backslash inductionHypothesis =>
    have bound := inductionHypothesis finished
    rw [weight_append, weight_other backslash, List.length_cons] at bound
    rw [List.length_cons, List.length_cons]
    omega
  | case9 => cases finished
  | case10 c input buf other backslash nonzero inductionHypothesis =>
    have bound := inductionHypothesis finished
    rw [weight_append, weight_other other] at bound
    rw [List.length_cons]
    omega

/-- A quoted word ends with its quote. -/
theorem quoteLoop_ends (quote : UInt8) (input buf : Text) {result left : Text}
    (finished : quoteLoop quote input buf = .done result left) : quote :: left <:+ input := by
  fun_induction quoteLoop quote input buf with
  | case1 => cases finished
  | case2 buf =>
    cases finished
    exact List.suffix_refl _
  | case3 buf rest inductionHypothesis =>
    exact (inductionHypothesis finished).trans ((List.suffix_cons _ _).trans (List.suffix_cons _ _))
  | case4 buf d rest other =>
    cases finished
    exact List.suffix_refl _
  | case5 => cases finished
  | case6 buf rest other inductionHypothesis =>
    exact (inductionHypothesis finished).trans ((List.suffix_cons _ _).trans (List.suffix_cons _ _))
  | case7 buf rest other line inductionHypothesis =>
    exact (inductionHypothesis finished).trans ((List.suffix_cons _ _).trans (List.suffix_cons _ _))
  | case8 buf d rest line other backslash inductionHypothesis =>
    exact (inductionHypothesis finished).trans (List.suffix_cons _ _)
  | case9 => cases finished
  | case10 c input buf other backslash nonzero inductionHypothesis =>
    exact (inductionHypothesis finished).trans (List.suffix_cons _ _)

/-- A token that is no quoted word of more than one character. -/
def Token.Short : Token → Prop
  | .QWORD s => s.length ≤ 1
  | _ => True

theorem lexNumber_short (lexer : Lexer) (n : UInt32) (input : Text) :
    (lexNumber lexer n input).1.Short := by
  refine fst_ite Token.Short trivial ?_
  change (oneByte n.toUInt8).length ≤ 1
  unfold oneByte
  split
  · exact Nat.zero_le 1
  · exact Nat.le_refl 1

theorem lexEscape_short (lexer : Lexer) (c : UInt8) (input : Text) :
    (lexEscape lexer c input).1.Short := by
  unfold lexEscape
  repeat' first
    | exact lexNumber_short _ _ _
    | apply fst_ite Token.Short
  all_goals first | trivial | exact Nat.le_refl 1

/-! ### Reading a term back -/

/-- The scanner reads the copy of a term, with a blank behind it, as one quoted word: the term
without its quotes. -/
def CopyReadsBack (off max : Nat) (t rest : Text) : Prop :=
  let read := yylex (reading .nonWord (copyTerm off max t ++ ' '.toUInt8 :: rest))
  read.1 = .QWORD (stripQuotes t) ∧ read.2.input = ' '.toUInt8 :: rest

/-- Without an opening quote, it is not read back. -/
theorem not_copyReadsBack_unopened (s rest : Text) :
    let read := yylex (reading .nonWord (doubleQuotes s ++ 39 :: ' '.toUInt8 :: rest))
    ¬(read.1 = .QWORD s ∧ read.2.input = ' '.toUInt8 :: rest) := by
  rintro read ⟨word, consumed⟩
  obtain ⟨c, after, skipped, cases⟩ := yylex_qword word
  have suffix := skipBlank_suffix .nonWord (doubleQuotes s ++ 39 :: ' '.toUInt8 :: rest)
  rw [skipped] at suffix
  rcases cases with ⟨quote, loop⟩ | ⟨backslash, d, more, split, escape⟩
  · rw [show (yylex (reading .nonWord (doubleQuotes s ++ 39 :: ' '.toUInt8 :: rest))).2.input = _
      from consumed] at loop
    rcases quote with rfl | rfl
    · -- the copy is one character too short for a word between single quotes
      have long := quoteLoop_weight 39 after [] loop
      have short := suffix.length_le
      rw [List.length_append, length_doubleQuotes, List.length_cons, List.length_cons] at short
      rw [show weight 39 [] = 0 from rfl] at long
      omega
    · -- the copy does not end with a double quote
      have ends := ((quoteLoop_ends 34 after [] loop).trans (List.suffix_cons _ _)).trans suffix
      obtain ⟨before, same⟩ := ends
      have lasts := (List.append_inj' same rfl).2
      cases lasts
  · -- an escape gives one character, and the one for a backslash is read as a quote
    have short := lexEscape_short (reading .realWord (c :: after)) d more
    rw [escape] at short
    have quoted : ∀ rest, (skipBlank .nonWord (39 :: rest)).2 = 39 :: rest := fun rest =>
      congrArg Prod.snd (skipBlank_of_ne .nonWord rest (by decide) (by decide) (by decide))
    subst backslash split
    match s with
    | [] =>
      rw [doubleQuotes_nil, List.nil_append, quoted] at skipped
      cases skipped
    | [e] =>
      by_cases quote : e = 39
      · subst quote
        rw [show doubleQuotes [39] = [39, 39] from rfl, List.cons_append, quoted] at skipped
        cases skipped
      · rw [show doubleQuotes [e] = [e] by rw [doubleQuotes_cons, if_neg quote]; rfl,
          List.singleton_append] at skipped
        by_cases backslash : e = 92
        · subst backslash
          rw [skipBlank_escape _ _ (by decide)] at skipped
          cases skipped
          cases escape
        · by_cases blank : e = ' '.toUInt8 ∨ e = '\t'.toUInt8
          · rw [skipBlank_space _ _ blank, quoted] at skipped
            cases skipped
          · obtain ⟨space, tab⟩ := not_or.mp blank
            rw [skipBlank_of_ne _ _ space tab backslash] at skipped
            exact backslash (List.cons.inj skipped).1
    | _ :: _ :: _ => exact absurd short (by simp [Token.Short])

/-- With an opening quote, it is read back unless a backslash comes before a quote. -/
theorem copyReadsBack_opened {s : Text} (oneLine : OneLine s) (rest : Text) :
    let read := yylex (reading .nonWord (39 :: (doubleQuotes s ++ 39 :: ' '.toUInt8 :: rest)))
    read.1 = .QWORD s ∧ read.2.input = ' '.toUInt8 :: rest ↔ backslashAtQuote s = false := by
  intro read
  have ends : (' '.toUInt8 :: rest).head? ≠ some 39 := fun same => nomatch same
  constructor
  · rintro ⟨word, -⟩
    refine Bool.eq_false_iff.mpr fun lossy => ?_
    obtain ⟨before, behind, split, result⟩ :=
      quoteLoop_backslashAtQuote s (' '.toUInt8 :: rest) [] oneLine lossy
    have quoted : (lexQuote (reading .nonWord (39 :: (doubleQuotes s ++ 39 :: ' '.toUInt8 :: rest)))
        39 (doubleQuotes s ++ 39 :: ' '.toUInt8 :: rest)).1 = .QWORD s := by
      rw [← yylex_quote]
      exact word
    rw [lexQuote] at quoted
    cases loop : quoteLoop 39 (doubleQuotes s ++ 39 :: ' '.toUInt8 :: rest) [] with
    | done buf left =>
      rw [loop] at quoted
      cases quoted
      obtain ⟨tail, whole⟩ := result _ _ loop
      rw [split] at whole
      simp at whole
    | interrupt left =>
      rw [loop] at quoted
      cases quoted
    | eof =>
      rw [loop] at quoted
      cases quoted
  · intro safe
    have read := yylex_doubleQuotes s (' '.toUInt8 :: rest) oneLine ends safe
    exact ⟨congrArg Prod.fst read, congrArg (fun read => read.2.input) read⟩

theorem oneLine_stripQuotes {t : Text} (oneLine : OneLine t) : OneLine (stripQuotes t) := by
  have drop : ∀ t, ∀ c ∈ dropQuote t, c ∈ t := by
    intro t c member
    unfold dropQuote at member
    split at member
    · exact List.mem_of_mem_dropLast member
    · exact member
  intro c member
  refine oneLine c ?_
  have inside := drop _ c member
  split at inside
  · exact List.mem_of_mem_tail inside
  · exact inside

/-- A term that fits is read back just if it has no leading quote, unless it is only a quote, and
if no backslash comes before a quote of it or stands at its end. -/
theorem copyReadsBack_iff (off max : Nat) (t rest : Text) (oneLine : OneLine t)
    (fits : Fits off max t) :
    CopyReadsBack off max t rest ↔
      (t = [39] ∨ t.head? ≠ some 39) ∧ backslashAtQuote (stripQuotes t) = false := by
  have isOpened : opened t = true ↔ t = [39] ∨ t.head? ≠ some 39 := by
    rw [opened, Bool.or_eq_true, beq_iff_eq, bne_iff_ne]
  unfold CopyReadsBack
  rw [copyTerm_eq fits, ← isOpened]
  cases first : opened t with
  | true =>
    rw [if_pos rfl, List.append_assoc, List.append_assoc, and_iff_right rfl]
    exact copyReadsBack_opened (oneLine_stripQuotes oneLine) rest
  | false =>
    rw [if_neg Bool.false_ne_true, List.nil_append, List.append_assoc]
    exact iff_of_false (not_copyReadsBack_unopened _ rest) fun both => Bool.false_ne_true both.1

theorem copyReadsBack_quotes : CopyReadsBack 0 100 (lit "it's; rm 'x'") (lit "1") := by
  refine (copyReadsBack_iff 0 100 (lit "it's; rm 'x'") (lit "1") ?_ ?_).mpr ?_
  · intro c member
    revert c
    decide +kernel
  · exact Nat.le_of_eq (by decide)
  · exact ⟨.inr (by decide), by decide +kernel⟩

/-- A term that starts with a quote is run as a command. -/
theorem not_copyReadsBack_leading_quote : ¬CopyReadsBack 0 100 (lit "'; rm x'") (lit "1") := by
  rintro ⟨word, -⟩
  revert word
  decide +kernel

end Desh
