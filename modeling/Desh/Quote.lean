/-
This file models `Sconv`, the conversion that prints a string with conservative
quoting rules, and compares it with what `yylex` reads back.

A quoted string is printed as pieces joined by `^`: a run of printable bytes
between single quotes, or one byte as a backslash escape. Inside quotes the
printer doubles only the quote, while the scanner also takes a backslash in
front of a quote as an escape. Every string is read back except those with a
backslash the printer puts right in front of a quote, and except that the bare
form of the six relational operators is no word at all.
-/

import Mathlib.Data.List.TakeWhile
import Desh.Token

namespace Desh

/-! ### The printer -/

/-- The states of `Sconv`. -/
inductive SconvState where
  | begin
  | quoted
  | unquoted
  deriving DecidableEq

/-- The digits `%o` prints. -/
def octalDigits (c : UInt8) : Text := (Nat.toDigits 8 c.toNat).map Char.toUInt8

/-- The escape `Sconv` prints for a byte that is not printable. -/
def sconvEscape (c : UInt8) : Text :=
  if c = 7 then lit "\\a"
  else if c = 8 then lit "\\b"
  else if c = 12 then lit "\\f"
  else if c = 10 then lit "\\n"
  else if c = 13 then lit "\\r"
  else if c = 9 then lit "\\t"
  else if c = 27 then lit "\\e"
  else 92 :: octalDigits c

/-- The label `quoteit` of `Sconv`. -/
def sconvQuoted : SconvState → Text → Text
  | .begin, [] => [39, 39]
  | .quoted, [] => [39]
  | .unquoted, [] => []
  | state, c :: s =>
      if isprint c then
        (if state = .unquoted then ['^'.toUInt8] else []) ++
        (if state = .quoted then [] else [39]) ++
        (if c = 39 then [39] else []) ++ c :: sconvQuoted .quoted s
      else
        (if state = .quoted then [39] else []) ++
        (if state = .begin then [] else ['^'.toUInt8]) ++
        sconvEscape c ++ sconvQuoted .unquoted s

/-- `Sconv`: `altform` is the flag of `%#S`. -/
def sconv (altform : Bool) (s : Text) : Text :=
  if altform || s.isEmpty || s.any fun c => nonWord c || c == '@'.toUInt8 then
    sconvQuoted .begin s
  else s

/-! ### What counts as read back -/

/-- The string a token carries where the grammar accepts it as an `sword` made of literal
text: a word, a quoted word or one of the tokens of the rule `keyword`. -/
def swordText : Token → Option Text
  | .WORD str | .QWORD str => some str
  | .char c =>
      if c = '!'.toUInt8 ∨ c = '~'.toUInt8 then some [c] else none
  | .EXTRACT => some (lit "~~")
  | .LOCAL => some (lit "local")
  | .LET => some (lit "let")
  | .FOR => some (lit "for")
  | .FN => some (lit "fn")
  | .CLOSURE => some (lit "%closure")
  | _ => none

@[simp] theorem swordText_word (str : Text) : swordText (.WORD str) = some str := rfl

@[simp] theorem swordText_qword (str : Text) : swordText (.QWORD str) = some str := rfl

theorem swordText_char (c : UInt8) :
    swordText (.char c) = if c = '!'.toUInt8 ∨ c = '~'.toUInt8 then some [c] else none := rfl

/-- The string carried by tokens the grammar accepts as one literal `word`: `sword`s joined by
`^`. -/
def wordText : List Token → Option Text
  | [] => none
  | [token] => swordText token
  | token :: .char c :: tokens =>
      if c = '^'.toUInt8 then
        (swordText token).bind fun first => (wordText tokens).map (first ++ ·)
      else none
  | _ => none

/-- Calling `yylex` from its initial state on `printed ++ follow` until exactly `follow` is
left gives the tokens of one word, carrying `s`. -/
def ReadsAs (printed follow s : Text) : Prop :=
  ∃ count, (yylexes count (inityy (printed ++ follow))).2.input = follow ∧
    wordText (yylexes count (inityy (printed ++ follow))).1 = some s

/-- Does the quoted form print a quote next? It does at the end of a run of printable bytes and
in front of a quote, which it doubles. -/
def quoteFollows : Text → Bool
  | [] => true
  | c :: _ => c == 39 || !isprint c

/-- Does the quoted form of a string put a backslash in front of a quote? -/
def backslashBeforeQuote : Text → Bool
  | [] => false
  | c :: s => (c == 92 && quoteFollows s) || backslashBeforeQuote s

/-- The relational operators of the scanner. -/
def relationalWords : List Text :=
  [lit ":lt", lit ":le", lit ":gt", lit ":ge", lit ":eq", lit ":ne"]

/-! ### Runs of printable bytes -/

/-- A run of printable bytes between quotes, without its opening quote. -/
def doubleQuotes (run : Text) : Text := run.flatMap fun c => if c = 39 then [39, 39] else [c]

@[simp] theorem doubleQuotes_nil : doubleQuotes [] = [] := rfl

theorem doubleQuotes_cons (c : UInt8) (run : Text) :
    doubleQuotes (c :: run) = (if c = 39 then [39, 39] else [c]) ++ doubleQuotes run := rfl

theorem sconvQuoted_quoted (s : Text) :
    sconvQuoted .quoted s =
      doubleQuotes (s.takeWhile isprint) ++ 39 :: sconvQuoted .unquoted (s.dropWhile isprint) := by
  induction s with
  | nil => rfl
  | cons c s inductionHypothesis =>
    by_cases printable : isprint c = true
    · rw [List.takeWhile_cons_of_pos printable, List.dropWhile_cons_of_pos printable,
        doubleQuotes_cons, sconvQuoted, if_pos printable, inductionHypothesis]
      by_cases quote : c = 39 <;> simp [quote]
    · rw [List.takeWhile_cons_of_neg printable, List.dropWhile_cons_of_neg printable]
      simp [sconvQuoted, printable]

theorem sconvQuoted_unquoted_cons (c : UInt8) (s : Text) :
    sconvQuoted .unquoted (c :: s) = '^'.toUInt8 :: sconvQuoted .begin (c :: s) := by
  by_cases printable : isprint c = true <;> simp [sconvQuoted, printable]

/-- A string that starts with a printable byte is printed as a quoted run and what follows. -/
theorem sconvQuoted_begin_printable {c : UInt8} (printable : isprint c = true) (s : Text) :
    sconvQuoted .begin (c :: s) =
      39 :: (doubleQuotes (c :: s.takeWhile isprint) ++
        39 :: sconvQuoted .unquoted (s.dropWhile isprint)) := by
  have quoted := sconvQuoted_quoted (c :: s)
  rw [List.takeWhile_cons_of_pos printable, List.dropWhile_cons_of_pos printable] at quoted
  rw [← quoted]
  simp [sconvQuoted, printable]

theorem sconvQuoted_begin_escape {c : UInt8} (unprintable : isprint c = false) (s : Text) :
    sconvQuoted .begin (c :: s) = sconvEscape c ++ sconvQuoted .unquoted s := by
  simp [sconvQuoted, unprintable]

theorem quoteFollows_takeWhile (s : Text) :
    quoteFollows (s.takeWhile isprint) = quoteFollows s := by
  cases s with
  | nil => rfl
  | cons c s =>
    by_cases printable : isprint c = true
    · rw [List.takeWhile_cons_of_pos printable]
      rfl
    · rw [List.takeWhile_cons_of_neg printable]
      simp [quoteFollows, printable]

/-- The backslashes in front of a quote are those of the first run and those after it. -/
theorem backslashBeforeQuote_split (s : Text) :
    backslashBeforeQuote s =
      (backslashBeforeQuote (s.takeWhile isprint) ||
        backslashBeforeQuote (s.dropWhile isprint)) := by
  induction s with
  | nil => rfl
  | cons c s inductionHypothesis =>
    by_cases printable : isprint c = true
    · rw [List.takeWhile_cons_of_pos printable, List.dropWhile_cons_of_pos printable,
        backslashBeforeQuote, backslashBeforeQuote, inductionHypothesis, quoteFollows_takeWhile,
        Bool.or_assoc]
    · rw [List.takeWhile_cons_of_neg printable, List.dropWhile_cons_of_neg printable]
      simp [backslashBeforeQuote]

/-! ### The scanner's quote loop -/

theorem quoteLoop_doubled (quote : UInt8) (rest buf : Text) :
    quoteLoop quote (quote :: quote :: rest) buf = quoteLoop quote rest (buf ++ [quote]) := by
  simp [quoteLoop]

theorem quoteLoop_end (quote : UInt8) (follow buf : Text) (ends : follow.head? ≠ some quote) :
    quoteLoop quote (quote :: follow) buf = .done buf follow := by
  cases follow with
  | nil => simp [quoteLoop]
  | cons d follow =>
    have other : d ≠ quote := fun same => ends (by rw [same]; rfl)
    simp [quoteLoop, other]

theorem quoteLoop_plain (quote : UInt8) {c : UInt8} (rest buf : Text) (other : c ≠ quote)
    (backslash : c ≠ 92) (nonzero : c ≠ 0) :
    quoteLoop quote (c :: rest) buf = quoteLoop quote rest (buf ++ [c]) := by
  cases rest <;> simp [quoteLoop, other, backslash, nonzero]

theorem quoteLoop_backslash {d : UInt8} (rest buf : Text) (line : d ≠ '\n'.toUInt8)
    (other : d ≠ 39) :
    quoteLoop 39 (92 :: d :: rest) buf = quoteLoop 39 (d :: rest) (buf ++ [92]) := by
  rw [quoteLoop, if_neg (by decide), if_pos rfl, if_neg line, if_neg other]

theorem quoteLoop_backslash_quote (rest buf : Text) :
    quoteLoop 39 (92 :: 39 :: rest) buf = quoteLoop 39 rest (buf ++ [39]) := by
  rw [quoteLoop, if_neg (by decide), if_pos rfl, if_neg (by decide), if_pos rfl]

/-- What the loop has read stays at the front of what it returns. -/
theorem quoteLoop_prefix (quote : UInt8) (input buf : Text) {result rest : Text}
    (finished : quoteLoop quote input buf = .done result rest) : buf <+: result := by
  fun_induction quoteLoop quote input buf <;> simp_all
  all_goals exact (List.prefix_append _ _).trans (by assumption)

theorem printable_ne {c : UInt8} (printable : isprint c = true) (d : UInt8)
    (unprintable : isprint d = false) : c ≠ d := by
  rintro rfl
  exact absurd (printable.symm.trans unprintable) (by decide)

/-- A string without the bytes at which the quote loop stops, or prints a prompt. -/
def OneLine (s : Text) : Prop := ∀ c ∈ s, c ≠ '\n'.toUInt8 ∧ c ≠ 0

theorem oneLine_of_printable {s : Text} (printable : ∀ c ∈ s, isprint c = true) : OneLine s :=
  fun c member => ⟨printable_ne (printable c member) _ (by decide),
    printable_ne (printable c member) _ (by decide)⟩

theorem OneLine.tail {c : UInt8} {s : Text} (oneLine : OneLine (c :: s)) : OneLine s :=
  fun d member => oneLine d (List.mem_cons_of_mem c member)

/-- Does a quote come next, between quotes? -/
def quoteNext : Text → Bool
  | [] => true
  | c :: _ => c == 39

/-- Is there a backslash in front of a quote, or at the end of what is between quotes? -/
def backslashAtQuote : Text → Bool
  | [] => false
  | c :: s => (c == 92 && quoteNext s) || backslashAtQuote s

theorem quoteFollows_printable {s : Text} (printable : ∀ c ∈ s, isprint c = true) :
    quoteFollows s = quoteNext s := by
  cases s with
  | nil => rfl
  | cons c s =>
    have first : isprint c = true := printable c List.mem_cons_self
    simp [quoteFollows, quoteNext, first]

theorem backslashBeforeQuote_printable {s : Text} (printable : ∀ c ∈ s, isprint c = true) :
    backslashBeforeQuote s = backslashAtQuote s := by
  induction s with
  | nil => rfl
  | cons c s inductionHypothesis =>
    have others := (List.forall_mem_cons.mp printable).2
    rw [backslashBeforeQuote, backslashAtQuote, quoteFollows_printable others,
      inductionHypothesis others]

/-- The first byte printed for the rest of a run is a quote exactly when `quoteNext`. -/
theorem doubleQuotes_head (run follow : Text) (oneLine : OneLine run) :
    ∃ d rest, doubleQuotes run ++ 39 :: follow = d :: rest ∧ d ≠ '\n'.toUInt8 ∧
      (d = 39 ↔ quoteNext run = true) := by
  cases run with
  | nil => exact ⟨39, follow, rfl, by decide, by simp [quoteNext]⟩
  | cons c run =>
    by_cases quote : c = 39
    · exact ⟨39, 39 :: (doubleQuotes run ++ 39 :: follow), by simp [doubleQuotes_cons, quote],
        by decide, by simp [quoteNext, quote]⟩
    · exact ⟨c, doubleQuotes run ++ 39 :: follow, by simp [doubleQuotes_cons, quote],
        (oneLine c List.mem_cons_self).1, by simp [quoteNext, quote]⟩

/-- One byte of a run that is not a backslash in front of a quote is read as it is. -/
theorem quoteLoop_doubleQuotes_cons (c : UInt8) (run follow buf : Text)
    (oneLine : OneLine (c :: run)) (safe : (c == 92 && quoteNext run) = false) :
    quoteLoop 39 (doubleQuotes (c :: run) ++ 39 :: follow) buf =
      quoteLoop 39 (doubleQuotes run ++ 39 :: follow) (buf ++ [c]) := by
  rw [doubleQuotes_cons]
  by_cases quote : c = 39
  · rw [if_pos quote, quote]
    exact quoteLoop_doubled 39 _ buf
  rw [if_neg quote, List.singleton_append, List.cons_append]
  by_cases backslash : c = 92
  · obtain ⟨d, rest, head, line, isQuote⟩ := doubleQuotes_head run follow oneLine.tail
    have other : d ≠ 39 := by
      rw [ne_eq, isQuote]
      simpa [backslash] using safe
    rw [head, backslash]
    exact quoteLoop_backslash rest buf line other
  · exact quoteLoop_plain 39 _ buf quote backslash (oneLine c List.mem_cons_self).2

/-- The scanner reads a quoted run back when no backslash of it comes before a quote. -/
theorem quoteLoop_doubleQuotes (run follow buf : Text) (oneLine : OneLine run)
    (ends : follow.head? ≠ some 39) (safe : backslashAtQuote run = false) :
    quoteLoop 39 (doubleQuotes run ++ 39 :: follow) buf = .done (buf ++ run) follow := by
  induction run generalizing buf with
  | nil => simpa using quoteLoop_end 39 follow buf ends
  | cons c run inductionHypothesis =>
    rw [backslashAtQuote, Bool.or_eq_false_iff] at safe
    rw [quoteLoop_doubleQuotes_cons c run follow buf oneLine safe.1,
      inductionHypothesis _ oneLine.tail safe.2]
    simp

/-- Otherwise the word it returns, if any, has a quote where the run has that backslash. -/
theorem quoteLoop_backslashAtQuote (run follow buf : Text)
    (oneLine : OneLine run) (lossy : backslashAtQuote run = true) :
    ∃ before after, run = before ++ 92 :: after ∧ ∀ result rest,
      quoteLoop 39 (doubleQuotes run ++ 39 :: follow) buf = .done result rest →
        buf ++ before ++ [39] <+: result := by
  induction run generalizing buf with
  | nil => cases lossy
  | cons c run inductionHypothesis =>
    cases here : c == 92 && quoteNext run
    · rw [backslashAtQuote, here, Bool.false_or] at lossy
      rw [quoteLoop_doubleQuotes_cons c run follow buf oneLine here]
      obtain ⟨before, after, split, found⟩ :=
        inductionHypothesis (buf ++ [c]) oneLine.tail lossy
      exact ⟨c :: before, after, by rw [split, List.cons_append], by simpa using found⟩
    · rw [Bool.and_eq_true, beq_iff_eq] at here
      obtain ⟨d, rest, head, -, isQuote⟩ := doubleQuotes_head run follow oneLine.tail
      refine ⟨[], run, by rw [here.1, List.nil_append], fun result left finished => ?_⟩
      rw [doubleQuotes_cons, here.1, if_neg (by decide), List.singleton_append,
        List.cons_append, head, isQuote.mpr here.2, quoteLoop_backslash_quote] at finished
      simpa using quoteLoop_prefix 39 rest _ finished

/-! ### The scanner on one piece -/

/-- What may follow a printed string: no quote, which the scanner would take for a doubled one,
and no digit, which it would take for one of an escape. -/
def Follows (follow : Text) : Prop :=
  ∀ d, follow.head? = some d → d ≠ 39 ∧ isodigit d = false

theorem follows_cons {d : UInt8} {follow : Text} (other : d ≠ 39)
    (nondigit : isodigit d = false) : Follows (d :: follow) := by
  rintro _ ⟨⟩
  exact ⟨other, nondigit⟩

theorem yylex_caret (w : WordState) (input : Text) :
    yylex (reading w ('^'.toUInt8 :: input)) = (.char '^'.toUInt8, reading .nonWord input) := by
  rw [yylex_special w _ input (by decide) (by decide) (by decide) (by decide) (by decide)
    (.inl rfl)]
  rfl

/-- A digit below eight is an octal digit, read as its value. -/
theorem isodigit_digitChar {d : Nat} (small : d < 8) :
    isodigit d.digitChar.toUInt8 = true ∧
      (d.digitChar.toUInt8 - '0'.toUInt8).toUInt32.toNat = d := by
  interval_cases d <;> decide

/-- The octal digits of a number that fits are read as that number. -/
theorem octalNumber_toDigits (n : Nat) (fits : n < 2 ^ 32) :
    ((Nat.toDigits 8 n).map Char.toUInt8).all isodigit = true ∧
      (octalNumber ((Nat.toDigits 8 n).map Char.toUInt8)).toNat = n := by
  induction n using Nat.strong_induction_on with
  | _ n inductionHypothesis =>
    have digit : n % 8 < 8 := Nat.mod_lt n (by decide)
    obtain ⟨octal, value⟩ := isodigit_digitChar digit
    by_cases small : n < 8
    · rw [Nat.mod_eq_of_lt small] at octal value
      rw [Nat.toDigits_of_lt_base small]
      refine ⟨by simp [octal], ?_⟩
      rw [List.map_singleton, octalNumber, List.foldl_cons, List.foldl_nil, UInt32.zero_shiftLeft,
        UInt32.zero_or, value]
    · obtain ⟨digits, before⟩ := inductionHypothesis (n / 8) (by omega) (by omega)
      rw [Nat.toDigits_of_base_le (by decide) (not_lt.mp small), List.map_append]
      refine ⟨by simpa [octal] using digits, ?_⟩
      rw [octalNumber] at before
      have room : n / 8 * 8 < 2 ^ 32 := by omega
      rw [octalNumber, List.foldl_append, List.map_singleton, List.foldl_cons, List.foldl_nil,
        UInt32.toNat_or, UInt32.toNat_shiftLeft, before, value]
      have amount : (3 : UInt32).toNat % 32 = 3 := rfl
      rw [amount, Nat.shiftLeft_eq, Nat.mod_eq_of_lt room, Nat.mul_comm,
        ← Nat.two_pow_add_eq_or_of_lt (i := 3) digit]
      exact Nat.div_add_mod n 8

/-- The digits printed for a nonzero byte are octal digits of its value. -/
theorem octalDigits_spec (c : UInt8) (nonzero : c ≠ 0) :
    (octalDigits c).all isodigit = true ∧ octalNumber (octalDigits c) ≠ 0 ∧
      (octalNumber (octalDigits c)).toUInt8 = c := by
  have byte : c.toNat < 256 := c.toNat_lt
  obtain ⟨octal, value⟩ := octalNumber_toDigits c.toNat (by omega)
  refine ⟨octal, fun zero => nonzero ?_, ?_⟩
  · rw [← UInt8.toNat_inj, ← value]
    exact congrArg UInt32.toNat zero
  · rw [← UInt8.toNat_inj, UInt32.toNat_toUInt8]
    exact (congrArg (· % 2 ^ 8) value).trans (Nat.mod_eq_of_lt byte)

/-- An octal escape is read back as the byte it was printed for. -/
theorem lexEscape_octalDigits (lexer : Lexer) (c : UInt8) (follow : Text) (nonzero : c ≠ 0)
    (ends : Follows follow) :
    ∃ d rest, octalDigits c = d :: rest ∧ d ≠ '\n'.toUInt8 ∧
      lexEscape lexer d (rest ++ follow) = (.QWORD [c], { lexer with input := follow }) := by
  obtain ⟨octal, positive, value⟩ := octalDigits_spec c nonzero
  cases digits : octalDigits c with
  | nil => exact absurd (by rw [digits]; rfl) positive
  | cons d rest =>
    rw [digits] at octal positive value
    rw [List.all_cons, Bool.and_eq_true] at octal
    have line : d ≠ '\n'.toUInt8 := by
      rintro rfl
      exact absurd octal.1 (by decide)
    obtain ⟨taken, dropped⟩ :=
      takeWhile_run (List.all_eq_true.mp octal.2) fun d head => (ends d head).2
    refine ⟨d, rest, rfl, line, ?_⟩
    rw [lexEscape_octal lexer _ octal.1, taken, dropped, lexNumber, if_neg positive, value,
      oneByte, if_neg nonzero]

/-- The scanner reads the escape of a byte back. -/
theorem yylex_sconvEscape (c : UInt8) (follow : Text) (nonzero : c ≠ 0) (ends : Follows follow) :
    yylex (reading .nonWord (sconvEscape c ++ follow)) =
      (.QWORD [c], reading .realWord follow) := by
  unfold sconvEscape
  split_ifs with bell back feed newline return' tab escape
  · subst bell; exact yylex_escape _ follow (by decide)
  · subst back; exact yylex_escape _ follow (by decide)
  · subst feed; exact yylex_escape _ follow (by decide)
  · subst newline; exact yylex_escape _ follow (by decide)
  · subst return'; exact yylex_escape _ follow (by decide)
  · subst tab; exact yylex_escape _ follow (by decide)
  · subst escape; exact yylex_escape _ follow (by decide)
  · obtain ⟨d, rest, digits, line, read⟩ :=
      lexEscape_octalDigits (reading .realWord (92 :: (octalDigits c ++ follow))) c follow
        nonzero ends
    rw [List.cons_append, digits, List.cons_append, yylex_escape d _ line]
    simpa [digits] using read

/-- The opening quote of a run. -/
theorem yylex_quote (input : Text) :
    yylex (reading .nonWord (39 :: input)) =
      lexQuote (reading .nonWord (39 :: input)) 39 input := by
  rw [yylex_special .nonWord _ input (by decide) (by decide) (by decide) (by decide) (by decide)
    (.inr rfl)]
  rfl

theorem yylex_doubleQuotes (run follow : Text) (oneLine : OneLine run)
    (ends : follow.head? ≠ some 39) (safe : backslashAtQuote run = false) :
    yylex (reading .nonWord (39 :: (doubleQuotes run ++ 39 :: follow))) =
      (.QWORD run, reading .realWord follow) := by
  rw [yylex_quote, lexQuote, quoteLoop_doubleQuotes run follow [] oneLine ends safe]
  rfl

/-! ### The scanner on a whole string -/

theorem wordText_caret (token : Token) (tokens : List Token) :
    wordText (token :: .char '^'.toUInt8 :: tokens) =
      (swordText token).bind fun first => (wordText tokens).map (first ++ ·) := by
  rw [wordText, if_pos rfl]

/-- The string of a word starts with the string of its first token. -/
theorem wordText_prefix (token : Token) (tokens : List Token) {s : Text}
    (read : wordText (token :: tokens) = some s) : ∃ t, swordText token = some t ∧ t <+: s := by
  match tokens with
  | [] => exact ⟨s, read, List.prefix_rfl⟩
  | .char c :: tokens =>
    rw [wordText] at read
    split_ifs at read
    rw [Option.bind_eq_some_iff] at read
    obtain ⟨t, first, read⟩ := read
    rw [Option.map_eq_some_iff] at read
    obtain ⟨u, -, rfl⟩ := read
    exact ⟨t, first, List.prefix_append t u⟩

/-- What the quoted form prints first: an escape, or a run of printable bytes. -/
theorem sconvQuoted_begin_cons (c : UInt8) (s : Text) :
    ∃ printed piece rest, c :: s = piece ++ rest ∧ piece ≠ [] ∧
      sconvQuoted .begin (c :: s) = printed ++ sconvQuoted .unquoted rest ∧
      ((isprint c = false ∧ piece = [c] ∧ printed = sconvEscape c) ∨
        ((∀ d ∈ piece, isprint d = true) ∧ printed = 39 :: (doubleQuotes piece ++ [39]))) ∧
      backslashBeforeQuote (c :: s) =
        (backslashBeforeQuote piece || backslashBeforeQuote rest) := by
  by_cases printable : isprint c = true
  case neg =>
    rw [Bool.not_eq_true] at printable
    refine ⟨sconvEscape c, [c], s, rfl, by simp, sconvQuoted_begin_escape printable s,
      .inl ⟨printable, rfl, rfl⟩, ?_⟩
    have other : c ≠ 92 := by
      rintro rfl
      exact absurd printable (by decide)
    simp [backslashBeforeQuote, beq_false_of_ne other]
  case pos =>
    refine ⟨39 :: (doubleQuotes (c :: s.takeWhile isprint) ++ [39]), c :: s.takeWhile isprint,
      s.dropWhile isprint, by simp, by simp, ?_, .inr ⟨?_, rfl⟩, ?_⟩
    · simp [sconvQuoted_begin_printable printable]
    · exact List.forall_mem_cons.mpr ⟨printable, fun d => List.mem_takeWhile_imp⟩
    · have split := backslashBeforeQuote_split (c :: s)
      rwa [List.takeWhile_cons_of_pos printable, List.dropWhile_cons_of_pos printable] at split

theorem follows_unquoted (rest follow : Text) (ends : Follows follow) :
    Follows (sconvQuoted .unquoted rest ++ follow) := by
  cases rest with
  | nil => exact ends
  | cons c rest =>
    rw [sconvQuoted_unquoted_cons, List.cons_append]
    exact follows_cons (by decide) (by decide)

/-- The scanner reads one printed piece back. -/
theorem yylex_piece {c : UInt8} {printed piece : Text} (nonzero : c ≠ 0)
    (shape : (isprint c = false ∧ piece = [c] ∧ printed = sconvEscape c) ∨
      ((∀ d ∈ piece, isprint d = true) ∧ printed = 39 :: (doubleQuotes piece ++ [39])))
    (follow : Text) (ends : Follows follow) (safe : backslashBeforeQuote piece = false) :
    yylex (reading .nonWord (printed ++ follow)) = (.QWORD piece, reading .realWord follow) := by
  rcases shape with ⟨-, rfl, rfl⟩ | ⟨printable, rfl⟩
  · exact yylex_sconvEscape c follow nonzero ends
  · have head : follow.head? ≠ some 39 := fun quote => (ends 39 quote).1 rfl
    rw [backslashBeforeQuote_printable printable] at safe
    simpa using yylex_doubleQuotes piece follow (oneLine_of_printable printable) head safe

/-- The quoted form of a string without a backslash before a quote is read back. -/
theorem yylexes_sconvQuoted (s follow : Text) (nulFree : NulFree s) (ends : Follows follow)
    (safe : backslashBeforeQuote s = false) :
    ∃ count tokens, yylexes count (reading .nonWord (sconvQuoted .begin s ++ follow)) =
      (tokens, reading .realWord follow) ∧ wordText tokens = some s := by
  -- by induction on the length: each piece leaves a shorter string
  induction length : s.length using Nat.strong_induction_on generalizing s with
  | _ n inductionHypothesis =>
    cases s with
    | nil =>
      refine ⟨1, [.QWORD []], ?_, rfl⟩
      have head : follow.head? ≠ some 39 := fun quote => (ends 39 quote).1 rfl
      have empty := yylex_doubleQuotes [] follow nofun head rfl
      simp only [yylexes, sconvQuoted]
      exact congrArg (fun read => ([read.1], read.2)) empty
    | cons c s =>
      obtain ⟨printed, piece, rest, split, nonempty, print, shape, lossy⟩ :=
        sconvQuoted_begin_cons c s
      rw [safe, eq_comm, Bool.or_eq_false_iff] at lossy
      have read := yylex_piece (nulFree_cons.mp nulFree).1 shape
        (sconvQuoted .unquoted rest ++ follow) (follows_unquoted rest follow ends) lossy.1
      rw [← List.append_assoc, ← print] at read
      rw [split, nulFree_append] at nulFree
      have shorter : rest.length < n := by
        rw [← length, split, List.length_append]
        exact Nat.lt_add_of_pos_left (List.length_pos_of_ne_nil nonempty)
      cases rest with
      | nil =>
        refine ⟨1, [.QWORD piece], ?_, by rw [split, List.append_nil]; rfl⟩
        simp only [yylexes, read]
        rfl
      | cons d rest =>
        obtain ⟨count, tokens, scanned, text⟩ :=
          inductionHypothesis _ shorter (d :: rest) nulFree.2 lossy.2 rfl
        refine ⟨count + 2, .QWORD piece :: .char '^'.toUInt8 :: tokens, ?_, ?_⟩
        · rw [sconvQuoted_unquoted_cons, List.cons_append] at read
          simp only [yylexes, read, yylex_caret, scanned]
        · rw [wordText_caret, text, split]
          rfl

/-- A run with a backslash in front of a quote is read as a word, if any, that has a quote where
the run has the backslash. -/
theorem not_prefix_of_backslash {run follow t : Text} (rest : Text)
    (printable : ∀ c ∈ run, isprint c = true) (lossy : backslashBeforeQuote run = true)
    (text : swordText (yylex (reading .nonWord
      (39 :: (doubleQuotes run ++ 39 :: follow)))).1 = some t) : ¬t <+: run ++ rest := by
  rw [backslashBeforeQuote_printable printable] at lossy
  obtain ⟨before, after, split, result⟩ :=
    quoteLoop_backslashAtQuote run follow [] (oneLine_of_printable printable) lossy
  rw [yylex_quote, lexQuote] at text
  intro isPrefix
  cases loop : quoteLoop 39 (doubleQuotes run ++ 39 :: follow) [] with
  | eof => rw [loop] at text; cases text
  | interrupt input => rw [loop] at text; cases text
  | done buf input =>
    rw [loop] at text
    have same : buf = t := Option.some.inj text
    obtain ⟨tail, whole⟩ := (result buf input loop).trans (same ▸ isPrefix)
    rw [split] at whole
    simp at whole

/-- The quoted form of any other string is not. -/
theorem wordText_sconvQuoted_ne (s follow : Text) (count : Nat) (nulFree : NulFree s)
    (ends : Follows follow) (lossy : backslashBeforeQuote s = true) :
    wordText (yylexes count (reading .nonWord (sconvQuoted .begin s ++ follow))).1 ≠ some s := by
  induction length : s.length using Nat.strong_induction_on generalizing s count with
  | _ n inductionHypothesis =>
    cases s with
    | nil => cases lossy
    | cons c s =>
      obtain ⟨printed, piece, rest, split, nonempty, print, shape, either⟩ :=
        sconvQuoted_begin_cons c s
      cases count with
      | zero => exact fun read => nomatch read
      | succ count =>
        cases here : backslashBeforeQuote piece
        · -- the first piece is read back, so the loss is in what follows it
          rw [lossy, here, Bool.false_or, eq_comm] at either
          have read := yylex_piece (nulFree_cons.mp nulFree).1 shape
            (sconvQuoted .unquoted rest ++ follow) (follows_unquoted rest follow ends) here
          rw [← List.append_assoc, ← print] at read
          rw [split, nulFree_append] at nulFree
          have shorter : rest.length < n := by
            rw [← length, split, List.length_append]
            exact Nat.lt_add_of_pos_left (List.length_pos_of_ne_nil nonempty)
          cases rest with
          | nil => cases either
          | cons d rest =>
            rw [sconvQuoted_unquoted_cons, List.cons_append] at read
            cases count with
            | zero =>
              simp only [yylexes, read]
              rw [split]
              simp [wordText]
            | succ count =>
              simp only [yylexes, read, yylex_caret]
              rw [wordText_caret, split]
              have unread := inductionHypothesis _ shorter (d :: rest) count nulFree.2 either rfl
              simpa using unread
        · -- the first piece is a run with a quote where the string has a backslash
          rcases shape with ⟨unprintable, rfl, -⟩ | ⟨printable, rfl⟩
          · have other : c ≠ 92 := by
              rintro rfl
              exact absurd unprintable (by decide)
            simp [backslashBeforeQuote, beq_false_of_ne other] at here
          intro read
          rw [print] at read
          simp only [List.cons_append, List.append_assoc, List.nil_append, yylexes] at read
          obtain ⟨t, token, isPrefix⟩ := wordText_prefix _ _ read
          exact not_prefix_of_backslash rest printable here token (split ▸ isPrefix)

/-! ### Bare words -/

/-- The keywords that are tokens of the rule `keyword` of the grammar. -/
def keywordWords : List Text :=
  [lit "fn", lit "for", lit "local", lit "let", lit "~~", lit "%closure"]

/-- The keyword table and the grammar agree on every bare word but the relational operators. -/
theorem swordText_keyword (s : Text) (next : Option UInt8) (lone : s ≠ ['@'.toUInt8])
    (brace : next ≠ some '{'.toUInt8) :
    ((keyword s next).elim (some s) swordText) =
      if s ∈ relationalWords then none else some s := by
  by_cases relational : s ∈ relationalWords
  · rw [if_pos relational]
    simp only [relationalWords, List.mem_cons, List.not_mem_nil, or_false] at relational
    rcases relational with rfl | rfl | rfl | rfl | rfl | rfl <;> rfl
  rw [if_neg relational]
  by_cases isKeyword : s ∈ keywordWords
  · simp only [keywordWords, List.mem_cons, List.not_mem_nil, or_false] at isKeyword
    rcases isKeyword with rfl | rfl | rfl | rfl | rfl | rfl <;> rfl
  simp only [relationalWords, List.mem_cons, List.not_mem_nil, or_false, not_or] at relational
  simp only [keywordWords, List.mem_cons, List.not_mem_nil, or_false, not_or] at isKeyword
  obtain ⟨lt, le, gt, ge, eq, ne⟩ := relational
  obtain ⟨fn, for', local', let', extract, closure⟩ := isKeyword
  unfold keyword
  split
  next k =>
    have other : k ≠ '@'.toUInt8 := fun same => lone (by rw [same])
    rw [if_neg brace]
    by_cases tilde : k = '~'.toUInt8
    · rw [if_pos (.inr tilde), tilde]
      rfl
    · rw [if_neg (not_or.mpr ⟨other, tilde⟩)]
      rfl
  next =>
    rw [if_neg fn, if_neg for', if_neg local', if_neg let', if_neg extract, if_neg closure,
      if_neg lt, if_neg le, if_neg gt, if_neg ge, if_neg eq, if_neg ne]
    rfl

/-- What may follow a bare word: nothing, or a character that is no word character and makes no
call of it. -/
def Stops (follow : Text) : Prop :=
  ∀ d, follow.head? = some d → nonWord d = true ∧ d ≠ '{'.toUInt8

theorem blank_properties {d : UInt8} (rest : Text) (blank : d = ' '.toUInt8 ∨ d = '\n'.toUInt8) :
    Stops (d :: rest) ∧ d ≠ '='.toUInt8 ∧ Follows (d :: rest) := by
  refine ⟨?_, ?_, ?_⟩
  · rintro _ ⟨⟩
    rcases blank with rfl | rfl <;> decide
  · rcases blank with rfl | rfl <;> decide
  · rcases blank with rfl | rfl <;> exact follows_cons (by decide) (by decide)

/-- Where the loop over a word ends, by a table that knows the plain characters. -/
theorem takeWhile_word {table : UInt8 → Bool} {s follow : Text}
    (word : ∀ e ∈ s, table e = false) (stop : ∀ d, follow.head? = some d → table d = true) :
    (s ++ follow).takeWhile (fun e => !table e) = s ∧
      (s ++ follow).dropWhile (fun e => !table e) = follow := by
  refine takeWhile_run (fun e member => ?_) fun d head => ?_
  · rw [word e member]
    rfl
  · rw [stop d head]
    rfl

/-- The scanner on a bare word. A word that starts with a dash takes `=` along. -/
theorem yylex_bare (c : UInt8) (s follow : Text) (plain : ∀ e ∈ c :: s, nonWord e = false)
    (lone : c :: s ≠ ['@'.toUInt8]) (stops : Stops follow)
    (dash : c = '-'.toUInt8 → follow.head? ≠ some '='.toUInt8) :
    ∃ w, (yylex (reading .nonWord (c :: s ++ follow))).2 = reading w follow ∧
      swordText (yylex (reading .nonWord (c :: s ++ follow))).1 =
        if c :: s ∈ relationalWords then none else some (c :: s) := by
  rw [List.forall_mem_cons] at plain
  have text := swordText_keyword (c :: s) follow.head? lone fun brace => (stops _ brace).2 rfl
  rw [List.cons_append, yylex_word c _ plain.1, lexWord]
  obtain ⟨taken, dropped⟩ := @takeWhile_word (if c = '-'.toUInt8 then argumentNonWord else nonWord)
    s follow (fun e member => by split_ifs <;> simp [argumentNonWord, plain.2 e member])
    (fun d head => by
      split_ifs with isDash
      · have other : d ≠ '='.toUInt8 := fun same => dash isDash (same ▸ head)
        simp [argumentNonWord, (stops d head).1, other]
      · exact (stops d head).1)
  simp only [Bool.false_eq_true, if_false, taken, dropped]
  cases found : keyword (c :: s) follow.head? <;> rw [found] at text <;>
    exact ⟨_, rfl, by simpa using text⟩

theorem backslashBeforeQuote_plain (s : Text) (plain : ∀ c ∈ s, nonWord c = false) :
    backslashBeforeQuote s = false := by
  induction s with
  | nil => rfl
  | cons c s inductionHypothesis =>
    rw [List.forall_mem_cons] at plain
    have other : c ≠ 92 := ne_of_not_nonWord plain.1 92 (by decide)
    simp [backslashBeforeQuote, beq_false_of_ne other, inductionHypothesis plain.2]

/-! ### Reading back what is printed -/

/-- What `Sconv` prints in front of a blank is read back exactly when it puts no backslash in
front of a quote and prints no relational operator bare. -/
theorem readsAs_sconv_iff (altform : Bool) (s rest : Text) (d : UInt8) (nulFree : NulFree s)
    (blank : d = ' '.toUInt8 ∨ d = '\n'.toUInt8) :
    ReadsAs (sconv altform s) (d :: rest) s ↔
      backslashBeforeQuote s = false ∧ (altform = true ∨ s ∉ relationalWords) := by
  obtain ⟨stops, other, ends⟩ := blank_properties rest blank
  unfold ReadsAs
  simp only [inityy_eq_reading]
  by_cases quoted : (altform || s.isEmpty || s.any fun c => nonWord c || c == '@'.toUInt8) = true
  · -- the quoted form
    have print : sconv altform s = sconvQuoted .begin s := if_pos quoted
    rw [print]
    constructor
    · rintro ⟨count, -, read⟩
      refine ⟨?_, ?_⟩
      · by_contra lossy
        rw [Bool.not_eq_false] at lossy
        exact wordText_sconvQuoted_ne s _ count nulFree ends lossy read
      · by_cases alt : altform = true
        · exact .inl alt
        · refine .inr fun member => ?_
          have bare : ∀ word ∈ relationalWords,
              (word.isEmpty || word.any fun c => nonWord c || c == '@'.toUInt8) = false := by
            decide
          simp [alt, bare s member] at quoted
    · rintro ⟨safe, -⟩
      obtain ⟨count, tokens, scanned, text⟩ := yylexes_sconvQuoted s _ nulFree ends safe
      exact ⟨count, by rw [scanned]; rfl, by rw [scanned]; exact text⟩
  · -- the bare form
    have print : sconv altform s = s := if_neg quoted
    rw [print]
    simp only [Bool.or_eq_true, not_or, Bool.not_eq_true, List.isEmpty_eq_false_iff,
      List.any_eq_false, beq_eq_false_iff_ne] at quoted
    obtain ⟨⟨alt, nonempty⟩, plain⟩ := quoted
    cases s with
    | nil => exact absurd rfl nonempty
    | cons c s =>
      have lone : c :: s ≠ ['@'.toUInt8] := by
        rintro same
        rw [same] at plain
        exact (plain _ (List.mem_singleton_self _)).2 rfl
      obtain ⟨_, left, text⟩ := yylex_bare c s (d :: rest) (fun e member => (plain e member).1)
        lone stops fun _ same => other (Option.some.inj same)
      have safe : backslashBeforeQuote (c :: s) = false :=
        backslashBeforeQuote_plain (c :: s) fun e member => (plain e member).1
      constructor
      · rintro ⟨count, -, read⟩
        refine ⟨safe, .inr fun member => ?_⟩
        cases count with
        | zero => cases read
        | succ count =>
          obtain ⟨t, token, -⟩ := wordText_prefix _ _ read
          rw [text, if_pos member] at token
          cases token
      · rintro ⟨-, relational⟩
        rw [if_neg (relational.resolve_left (by simp [alt]))] at text
        exact ⟨1, congrArg Lexer.input left, text⟩

/-- A word with a quote and a control character in it is read back. -/
theorem readsAs_sconv_quote_bell :
    ReadsAs (sconv false [105, 116, 39, 115, 7]) (lit " x") [105, 116, 39, 115, 7] :=
  (readsAs_sconv_iff false [105, 116, 39, 115, 7] (lit "x") ' '.toUInt8 (by decide)
    (.inl rfl)).mpr ⟨by decide, .inr (by decide)⟩

/-- A backslash alone is printed between quotes, where the scanner takes it for an escape of the
closing one. -/
theorem not_readsAs_sconv_backslash : ¬ ReadsAs (sconv false [92]) (lit "\n") [92] := by
  rintro ⟨count, -, read⟩
  have print : sconv false [92] = sconvQuoted .begin [92] := rfl
  rw [print, inityy_eq_reading] at read
  exact wordText_sconvQuoted_ne [92] (lit "\n") count (by decide)
    (follows_cons (by decide) (by decide)) (by decide) read

end Desh
