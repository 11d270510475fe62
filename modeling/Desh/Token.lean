/-
This file models the lexical analyzer, `yylex` in `token.c`. Its static
variables are the fields of `Lexer`, together with the characters still to be
read: `GETC` takes the first, `UNGETC` puts one back, and `EOF` is the end of
the list. A zero character is the mark `get` passes on for an interactive
control-C. Line counting and prompting, which affect no token, are left out.

The bytes that need escaping in a character literal are written as numbers: 34
is the double quote, 39 the single quote, 92 the backslash and 96 the
backquote.
-/

import Desh.Tree

namespace Desh

/-! ### Tokens and the state -/

/-- The tokens of the grammar, with the semantic value `yylval` has for them. A token that is
its own character is `char`. -/
inductive Token where
  | WORD (str : Text)
  | QWORD (str : Text)
  | LOCAL | LET | FOR | CLOSURE | FN
  | ANDAND | BACKBACK | EXTRACT | CALL | COUNT | FLAT | OROR | PRIM | SUB
  | DUP (tree : Tree)
  | REDIR (tree : Tree)
  | PIPE (tree : Tree)
  | NL | ENDFILE | ERROR
  | LT | LE | GT | GE | EQ | NE
  | char (c : UInt8)
  deriving DecidableEq

/-- The state `w` of the scanner: what the previous token was. -/
inductive WordState where
  | nonWord
  | realWord
  | keyWord
  deriving DecidableEq

/-- The state of the lexical analyzer. `error` is the first message given to `yyerror`. -/
structure Lexer where
  input : Text
  w : WordState
  dollar : Bool
  goterror : Bool
  error : Option Text
  deriving DecidableEq

/-- The state `inityy` and a fresh input leave. -/
def inityy (input : Text) : Lexer :=
  { input, w := .nonWord, dollar := false, goterror := false, error := none }

/-- A state between two tokens with nothing pending: no error, and no variable name next. -/
def reading (w : WordState) (input : Text) : Lexer :=
  { input, w, dollar := false, goterror := false, error := none }

theorem inityy_eq_reading (input : Text) : inityy input = reading .nonWord input := rfl

@[simp] theorem reading_input (w : WordState) (input : Text) : (reading w input).input = input :=
  rfl

@[simp] theorem reading_with_input (w : WordState) (input other : Text) :
    { reading w input with input := other } = reading w other := rfl

@[simp] theorem reading_with_w (w v : WordState) (input : Text) :
    { reading w input with w := v } = reading v input := rfl

/-! ### Character tables -/

/-- The table `non_word`. -/
def nonWord (c : UInt8) : Bool :=
  c == 0 || c == '\t'.toUInt8 || c == '\n'.toUInt8 || c == ' '.toUInt8 || c == '!'.toUInt8 ||
  c == 34 || c == '#'.toUInt8 || c == '$'.toUInt8 || c == '&'.toUInt8 || c == 39 ||
  c == '('.toUInt8 || c == ')'.toUInt8 || c == ';'.toUInt8 || c == '<'.toUInt8 ||
  c == '='.toUInt8 || c == '>'.toUInt8 || c == 92 || c == '^'.toUInt8 || c == 96 ||
  c == '{'.toUInt8 || c == '|'.toUInt8 || c == '}'.toUInt8

/-- The table `dollar_non_word`. -/
def dollarNonWord (c : UInt8) : Bool :=
  !(isalnum c || c == '%'.toUInt8 || c == '*'.toUInt8 || c == '-'.toUInt8 || c == '@'.toUInt8 ||
    c == '_'.toUInt8)

/-- The table `argument_non_word`: `=` is a word character. -/
def argumentNonWord (c : UInt8) : Bool :=
  nonWord c && c != '='.toUInt8

def isodigit (c : UInt8) : Bool := '0'.toUInt8 ≤ c && c < '8'.toUInt8

/-! ### Errors -/

/-- `yyerror`: the first error is generally the most informative. -/
def yyerror (message : Text) (lexer : Lexer) : Lexer :=
  { lexer with error := lexer.error <|> some message }

/-- What is left after the rest of the line. -/
def skipLine (input : Text) : Text :=
  (input.dropWhile fun c => c != '\n'.toUInt8).tail

/-- `scanerror`: skip the rest of the line and report. -/
def scanerror (message : Text) (lexer : Lexer) : Lexer :=
  yyerror message { lexer with input := skipLine lexer.input, goterror := true }

/-- The label `interactive_ctrl_c`. -/
def interactiveCtrlC (lexer : Lexer) : Token × Lexer :=
  (.ERROR, scanerror [] { lexer with w := .nonWord })

/-! ### Words -/

/-- The keywords, looked up when a word has been read up to the character `next`. A
one-character word in front of `{` is a call. -/
def keyword (buf : Text) (next : Option UInt8) : Option Token :=
  match buf with
  | [k] =>
      if k = '@'.toUInt8 ∨ k = '~'.toUInt8 then some (.char k)
      else if next = some '{'.toUInt8 then some .CALL
      else none
  | _ =>
      if buf = lit "fn" then some .FN
      else if buf = lit "for" then some .FOR
      else if buf = lit "local" then some .LOCAL
      else if buf = lit "let" then some .LET
      else if buf = lit "~~" then some .EXTRACT
      else if buf = lit "%closure" then some .CLOSURE
      else if buf = lit ":lt" then some .LT
      else if buf = lit ":le" then some .LE
      else if buf = lit ":gt" then some .GT
      else if buf = lit ":ge" then some .GE
      else if buf = lit ":eq" then some .EQ
      else if buf = lit ":ne" then some .NE
      else none

/-- The word branch of `yylex`, on an input that starts with a word character. A word that
starts with `-` may contain `=`, but not as the name of a variable. -/
def lexWord (lexer : Lexer) (dollar : Bool) (c : UInt8) (rest : Text) : Token × Lexer :=
  let table :=
    if dollar then dollarNonWord else if c = '-'.toUInt8 then argumentNonWord else nonWord
  let buf := c :: rest.takeWhile fun c => !table c
  let input := rest.dropWhile fun c => !table c
  match keyword buf input.head? with
  | some token => (token, { lexer with input, w := .keyWord })
  | none => (.WORD buf, { lexer with input, w := .realWord })

/-! ### Quoted words -/

/-- How the loop over a quoted word ends. -/
inductive Quoted where
  | done (buf input : Text)
  | interrupt (input : Text)
  | eof
  deriving DecidableEq

/-- The loop over a quoted word: a doubled quote, or a backslash and a quote, stand for the
quote, a backslash and a newline for nothing, any other backslash for itself. -/
def quoteLoop (quote : UInt8) : Text → Text → Quoted
  | [], _ => .eof
  | c :: input, buf =>
      if c = quote then
        match input with
        | [] => .done buf []
        | d :: rest => if d = quote then quoteLoop quote rest (buf ++ [quote]) else .done buf input
      else if c = 92 then
        match input with
        | [] => .eof
        | d :: rest =>
            if d = '\n'.toUInt8 then quoteLoop quote rest buf
            else if d = quote then quoteLoop quote rest (buf ++ [quote])
            else quoteLoop quote (d :: rest) (buf ++ [92])
      else if c = 0 then .interrupt input
      else quoteLoop quote input (buf ++ [c])

/-- The quote branch of `yylex`, after the opening quote. -/
def lexQuote (lexer : Lexer) (quote : UInt8) (input : Text) : Token × Lexer :=
  match quoteLoop quote input [] with
  | .done buf input => (.QWORD buf, { lexer with input, w := .realWord })
  | .interrupt input => interactiveCtrlC { lexer with input }
  | .eof => (.ERROR,
      scanerror (lit "eof in quoted string") { lexer with input := [], w := .nonWord })

/-! ### Backslash escapes -/

/-- The value of a hexadecimal digit. -/
def hexValue (c : UInt8) : UInt32 :=
  (c - (if isdigit c then '0'.toUInt8
    else (if islower c then 'a'.toUInt8 else 'A'.toUInt8) - 10)).toUInt32

/-- The `int` a run of hexadecimal digits accumulates to. -/
def hexNumber (digits : Text) : UInt32 :=
  digits.foldl (fun n c => (n <<< 4) ||| hexValue c) 0

/-- The `int` a run of octal digits accumulates to. -/
def octalNumber (digits : Text) : UInt32 :=
  digits.foldl (fun n c => (n <<< 3) ||| (c - '0'.toUInt8).toUInt32) 0

/-- The C string whose only byte is the given one, which is empty when that is NUL. -/
def oneByte (c : UInt8) : Text := if c = 0 then [] else [c]

/-- The label `badescape`, reached after the character that ended the escape was read. -/
def badescape (lexer : Lexer) (input : Text) : Token × Lexer :=
  (.ERROR, scanerror (lit "bad backslash escape") { lexer with input })

/-- A numeric escape: its value, and the text after its digits. -/
def lexNumber (lexer : Lexer) (n : UInt32) (input : Text) : Token × Lexer :=
  if n = 0 then badescape lexer input.tail
  else (.QWORD (oneByte n.toUInt8), { lexer with input })

/-- The backslash branch of `yylex`, on the characters after the backslash, when it is neither
followed by a newline nor by the end of the input and needs no free caret. -/
def lexEscape (lexer : Lexer) (c : UInt8) (input : Text) : Token × Lexer :=
  if c = 0 then interactiveCtrlC { lexer with input }
  else if c = 'a'.toUInt8 then (.QWORD [7], { lexer with input })
  else if c = 'b'.toUInt8 then (.QWORD [8], { lexer with input })
  else if c = 'e'.toUInt8 then (.QWORD [27], { lexer with input })
  else if c = 'f'.toUInt8 then (.QWORD [12], { lexer with input })
  else if c = 'n'.toUInt8 then (.QWORD [10], { lexer with input })
  else if c = 'r'.toUInt8 then (.QWORD [13], { lexer with input })
  else if c = 't'.toUInt8 then (.QWORD [9], { lexer with input })
  else if c = 'x'.toUInt8 ∨ c = 'X'.toUInt8 then
    lexNumber lexer (hexNumber (input.takeWhile isxdigit)) (input.dropWhile isxdigit)
  else if isodigit c then
    lexNumber lexer (octalNumber (c :: input.takeWhile isodigit)) (input.dropWhile isodigit)
  else if isalnum c then badescape lexer input
  else (.QWORD [c], { lexer with input })

/-! ### Redirections -/

def CLOSED : Int := -1

def DEFAULT : Int := -2

/-- The value of a run of decimal digits. -/
def decimalNumber (digits : Text) : Int :=
  digits.foldl (fun n c => n * 10 + ((c - '0'.toUInt8).toNat : Int)) 0

/-- `getfds`: the descriptors in brackets after a redirection or a pipe, or the defaults. The
text starts with the character `c` its caller has read. -/
def getfds (input : Text) (default0 default1 : Int) :
    Except (Text × Text) ((Int × Int) × Text) :=
  match input with
  | [] => .ok ((default0, default1), [])
  | c :: rest =>
      if c ≠ '['.toUInt8 then .ok ((default0, default1), c :: rest)
      else if (rest.takeWhile isdigit).isEmpty then
        .error (lit "expected digit after '['", rest.tail)
      else
        let fd0 := decimalNumber (rest.takeWhile isdigit)
        match rest.dropWhile isdigit with
        | [] => .error (lit "expected '=' or ']' after digit", [])
        | c :: rest =>
            if c = ']'.toUInt8 then .ok ((fd0, default1), rest)
            else if c ≠ '='.toUInt8 then .error (lit "expected '=' or ']' after digit", rest)
            else if (rest.takeWhile isdigit).isEmpty then
              match rest with
              | [] => .error (lit "expected digit or ']' after '='", [])
              | c :: rest =>
                  if c = ']'.toUInt8 then .ok ((fd0, CLOSED), rest)
                  else .error (lit "expected digit or ']' after '='", rest)
            else
              let fd1 := decimalNumber (rest.takeWhile isdigit)
              match rest.dropWhile isdigit with
              | [] => .error (lit "expected ']' after digit", [])
              | c :: rest =>
                  if c = ']'.toUInt8 then .ok ((fd0, fd1), rest)
                  else .error (lit "expected ']' after digit", rest)

/-- The label `redirection`, on the text after the operator. -/
def lexRedirection (lexer : Lexer) (cmd : Text) (fd : Int) (input : Text) : Token × Lexer :=
  let lexer := { lexer with w := .nonWord }
  match getfds input fd DEFAULT with
  | .error (message, input) => (.ERROR, scanerror message { lexer with input })
  | .ok ((fd0, fd1), input) =>
      let lexer := { lexer with input }
      if fd1 ≠ DEFAULT then
        (.DUP (if fd1 = CLOSED then mkclose fd0 else mkdup fd0 fd1), lexer)
      else (.REDIR (mkredircmd cmd fd0), lexer)

/-- The `<` branch of `yylex`. -/
def lexLess (lexer : Lexer) (input : Text) : Token × Lexer :=
  match input with
  | c :: rest =>
      if c = '>'.toUInt8 then
        match rest with
        | d :: after =>
            if d = '>'.toUInt8 then lexRedirection lexer (lit "%open-append") 0 after
            else lexRedirection lexer (lit "%open-write") 0 rest
        | [] => lexRedirection lexer (lit "%open-write") 0 rest
      else if c = '<'.toUInt8 then
        match rest with
        | d :: after =>
            if d = '<'.toUInt8 then lexRedirection lexer (lit "%here") 0 after
            else lexRedirection lexer (lit "%heredoc") 0 rest
        | [] => lexRedirection lexer (lit "%heredoc") 0 rest
      else if c = '='.toUInt8 then (.CALL, { lexer with input := rest })
      else lexRedirection lexer (lit "%open") 0 input
  | [] => lexRedirection lexer (lit "%open") 0 input

/-- The `>` branch of `yylex`. -/
def lexGreater (lexer : Lexer) (input : Text) : Token × Lexer :=
  match input with
  | c :: rest =>
      if c = '>'.toUInt8 then
        match rest with
        | d :: after =>
            if d = '<'.toUInt8 then lexRedirection lexer (lit "%open-append") 1 after
            else lexRedirection lexer (lit "%append") 1 rest
        | [] => lexRedirection lexer (lit "%append") 1 rest
      else if c = '<'.toUInt8 then lexRedirection lexer (lit "%open-create") 1 rest
      else lexRedirection lexer (lit "%create") 1 input
  | [] => lexRedirection lexer (lit "%create") 1 input

/-- The `|` branch of `yylex`. -/
def lexPipe (lexer : Lexer) (input : Text) : Token × Lexer :=
  let lexer := { lexer with w := .nonWord }
  if input.head? = some '|'.toUInt8 then (.OROR, { lexer with input := input.tail })
  else
    match getfds input 1 0 with
    | .error (message, input) => (.ERROR, scanerror message { lexer with input })
    | .ok ((outfd, infd), input) =>
        if infd = CLOSED then
          (.ERROR, scanerror (lit "expected digit after '='") { lexer with input })
        else (.PIPE (.nPipe outfd infd), { lexer with input })

/-! ### The analyzer -/

/-- The blanks before a token, a continued line among them, and the state they leave. -/
def skipBlank : WordState → Text → WordState × Text
  | w, [] => (w, [])
  | w, c :: input =>
      if c = ' '.toUInt8 ∨ c = '\t'.toUInt8 then skipBlank .nonWord input
      else if c = 92 then
        match input with
        | [] => (w, [c])
        | d :: rest => if d = '\n'.toUInt8 then skipBlank .nonWord rest else (w, c :: d :: rest)
      else (w, c :: input)

/-- The characters that start no plain word but are given a free caret when they touch one. A
backslash at the end of the input is an error instead. -/
def takesCaret (c : UInt8) (rest : Text) : Bool :=
  c == 96 || c == '!'.toUInt8 || c == '$'.toUInt8 || c == 39 || c == 34 ||
  (c == 92 && !rest.isEmpty)

/-- The comment branch of `yylex`, after the `#`. -/
def lexComment (lexer : Lexer) (input : Text) : Token × Lexer :=
  match input.dropWhile fun c => c != '\n'.toUInt8 && c != 0 with
  | [] => (.ENDFILE, { lexer with input := [] })
  | c :: rest =>
      if c = 0 then interactiveCtrlC { lexer with input := rest }
      else (.NL, { lexer with input := rest, w := .nonWord })

/-- The `switch` of `yylex` on a character that starts no word and needs no free caret. -/
def lexSpecial (lexer : Lexer) (c : UInt8) (input : Text) : Token × Lexer :=
  if c = '!'.toUInt8 then (.char c, { lexer with input, w := .keyWord })
  else if c = 96 then
    if input.head? = some 96 then (.BACKBACK, { lexer with input := input.tail })
    else (.char c, { lexer with input })
  else if c = '$'.toUInt8 then
    if input.head? = some '#'.toUInt8 then
      (.COUNT, { lexer with input := input.tail, dollar := true })
    else if input.head? = some '^'.toUInt8 then
      (.FLAT, { lexer with input := input.tail, dollar := true })
    else if input.head? = some '&'.toUInt8 then
      (.PRIM, { lexer with input := input.tail, dollar := true })
    else (.char c, { lexer with input, dollar := true })
  else if c = 39 ∨ c = 34 then lexQuote lexer c input
  else if c = 92 then
    match input with
    | [] => badescape lexer []
    | d :: rest => lexEscape { lexer with w := .realWord } d rest
  else if c = '#'.toUInt8 then lexComment lexer input
  else if c = '\n'.toUInt8 then (.NL, { lexer with input, w := .nonWord })
  else if c = '('.toUInt8 then
    (if lexer.w = .realWord then .SUB else .char c, { lexer with input, w := .nonWord })
  else if c = '&'.toUInt8 then
    if input.head? = some '&'.toUInt8 then
      (.ANDAND, { lexer with input := input.tail, w := .nonWord })
    else (.char c, { lexer with input, w := .nonWord })
  else if c = '|'.toUInt8 then lexPipe lexer input
  else if c = '<'.toUInt8 then lexLess lexer input
  else if c = '>'.toUInt8 then lexGreater lexer input
  else (.char c, { lexer with input, w := .nonWord })

/-- `yylex`. -/
def yylex (lexer : Lexer) : Token × Lexer :=
  if lexer.goterror then (.NL, { lexer with goterror := false })
  else
    let skipped := skipBlank lexer.w lexer.input
    let next := { lexer with dollar := false, w := skipped.1, input := skipped.2 }
    match next.input with
    | [] => (.ENDFILE, next)
    | c :: rest =>
        let isWord := !(if lexer.dollar then dollarNonWord c else nonWord c)
        if c = 0 then interactiveCtrlC { next with input := rest }
        else if (isWord || takesCaret c rest) && (next.w != .nonWord) then
          (.char '^'.toUInt8, { next with w := .nonWord })
        else if isWord then lexWord next lexer.dollar c rest
        else lexSpecial next c rest

/-- Calling `yylex` a number of times: the tokens, and the state after them. -/
def yylexes : Nat → Lexer → List Token × Lexer
  | 0, lexer => ([], lexer)
  | count + 1, lexer =>
      ((yylex lexer).1 :: (yylexes count (yylex lexer).2).1, (yylexes count (yylex lexer).2).2)

/-! ### Between two tokens -/

theorem skipBlank_of_ne (w : WordState) {c : UInt8} (rest : Text) (space : c ≠ ' '.toUInt8)
    (tab : c ≠ '\t'.toUInt8) (backslash : c ≠ 92) : skipBlank w (c :: rest) = (w, c :: rest) := by
  cases rest <;> simp [skipBlank, space, tab, backslash]

theorem skipBlank_escape (w : WordState) {c : UInt8} (rest : Text) (line : c ≠ '\n'.toUInt8) :
    skipBlank w (92 :: c :: rest) = (w, 92 :: c :: rest) := by
  rw [skipBlank, if_neg (by decide), if_pos rfl, if_neg line]

theorem skipBlank_space (w : WordState) {c : UInt8} (rest : Text)
    (blank : c = ' '.toUInt8 ∨ c = '\t'.toUInt8) :
    skipBlank w (c :: rest) = skipBlank .nonWord rest := by
  cases rest <;> simp [skipBlank, blank]

/-- A character of a plain word is none of the characters `yylex` treats specially. -/
theorem ne_of_not_nonWord {c : UInt8} (plain : nonWord c = false) (d : UInt8)
    (special : nonWord d = true) : c ≠ d := by
  rintro rfl
  exact absurd (plain.symm.trans special) (by decide)

/-- A plain word that touches no other one. -/
theorem yylex_word (c : UInt8) (rest : Text) (plain : nonWord c = false) :
    yylex (reading .nonWord (c :: rest)) = lexWord (reading .nonWord (c :: rest)) false c rest := by
  have ne := ne_of_not_nonWord plain
  unfold yylex
  simp only [reading, Bool.false_eq_true, if_false]
  rw [skipBlank_of_ne _ rest (ne _ (by decide)) (ne _ (by decide)) (ne _ (by decide))]
  simp [plain, ne 0 (by decide)]

/-- A character that is no word character, no blank and no backslash, when no free caret is
due. -/
theorem yylex_special (w : WordState) (c : UInt8) (rest : Text) (special : nonWord c = true)
    (nonzero : c ≠ 0) (space : c ≠ ' '.toUInt8) (tab : c ≠ '\t'.toUInt8) (backslash : c ≠ 92)
    (free : takesCaret c rest = false ∨ w = .nonWord) :
    yylex (reading w (c :: rest)) = lexSpecial (reading w (c :: rest)) c rest := by
  unfold yylex
  simp only [reading, Bool.false_eq_true, if_false]
  rw [skipBlank_of_ne _ rest space tab backslash]
  rcases free with free | free <;> simp [special, nonzero, free]

/-- A backslash in front of a character: an escape, or a free caret first. -/
theorem yylex_backslash {lexer : Lexer} {w : WordState} {c : UInt8} {rest : Text}
    (ready : lexer.goterror = false)
    (skipped : skipBlank lexer.w lexer.input = (w, 92 :: c :: rest)) :
    yylex lexer =
      if w = .nonWord then
        lexEscape { lexer with input := 92 :: c :: rest, w := .realWord, dollar := false } c rest
      else (.char '^'.toUInt8,
        { lexer with input := 92 :: c :: rest, w := .nonWord, dollar := false }) := by
  have special : nonWord 92 = true ∧ dollarNonWord 92 = true := by decide
  have word : (!(if lexer.dollar then dollarNonWord 92 else nonWord 92)) = false := by
    rw [special.1, special.2, ite_self, Bool.not_true]
  unfold yylex
  rw [ready, if_neg Bool.false_ne_true]
  dsimp only
  rw [skipped]
  dsimp only
  rw [word, if_neg (by decide), Bool.false_or]
  have caret : takesCaret 92 (c :: rest) = true := rfl
  cases w <;> simp [caret, lexSpecial, Char.toUInt8]

/-- An escape that touches no word and is not a continued line. -/
theorem yylex_escape (c : UInt8) (rest : Text) (line : c ≠ '\n'.toUInt8) :
    yylex (reading .nonWord (92 :: c :: rest)) =
      lexEscape (reading .realWord (92 :: c :: rest)) c rest :=
  (yylex_backslash rfl (skipBlank_escape _ rest line)).trans (if_pos rfl)

/-- An escape that starts with an octal digit. -/
theorem lexEscape_octal (lexer : Lexer) {c : UInt8} (input : Text) (octal : isodigit c = true) :
    lexEscape lexer c input =
      lexNumber lexer (octalNumber (c :: input.takeWhile isodigit)) (input.dropWhile isodigit) := by
  have ne : ∀ e : UInt8, isodigit e = false → c ≠ e := by
    rintro e nondigit rfl
    exact absurd (octal.symm.trans nondigit) (by decide)
  unfold lexEscape
  rw [if_neg (ne _ (by decide)), if_neg (ne _ (by decide)), if_neg (ne _ (by decide)),
    if_neg (ne _ (by decide)), if_neg (ne _ (by decide)), if_neg (ne _ (by decide)),
    if_neg (ne _ (by decide)), if_neg (ne _ (by decide)),
    if_neg (not_or.mpr ⟨ne _ (by decide), ne _ (by decide)⟩), if_pos octal]

/-! ### A property of every token -/

section

variable (P : Token → Prop) {condition : Prop} [Decidable condition]

theorem fst_ite {yes no : Token × Lexer} (first : P yes.1) (second : P no.1) :
    P (if condition then yes else no).1 := by
  split
  · exact first
  · exact second

theorem mem_ite {known : Token} {others : Option Token} (first : P known)
    (second : ∀ token ∈ others, P token) :
    ∀ token ∈ (if condition then some known else others), P token := by
  split
  · rintro _ ⟨⟩
    exact first
  · exact second

end

end Desh
