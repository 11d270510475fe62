/-
This file has the functions that read characters, `yylex` (`token.c`),
`getherevar` and `snarfheredoc` (`heredoc.c`), as programs with every `GETC` and
`UNGETC` of the source. Their loops are given a number of rounds, so that every
part of a run is the whole run of some number. Line counting and prompting are
left out.

The file proves that none of them ever has more than `MAXUNGET` characters
outstanding, and with it that pushback is faithful.
-/

import Desh.Heredoc
import Desh.Reader
import Desh.Token

namespace Desh

/-! ### The scanner -/

/-- The static variables of `token.c`, with the first message given to `yyerror`. -/
structure Scanner where
  w : WordState
  dollar : Bool
  goterror : Bool
  error : Option Text
  deriving DecidableEq

/-- The state `inityy` leaves. -/
def Scanner.init : Scanner :=
  { w := .nonWord, dollar := false, goterror := false, error := none }

namespace Reader

/-- The result of `yylex`. -/
abbrev Lexed := Reader (Token × Scanner)

/-- `GETC()`. -/
def next : Reader Ch := .getc .ret

/-- `UNGETC(c)`. -/
def pushBack (c : Ch) : Reader Unit := .ungetc c (.ret ())

/-! ### Errors -/

/-- The loop of `scanerror`. -/
def restOfLine : Nat → Reader Unit
  | 0 => .unfinished
  | rounds + 1 => do
      let c ← next
      if c ≠ some '\n'.toUInt8 ∧ c ≠ none then restOfLine rounds else return ()

/-- `scanerror`. -/
def scanerror (rounds : Nat) (s : Text) (scanner : Scanner) : Reader Scanner := do
  restOfLine rounds
  return { scanner with goterror := true, error := scanner.error <|> some s }

/-- `scanerror`, and the return of `ERROR`. -/
def failed (rounds : Nat) (s : Text) (scanner : Scanner) : Lexed := do
  let scanner ← scanerror rounds s scanner
  return (.ERROR, scanner)

/-- The label `interactive_ctrl_c`. -/
def interactiveCtrlC (rounds : Nat) (scanner : Scanner) : Lexed :=
  failed rounds [] { scanner with w := .nonWord }

/-- `InsertFreeCaret`, in front of the rest. -/
def insertFreeCaret (c : Ch) (scanner : Scanner) (rest : Lexed) : Lexed :=
  if scanner.w ≠ .nonWord then do
    pushBack c
    return (.char '^'.toUInt8, { scanner with w := .nonWord })
  else rest

/-! ### Words -/

/-- The loop over a word: its characters, and the one that ended it. -/
def wordLoop (table : UInt8 → Bool) : Nat → Text → Reader (Text × Ch)
  | 0, _ => .unfinished
  | rounds + 1, buf => do
      match ← next with
      | none => return (buf, none)
      | some c => if table c then return (buf, some c) else wordLoop table rounds (buf ++ [c])

/-- The word branch of `yylex`. -/
def lexWord (rounds : Nat) (dollar : Bool) (c : UInt8) (scanner : Scanner) : Lexed := do
  let table :=
    if dollar then dollarNonWord else if c = '-'.toUInt8 then argumentNonWord else nonWord
  let (buf, c) ← wordLoop table rounds [c]
  pushBack c
  match keyword buf c with
  | some token => return (token, { scanner with w := .keyWord })
  | none => return (.WORD buf, { scanner with w := .realWord })

/-! ### Quoted words -/

/-- How the loop over a quoted word ends. -/
inductive QuoteEnd where
  | done (buf : Text)
  | interrupt
  | eof
  deriving DecidableEq

/-- The loop over a quoted word. -/
def quoteLoop (quote : UInt8) : Nat → Text → Reader QuoteEnd
  | 0, _ => .unfinished
  | rounds + 1, buf => do
      match ← next with
      | none => return .eof
      | some c =>
          if c = quote then
            let d ← next
            if d ≠ some quote then
              pushBack d
              return .done buf
            else quoteLoop quote rounds (buf ++ [quote])
          else if c = 92 then
            let d ← next
            if d = some '\n'.toUInt8 then quoteLoop quote rounds buf
            else if d ≠ some quote then
              pushBack d
              quoteLoop quote rounds (buf ++ [92])
            else quoteLoop quote rounds (buf ++ [quote])
          else if c = 0 then return .interrupt
          else quoteLoop quote rounds (buf ++ [c])

/-- The quote branch of `yylex`. -/
def lexQuote (rounds : Nat) (quote : UInt8) (scanner : Scanner) : Lexed := do
  match ← quoteLoop quote rounds [] with
  | .done buf => return (.QWORD buf, { scanner with w := .realWord })
  | .interrupt => interactiveCtrlC rounds scanner
  | .eof => failed rounds (lit "eof in quoted string") { scanner with w := .nonWord }

/-! ### Backslash escapes -/

/-- The label `badescape`. -/
def badescape (rounds : Nat) (scanner : Scanner) : Lexed :=
  failed rounds (lit "bad backslash escape") scanner

/-- The loop over the digits of an escape, with the number so far: the number, and the character
that ended it. -/
def escapeDigits (isDigit : UInt8 → Bool) (add : UInt32 → UInt8 → UInt32) :
    Nat → UInt32 → Reader (UInt32 × Ch)
  | 0, _ => .unfinished
  | rounds + 1, n => do
      match ← next with
      | none => return (n, none)
      | some c =>
          if isDigit c then escapeDigits isDigit add rounds (add n c) else return (n, some c)

/-- The end of a numeric escape. -/
def lexNumber (rounds : Nat) (n : UInt32) (c : Ch) (scanner : Scanner) : Lexed :=
  if n = 0 then badescape rounds scanner
  else do
    pushBack c
    return (.QWORD (oneByte n.toUInt8), scanner)

/-- The `switch` on the character after a backslash. -/
def lexEscape (rounds : Nat) (scanner : Scanner) : Lexed := do
  match ← next with
  | none => return (.QWORD [255], scanner)
  | some c =>
      if c = 0 then interactiveCtrlC rounds scanner
      else if c = 'a'.toUInt8 then return (.QWORD [7], scanner)
      else if c = 'b'.toUInt8 then return (.QWORD [8], scanner)
      else if c = 'e'.toUInt8 then return (.QWORD [27], scanner)
      else if c = 'f'.toUInt8 then return (.QWORD [12], scanner)
      else if c = 'n'.toUInt8 then return (.QWORD [10], scanner)
      else if c = 'r'.toUInt8 then return (.QWORD [13], scanner)
      else if c = 't'.toUInt8 then return (.QWORD [9], scanner)
      else if c = 'x'.toUInt8 ∨ c = 'X'.toUInt8 then
        let (n, c) ← escapeDigits isxdigit (fun n c => (n <<< 4) ||| hexValue c) rounds 0
        lexNumber rounds n c scanner
      else if isodigit c then
        let add (n : UInt32) (c : UInt8) := (n <<< 3) ||| (c - '0'.toUInt8).toUInt32
        let (n, c) ← escapeDigits isodigit add rounds (add 0 c)
        lexNumber rounds n c scanner
      else if isalnum c then badescape rounds scanner
      else return (.QWORD [c], scanner)

/-- The backslash branch of `yylex`, where `top` is what follows that label. -/
def lexBackslash (rounds : Nat) (top : Scanner → Lexed) (scanner : Scanner) : Lexed := do
  let c ← next
  if c = some '\n'.toUInt8 then
    pushBack (some ' '.toUInt8)
    top scanner
  else
    pushBack c
    if c = none then badescape rounds scanner
    else
      insertFreeCaret (some 92) scanner (lexEscape rounds { scanner with w := .realWord })

/-! ### Redirections -/

/-- The loop over a descriptor number: the number, and the character that ended it. -/
def decimalDigits : Nat → Int → Reader (Int × Ch)
  | 0, _ => .unfinished
  | rounds + 1, n => do
      match ← next with
      | none => return (n, none)
      | some c =>
          if isdigit c then decimalDigits rounds (n * 10 + ((c - '0'.toUInt8).toNat : Int))
          else return (n, some c)

/-- A number with at least one digit, or the character that stands for it. -/
def decimalNumber (rounds : Nat) : Reader (Except Ch (Int × Ch)) := do
  match ← next with
  | none => return .error none
  | some c =>
      if isdigit c then
        let found ← decimalDigits rounds ((c - '0'.toUInt8).toNat : Int)
        return .ok found
      else return .error (some c)

/-- `getfds`, whose failures have called `scanerror` with the message. -/
def getfds (rounds : Nat) (c : Ch) (default0 default1 : Int) :
    Reader (Except Text (Int × Int)) := do
  if c ≠ some '['.toUInt8 then
    pushBack c
    return .ok (default0, default1)
  else
    match ← decimalNumber rounds with
    | .error _ => return .error (lit "expected digit after '['")
    | .ok (fd0, c) =>
        if c = some '='.toUInt8 then
          match ← decimalNumber rounds with
          | .error c =>
              if c ≠ some ']'.toUInt8 then
                return .error (lit "expected digit or ']' after '='")
              else return .ok (fd0, CLOSED)
          | .ok (fd1, c) =>
              if c ≠ some ']'.toUInt8 then return .error (lit "expected ']' after digit")
              else return .ok (fd0, fd1)
        else if c = some ']'.toUInt8 then return .ok (fd0, default1)
        else return .error (lit "expected '=' or ']' after digit")

/-- The label `redirection`. -/
def lexRedirection (rounds : Nat) (cmd : Text) (fd : Int) (c : Ch) (scanner : Scanner) : Lexed := do
  let scanner := { scanner with w := .nonWord }
  match ← getfds rounds c fd DEFAULT with
  | .error s => failed rounds s scanner
  | .ok (fd0, fd1) =>
      if fd1 ≠ DEFAULT then
        return (.DUP (if fd1 = CLOSED then mkclose fd0 else mkdup fd0 fd1), scanner)
      else return (.REDIR (mkredircmd cmd fd0), scanner)

/-- The `<` branch of `yylex`. -/
def lexLess (rounds : Nat) (scanner : Scanner) : Lexed := do
  let c ← next
  if c = some '>'.toUInt8 then
    let c ← next
    if c = some '>'.toUInt8 then
      let c ← next
      lexRedirection rounds (lit "%open-append") 0 c scanner
    else lexRedirection rounds (lit "%open-write") 0 c scanner
  else if c = some '<'.toUInt8 then
    let c ← next
    if c = some '<'.toUInt8 then
      let c ← next
      lexRedirection rounds (lit "%here") 0 c scanner
    else lexRedirection rounds (lit "%heredoc") 0 c scanner
  else if c = some '='.toUInt8 then return (.CALL, scanner)
  else lexRedirection rounds (lit "%open") 0 c scanner

/-- The `>` branch of `yylex`. -/
def lexGreater (rounds : Nat) (scanner : Scanner) : Lexed := do
  let c ← next
  if c = some '>'.toUInt8 then
    let c ← next
    if c = some '<'.toUInt8 then
      let c ← next
      lexRedirection rounds (lit "%open-append") 1 c scanner
    else lexRedirection rounds (lit "%append") 1 c scanner
  else if c = some '<'.toUInt8 then
    let c ← next
    lexRedirection rounds (lit "%open-create") 1 c scanner
  else lexRedirection rounds (lit "%create") 1 c scanner

/-- The `|` branch of `yylex`. -/
def lexPipe (rounds : Nat) (scanner : Scanner) : Lexed := do
  let scanner := { scanner with w := .nonWord }
  let c ← next
  if c = some '|'.toUInt8 then return (.OROR, scanner)
  else
    match ← getfds rounds c 1 0 with
    | .error s => failed rounds s scanner
    | .ok (outfd, infd) =>
        if infd = CLOSED then failed rounds (lit "expected digit after '='") scanner
        else return (.PIPE (.nPipe outfd infd), scanner)

/-! ### `yylex` -/

/-- A token of two characters, or the first of them. -/
def lexPair (c d : UInt8) (pair : Token) (scanner : Scanner) : Lexed := do
  let following ← next
  if following = some d then return (pair, scanner)
  else
    pushBack following
    return (.char c, scanner)

/-- The `$` branch of `yylex`. -/
def lexDollar (scanner : Scanner) : Lexed := do
  let scanner := { scanner with dollar := true }
  let c ← next
  if c = some '#'.toUInt8 then return (.COUNT, scanner)
  else if c = some '^'.toUInt8 then return (.FLAT, scanner)
  else if c = some '&'.toUInt8 then return (.PRIM, scanner)
  else
    pushBack c
    return (.char '$'.toUInt8, scanner)

/-- The newline branch of `yylex`. -/
def lexNewline (scanner : Scanner) : Lexed := return (.NL, { scanner with w := .nonWord })

/-- The comment branch of `yylex`. -/
def lexComment (scanner : Scanner) : Nat → Lexed
  | 0 => .unfinished
  | rounds + 1 => do
      match ← next with
      | none => return (.ENDFILE, scanner)
      | some c =>
          if c = '\n'.toUInt8 then lexNewline scanner
          else if c = 0 then interactiveCtrlC rounds scanner
          else lexComment scanner rounds

/-- The `switch` of `yylex`. -/
def lexSpecial (rounds : Nat) (c : UInt8) (top : Scanner → Lexed) (scanner : Scanner) : Lexed :=
  if c = '!'.toUInt8 then return (.char c, scanner)
  else if c = 96 then lexPair c 96 .BACKBACK scanner
  else if c = '$'.toUInt8 then lexDollar scanner
  else if c = 39 ∨ c = 34 then lexQuote rounds c scanner
  else if c = 92 then lexBackslash rounds top scanner
  else if c = '#'.toUInt8 then lexComment scanner rounds
  else if c = '\n'.toUInt8 then lexNewline scanner
  else if c = '('.toUInt8 then
    return (if scanner.w = .realWord then .SUB else .char c, { scanner with w := .nonWord })
  else if c = '&'.toUInt8 then lexPair c c .ANDAND { scanner with w := .nonWord }
  else if c = '|'.toUInt8 then lexPipe rounds scanner
  else if c = '<'.toUInt8 then lexLess rounds scanner
  else if c = '>'.toUInt8 then lexGreater rounds scanner
  else return (.char c, { scanner with w := .nonWord })

/-- The characters that get a free caret before the `switch`. -/
def caretFirst (c : UInt8) : Bool :=
  c == 96 || c == '!'.toUInt8 || c == '$'.toUInt8 || c == 39 || c == 34

/-- `yylex` from its label `top` on; `dollar` tells the table. -/
def lexTop (dollar : Bool) : Nat → Scanner → Lexed
  | 0, _ => .unfinished
  | rounds + 1, scanner => do
      match ← next with
      | none => return (.ENDFILE, scanner)
      | some c =>
          if c = ' '.toUInt8 ∨ c = '\t'.toUInt8 then
            lexTop dollar rounds { scanner with w := .nonWord }
          else if c = 0 then interactiveCtrlC rounds scanner
          else if !(if dollar then dollarNonWord c else nonWord c) then
            insertFreeCaret (some c) scanner (lexWord rounds dollar c scanner)
          else if caretFirst c then
            let w := if c = '!'.toUInt8 then WordState.keyWord else scanner.w
            insertFreeCaret (some c) scanner
              (lexSpecial rounds c (lexTop dollar rounds) { scanner with w })
          else lexSpecial rounds c (lexTop dollar rounds) scanner

/-- `yylex`. -/
def yylex (rounds : Nat) (scanner : Scanner) : Lexed :=
  if scanner.goterror then return (.NL, { scanner with goterror := false })
  else lexTop scanner.dollar rounds { scanner with dollar := false }

/-! ### Here documents -/

/-- The loop of `getherevar`: the name, and the character that ended it. `edge` is what
`dollar_non_word[EOF]` happens to be, in front of the table. -/
def hereVarLoop (edge : Bool) : Nat → Text → Reader (Text × Ch)
  | 0, _ => .unfinished
  | rounds + 1, buf => do
      match ← next with
      | none => if edge then return (buf, none) else hereVarLoop edge rounds (buf ++ [255])
      | some c =>
          if dollarNonWord c then return (buf, some c)
          else hereVarLoop edge rounds (buf ++ [c])

/-- `getherevar`. -/
def getherevar (edge : Bool) (rounds : Nat) : Reader (Except HereError Tree) := do
  let (s, c) ← hereVarLoop edge rounds []
  let buf := s.foldl bufputc (openbuffer 0)
  if buf.len = 0 then return .error (.message (lit "null variable name in here document"))
  else
    if c ≠ some '^'.toUInt8 then pushBack c
    return .ok (flatten (.nVar (.nWord buf.str)) (lit " "))

/-- The loop that matches the marker: what is left of it, and the first character that does not
match. There is none after an interrupt. -/
def markerLoop : Text → Reader (Option (Text × Ch))
  | [] => do
      let c ← next
      if c = some 0 then return none else return some ([], c)
  | e :: eof => do
      let c ← next
      if c = some 0 then return none
      else if c ≠ some e then return some (e :: eof, c)
      else markerLoop eof

/-- The error at the label `incomplete`. -/
def incomplete (c : Ch) : HereError :=
  .message (if c = some 0 then [] else lit "incomplete here document")

/-- The loop over a line of the document, from the character `c` on: the pieces so far, and what is
in the buffer at the end of the line. -/
def lineLoop (edge quoted : Bool) :
    Nat → List Tree → Text → Ch → Reader (Except HereError (List Tree × Text))
  | 0, _, _, _ => .unfinished
  | rounds + 1, tree, buf, c => do
      match c with
      | none => return .error (incomplete none)
      | some c =>
          if c = 0 then return .error (incomplete (some 0))
          else if c = '$'.toUInt8 ∧ quoted = false then
            let d ← next
            if d ≠ some '$'.toUInt8 then
              pushBack d
              match ← getherevar edge rounds with
              | .error error => return .error error
              | .ok var =>
                  let c ← next
                  lineLoop edge quoted rounds (flushed tree buf ++ [var]) [] c
            else
              let c ← next
              lineLoop edge quoted rounds tree (buf ++ ['$'.toUInt8]) c
          else if c = '\n'.toUInt8 then return .ok (tree, buf ++ [c])
          else
            let d ← next
            lineLoop edge quoted rounds tree (buf ++ [c]) d

/-- The loop over the lines of the document. -/
def documentLoop (edge : Bool) (eof : Text) (quoted : Bool) :
    Nat → List Tree → Text → Reader (Except HereError Tree)
  | 0, _, _ => .unfinished
  | rounds + 1, tree, buf => do
      match ← markerLoop eof with
      | none => return .error (incomplete (some 0))
      | some (rest, c) =>
          if rest = [] ∧ (c = some '\n'.toUInt8 ∨ c = none) then return .ok (document tree buf)
          else
            let matched := eof.take (eof.length - rest.length)
            match ← lineLoop edge quoted rounds tree (buf ++ matched) c with
            | .error error => return .error error
            | .ok (tree, buf) => documentLoop edge eof quoted rounds tree buf

/-- `snarfheredoc`. -/
def snarfheredoc (edge : Bool) (rounds : Nat) (eof : Text) (quoted : Bool) :
    Reader (Except HereError Tree) :=
  if quoted = false ∧ '$'.toUInt8 ∈ eof then return .error .assertion
  else if '\n'.toUInt8 ∈ eof then
    return .error (.message (lit "here document eof-marker contains a newline"))
  else documentLoop edge eof quoted rounds [] []

/-! ### How many characters are outstanding -/

section

variable {α β : Type} {allowed : Ch → Prop} {ends : Nat → α → Prop} {n rounds : Nat}
  {scanner : Scanner}

theorem bounded_next {k : Ch → Reader α} :
    (next >>= k).Bounded allowed ends n ↔
      ∀ c, allowed c → (k c).Bounded allowed ends (n - 1) := Iff.rfl

theorem bounded_pushBack {c : Ch} {k : Unit → Reader α} :
    (pushBack c >>= k).Bounded allowed ends n ↔
      allowed c ∧ n + 1 ≤ MAXUNGET ∧ (k ()).Bounded allowed ends (n + 1) := Iff.rfl

theorem bounded_ite {condition : Prop} [Decidable condition] {yes no : Reader α}
    (holds : condition → yes.Bounded allowed ends n)
    (fails : ¬condition → no.Bounded allowed ends n) :
    (if condition then yes else no).Bounded allowed ends n := by
  split
  · exact holds ‹_›
  · exact fails ‹_›

/-- At most `MAXUNGET` characters are outstanding in the end. -/
def Few (n : Nat) (_ : α) : Prop := n ≤ MAXUNGET

/-- None is outstanding in the end, and the last character read is an allowed one. -/
def Spent (allowed : Ch → Prop) (n : Nat) (result : β × Ch) : Prop := n = 0 ∧ allowed result.2

theorem bounded_restOfLine (few : n ≤ MAXUNGET) : (restOfLine rounds).Bounded allowed Few n := by
  induction rounds generalizing n with
  | zero => exact trivial
  | succ rounds ih =>
    refine bounded_next.mpr fun c _ => ?_
    split
    · exact ih (by omega)
    · exact (Nat.sub_le n 1).trans few

theorem bounded_failed (few : n ≤ MAXUNGET) (s : Text) :
    (failed rounds s scanner).Bounded allowed Few n := by
  have skipped : (scanerror rounds s scanner).Bounded allowed Few n :=
    (bounded_restOfLine few).bind fun _ _ few => few
  exact skipped.bind fun _ _ few => few

theorem bounded_insertFreeCaret {c : Ch} {rest : Lexed} (legal : allowed c)
    (room : n + 1 ≤ MAXUNGET) (bounded : rest.Bounded allowed Few n) :
    (insertFreeCaret c scanner rest).Bounded allowed Few n := by
  unfold insertFreeCaret
  split
  · exact bounded_pushBack.mpr ⟨legal, room, room⟩
  · exact bounded

theorem bounded_wordLoop (table : UInt8 → Bool) (buf : Text) (one : n ≤ 1) :
    (wordLoop table rounds buf).Bounded allowed (Spent allowed) n := by
  induction rounds generalizing n buf with
  | zero => exact trivial
  | succ rounds ih =>
    refine bounded_next.mpr fun c legal => ?_
    split
    · exact ⟨by omega, legal⟩
    · split
      · exact ⟨by omega, legal⟩
      · exact ih _ (by omega)

theorem bounded_lexWord (dollar : Bool) (c : UInt8) (one : n ≤ 1) :
    (lexWord rounds dollar c scanner).Bounded allowed Few n := by
  refine (bounded_wordLoop _ _ one).bind fun m result spent => ?_
  obtain ⟨buf, c⟩ := result
  obtain ⟨rfl, legal⟩ := spent
  refine bounded_pushBack.mpr ⟨legal, by decide, ?_⟩
  split
  · exact show 1 ≤ MAXUNGET by decide
  · exact show 1 ≤ MAXUNGET by decide

theorem bounded_quoteLoop (quote : UInt8) (buf : Text) (one : n ≤ 1) :
    (quoteLoop quote rounds buf).Bounded allowed (fun m _ => m ≤ 1) n := by
  induction rounds generalizing n buf with
  | zero => exact trivial
  | succ rounds ih =>
    refine bounded_next.mpr fun c legal => ?_
    split
    · exact show n - 1 ≤ 1 by omega
    · split
      · refine bounded_next.mpr fun d legal' => ?_
        split
        · refine bounded_pushBack.mpr ⟨legal', by rw [MAXUNGET]; omega, ?_⟩
          show n - 1 - 1 + 1 ≤ 1
          omega
        · exact ih _ (by omega)
      · split
        · refine bounded_next.mpr fun d legal' => ?_
          split
          · exact ih _ (by omega)
          · split
            · refine bounded_pushBack.mpr ⟨legal', by rw [MAXUNGET]; omega, ?_⟩
              exact ih _ (by omega)
            · exact ih _ (by omega)
        · split
          · exact show n - 1 ≤ 1 by omega
          · exact ih _ (by omega)

theorem few_of_one {value : α} (one : n ≤ 1) : Few n value := one.trans (by decide)

theorem bounded_lexQuote (quote : UInt8) (one : n ≤ 1) :
    (lexQuote rounds quote scanner).Bounded allowed Few n := by
  refine (bounded_quoteLoop quote [] one).bind fun m result one => ?_
  cases result with
  | done buf => exact few_of_one one
  | interrupt => exact bounded_failed (one.trans (by decide)) _
  | eof => exact bounded_failed (one.trans (by decide)) _

theorem bounded_escapeDigits (isDigit : UInt8 → Bool) (add : UInt32 → UInt8 → UInt32)
    (value : UInt32) (one : n ≤ 1) :
    (escapeDigits isDigit add rounds value).Bounded allowed (Spent allowed) n := by
  induction rounds generalizing n value with
  | zero => exact trivial
  | succ rounds ih =>
    refine bounded_next.mpr fun c legal => ?_
    split
    · exact ⟨by omega, legal⟩
    · split
      · exact ih _ (by omega)
      · exact ⟨by omega, legal⟩

theorem bounded_lexNumber (value : UInt32) {c : Ch} (legal : allowed c) (one : n ≤ 1) :
    (lexNumber rounds value c scanner).Bounded allowed Few n := by
  unfold lexNumber
  split
  · exact bounded_failed (one.trans (by decide)) _
  · exact bounded_pushBack.mpr ⟨legal, Nat.succ_le_succ one, Nat.succ_le_succ one⟩

theorem bounded_numeric (isDigit : UInt8 → Bool) (add : UInt32 → UInt8 → UInt32) (value : UInt32)
    (one : n ≤ 1) :
    (escapeDigits isDigit add rounds value >>= fun found =>
      lexNumber rounds found.1 found.2 scanner).Bounded allowed Few n := by
  refine (bounded_escapeDigits isDigit add value one).bind fun m found spent => ?_
  obtain ⟨rfl, legal⟩ := spent
  exact bounded_lexNumber found.1 legal (Nat.zero_le 1)

theorem bounded_lexEscape (two : n ≤ MAXUNGET) :
    (lexEscape rounds scanner).Bounded allowed Few n := by
  have one : n - 1 ≤ 1 := Nat.sub_le_iff_le_add.mpr two
  have few : n - 1 ≤ MAXUNGET := one.trans (by decide)
  refine bounded_next.mpr fun c legal => ?_
  cases c with
  | none => exact few
  | some c =>
    refine bounded_ite (fun _ => bounded_failed few _) fun _ => ?_
    refine bounded_ite (fun _ => few) fun _ => bounded_ite (fun _ => few) fun _ => ?_
    refine bounded_ite (fun _ => few) fun _ => bounded_ite (fun _ => few) fun _ => ?_
    refine bounded_ite (fun _ => few) fun _ => bounded_ite (fun _ => few) fun _ => ?_
    refine bounded_ite (fun _ => few) fun _ => ?_
    refine bounded_ite (fun _ => bounded_numeric _ _ _ one) fun _ => ?_
    refine bounded_ite (fun _ => bounded_numeric _ _ _ one) fun _ => ?_
    exact bounded_ite (fun _ => bounded_failed few _) fun _ => few

theorem bounded_lexBackslash (space : allowed (some ' '.toUInt8)) (backslash : allowed (some 92))
    {top : Scanner → Lexed} (bounded : ∀ scanner, (top scanner).Bounded allowed Few 1)
    (one : n ≤ 1) :
    (lexBackslash rounds top scanner).Bounded allowed Few n := by
  have none' : n - 1 = 0 := Nat.sub_eq_zero_of_le one
  refine bounded_next.mpr fun c legal => ?_
  rw [none']
  refine bounded_ite (fun _ => ?_) fun _ => ?_
  · exact bounded_pushBack.mpr ⟨space, by decide, bounded scanner⟩
  · refine bounded_pushBack.mpr ⟨legal, by decide, ?_⟩
    refine bounded_ite (fun _ => bounded_failed (by decide) _) fun _ => ?_
    exact bounded_insertFreeCaret backslash (by decide) (bounded_lexEscape (by decide))

theorem bounded_decimalDigits (value : Int) (one : n ≤ 1) :
    (decimalDigits rounds value).Bounded allowed (Spent allowed) n := by
  induction rounds generalizing n value with
  | zero => exact trivial
  | succ rounds ih =>
    refine bounded_next.mpr fun c legal => ?_
    cases c with
    | none => exact ⟨by omega, legal⟩
    | some c =>
      exact bounded_ite (fun _ => ih _ (by omega)) fun _ => ⟨by omega, legal⟩

theorem bounded_decimalNumber (one : n ≤ 1) :
    (decimalNumber rounds).Bounded allowed (fun m _ => m = 0) n := by
  have none' : n - 1 = 0 := Nat.sub_eq_zero_of_le one
  refine bounded_next.mpr fun c legal => ?_
  rw [none']
  cases c with
  | none => exact rfl
  | some c =>
    refine bounded_ite (fun _ => ?_) fun _ => rfl
    exact (bounded_decimalDigits _ (Nat.zero_le 1)).bind fun _ _ spent => spent.1

theorem bounded_getfds {c : Ch} (legal : allowed c) (default0 default1 : Int) (one : n ≤ 1) :
    (getfds rounds c default0 default1).Bounded allowed Few n := by
  refine bounded_ite (fun _ => ?_) fun _ => ?_
  · exact bounded_pushBack.mpr ⟨legal, Nat.succ_le_succ one, Nat.succ_le_succ one⟩
  · refine (bounded_decimalNumber one).bind fun m found none' => ?_
    subst none'
    match found with
    | .error _ => exact Nat.zero_le _
    | .ok (fd0, c) =>
      refine bounded_ite (fun _ => ?_) fun _ => bounded_ite (fun _ => Nat.zero_le _) fun _ => ?_
      · refine (bounded_decimalNumber (Nat.zero_le 1)).bind fun m found none' => ?_
        subst none'
        match found with
        | .error c => exact bounded_ite (fun _ => Nat.zero_le _) fun _ => Nat.zero_le _
        | .ok (fd1, c) => exact bounded_ite (fun _ => Nat.zero_le _) fun _ => Nat.zero_le _
      · exact Nat.zero_le _

theorem bounded_lexRedirection (cmd : Text) (fd : Int) {c : Ch} (legal : allowed c)
    (one : n ≤ 1) : (lexRedirection rounds cmd fd c scanner).Bounded allowed Few n := by
  refine (bounded_getfds legal fd DEFAULT one).bind fun m found few => ?_
  match found with
  | .error s => exact bounded_failed few s
  | .ok (fd0, fd1) => exact bounded_ite (fun _ => few) fun _ => few

theorem bounded_lexPipe (one : n ≤ 1) : (lexPipe rounds scanner).Bounded allowed Few n := by
  have none' : n - 1 = 0 := Nat.sub_eq_zero_of_le one
  refine bounded_next.mpr fun c legal => ?_
  rw [none']
  refine bounded_ite (fun _ => Nat.zero_le _) fun _ => ?_
  refine (bounded_getfds legal 1 0 (Nat.zero_le 1)).bind fun m found few => ?_
  match found with
  | .error s => exact bounded_failed few s
  | .ok (outfd, infd) => exact bounded_ite (fun _ => bounded_failed few _) fun _ => few

theorem bounded_lexLess (one : n ≤ 1) : (lexLess rounds scanner).Bounded allowed Few n := by
  refine bounded_next.mpr fun c legal => ?_
  refine bounded_ite (fun _ => ?_) fun _ => bounded_ite (fun _ => ?_) fun _ => ?_
  · refine bounded_next.mpr fun d legal' => bounded_ite (fun _ => ?_) fun _ => ?_
    · exact bounded_next.mpr fun e legal => bounded_lexRedirection _ _ legal (by omega)
    · exact bounded_lexRedirection _ _ legal' (by omega)
  · refine bounded_next.mpr fun d legal' => bounded_ite (fun _ => ?_) fun _ => ?_
    · exact bounded_next.mpr fun e legal => bounded_lexRedirection _ _ legal (by omega)
    · exact bounded_lexRedirection _ _ legal' (by omega)
  · refine bounded_ite (fun _ => few_of_one (by omega)) fun _ => ?_
    exact bounded_lexRedirection _ _ legal (by omega)

theorem bounded_lexGreater (one : n ≤ 1) : (lexGreater rounds scanner).Bounded allowed Few n := by
  refine bounded_next.mpr fun c legal => ?_
  refine bounded_ite (fun _ => ?_) fun _ => bounded_ite (fun _ => ?_) fun _ => ?_
  · refine bounded_next.mpr fun d legal' => bounded_ite (fun _ => ?_) fun _ => ?_
    · exact bounded_next.mpr fun e legal => bounded_lexRedirection _ _ legal (by omega)
    · exact bounded_lexRedirection _ _ legal' (by omega)
  · exact bounded_next.mpr fun d legal => bounded_lexRedirection _ _ legal (by omega)
  · exact bounded_lexRedirection _ _ legal (by omega)

theorem bounded_lexPair (c d : UInt8) (pair : Token) (one : n ≤ 1) :
    (lexPair c d pair scanner).Bounded allowed Few n := by
  have none' : n - 1 = 0 := Nat.sub_eq_zero_of_le one
  refine bounded_next.mpr fun following legal => ?_
  rw [none']
  refine bounded_ite (fun _ => Nat.zero_le _) fun _ => ?_
  exact bounded_pushBack.mpr ⟨legal, by decide, show 1 ≤ MAXUNGET by decide⟩

theorem bounded_lexDollar (one : n ≤ 1) : (lexDollar scanner).Bounded allowed Few n := by
  have none' : n - 1 = 0 := Nat.sub_eq_zero_of_le one
  refine bounded_next.mpr fun c legal => ?_
  rw [none']
  refine bounded_ite (fun _ => Nat.zero_le _) fun _ => bounded_ite (fun _ => Nat.zero_le _) fun _ =>
    bounded_ite (fun _ => Nat.zero_le _) fun _ => ?_
  exact bounded_pushBack.mpr ⟨legal, by decide, show 1 ≤ MAXUNGET by decide⟩

theorem bounded_lexComment (few : n ≤ MAXUNGET) :
    (lexComment scanner rounds).Bounded allowed Few n := by
  induction rounds generalizing n with
  | zero => exact trivial
  | succ rounds ih =>
    have fewer : n - 1 ≤ MAXUNGET := (Nat.sub_le n 1).trans few
    refine bounded_next.mpr fun c legal => ?_
    cases c with
    | none => exact fewer
    | some c =>
      refine bounded_ite (fun _ => fewer) fun _ => ?_
      exact bounded_ite (fun _ => bounded_failed fewer _) fun _ => ih fewer

theorem bounded_lexSpecial (space : allowed (some ' '.toUInt8)) (backslash : allowed (some 92))
    (c : UInt8) {top : Scanner → Lexed} (bounded : ∀ scanner, (top scanner).Bounded allowed Few 1)
    (one : n ≤ 1) :
    (lexSpecial rounds c top scanner).Bounded allowed Few n := by
  have few : n ≤ MAXUNGET := one.trans (by decide)
  unfold lexSpecial
  refine bounded_ite (fun _ => few) fun _ => ?_
  refine bounded_ite (fun _ => bounded_lexPair _ _ _ one) fun _ => ?_
  refine bounded_ite (fun _ => bounded_lexDollar one) fun _ => ?_
  refine bounded_ite (fun _ => bounded_lexQuote c one) fun _ => ?_
  refine bounded_ite (fun _ => bounded_lexBackslash space backslash bounded one) fun _ => ?_
  refine bounded_ite (fun _ => bounded_lexComment few) fun _ => ?_
  refine bounded_ite (fun _ => few) fun _ => bounded_ite (fun _ => few) fun _ => ?_
  refine bounded_ite (fun _ => bounded_lexPair _ _ _ one) fun _ => ?_
  refine bounded_ite (fun _ => bounded_lexPipe one) fun _ => ?_
  refine bounded_ite (fun _ => bounded_lexLess one) fun _ => ?_
  exact bounded_ite (fun _ => bounded_lexGreater one) fun _ => few

theorem bounded_lexTop (space : allowed (some ' '.toUInt8)) (backslash : allowed (some 92))
    (dollar : Bool) (few : n ≤ MAXUNGET) :
    (lexTop dollar rounds scanner).Bounded allowed Few n := by
  induction rounds generalizing n scanner with
  | zero => exact trivial
  | succ rounds ih =>
    have one : n - 1 ≤ 1 := Nat.sub_le_iff_le_add.mpr few
    have fewer : n - 1 ≤ MAXUNGET := (Nat.sub_le n 1).trans few
    have room : n - 1 + 1 ≤ MAXUNGET := Nat.succ_le_succ one
    refine bounded_next.mpr fun c legal => ?_
    cases c with
    | none => exact fewer
    | some c =>
      have again : ∀ scanner, (lexTop dollar rounds scanner).Bounded allowed Few 1 :=
        fun scanner => ih (by decide)
      refine bounded_ite (fun _ => ih fewer) fun _ => ?_
      refine bounded_ite (fun _ => bounded_failed fewer _) fun _ => ?_
      refine bounded_ite (fun _ => ?_) fun _ => bounded_ite (fun _ => ?_) fun _ => ?_
      · exact bounded_insertFreeCaret legal room (bounded_lexWord dollar c one)
      · exact bounded_insertFreeCaret legal room (bounded_lexSpecial space backslash c again one)
      · exact bounded_lexSpecial space backslash c again one

/-- `yylex` never has more than `MAXUNGET` characters outstanding. -/
theorem bounded_yylex (space : allowed (some ' '.toUInt8)) (backslash : allowed (some 92))
    (few : n ≤ MAXUNGET) : (yylex rounds scanner).Bounded allowed Few n := by
  unfold yylex
  exact bounded_ite (fun _ => few) fun _ => bounded_lexTop space backslash _ few

theorem bounded_hereVarLoop (edge : Bool) (buf : Text) (few : n ≤ MAXUNGET) :
    (hereVarLoop edge rounds buf).Bounded allowed (fun m found => m ≤ 1 ∧ allowed found.2) n := by
  induction rounds generalizing n buf with
  | zero => exact trivial
  | succ rounds ih =>
    have one : n - 1 ≤ 1 := Nat.sub_le_iff_le_add.mpr few
    have fewer : n - 1 ≤ MAXUNGET := (Nat.sub_le n 1).trans few
    refine bounded_next.mpr fun c legal => ?_
    cases c with
    | none => exact bounded_ite (fun _ => ⟨one, legal⟩) fun _ => ih _ fewer
    | some c => exact bounded_ite (fun _ => ⟨one, legal⟩) fun _ => ih _ fewer

/-- `getherevar` never has more than `MAXUNGET` characters outstanding. -/
theorem bounded_getherevar (edge : Bool) (few : n ≤ MAXUNGET) :
    (getherevar edge rounds).Bounded allowed Few n := by
  refine (bounded_hereVarLoop edge [] few).bind fun m found one => ?_
  obtain ⟨one, legal⟩ := one
  refine bounded_ite (fun _ => few_of_one one) fun _ => bounded_ite (fun _ => ?_) fun _ => ?_
  · exact bounded_pushBack.mpr ⟨legal, Nat.succ_le_succ one, Nat.succ_le_succ one⟩
  · exact few_of_one one

theorem bounded_markerLoop (eof : Text) (few : n ≤ MAXUNGET) :
    (markerLoop eof).Bounded allowed (fun m _ => m ≤ 1) n := by
  induction eof generalizing n with
  | nil =>
    refine bounded_next.mpr fun c legal => ?_
    have one : n - 1 ≤ 1 := Nat.sub_le_iff_le_add.mpr few
    exact bounded_ite (fun _ => one) fun _ => one
  | cons e eof ih =>
    refine bounded_next.mpr fun c legal => ?_
    have one : n - 1 ≤ 1 := Nat.sub_le_iff_le_add.mpr few
    refine bounded_ite (fun _ => one) fun _ => bounded_ite (fun _ => one) fun _ => ?_
    exact ih ((Nat.sub_le n 1).trans few)

theorem bounded_lineLoop (edge quoted : Bool) (tree : List Tree) (buf : Text) (c : Ch)
    (one : n ≤ 1) : (lineLoop edge quoted rounds tree buf c).Bounded allowed Few n := by
  induction rounds generalizing n tree buf c with
  | zero => exact trivial
  | succ rounds ih =>
    have few : n ≤ MAXUNGET := one.trans (by decide)
    have none' : n - 1 = 0 := Nat.sub_eq_zero_of_le one
    cases c with
    | none => exact few
    | some c =>
      refine bounded_ite (fun _ => few) fun _ => bounded_ite (fun _ => ?_) fun _ => ?_
      · refine bounded_next.mpr fun d legal => ?_
        rw [none']
        refine bounded_ite (fun _ => ?_) fun _ => ?_
        · refine bounded_pushBack.mpr ⟨legal, by decide, ?_⟩
          refine (bounded_getherevar edge (by decide)).bind fun m found few => ?_
          match found with
          | .error error => exact few
          | .ok var =>
            exact bounded_next.mpr fun c _ => ih _ _ c (Nat.sub_le_iff_le_add.mpr few)
        · exact bounded_next.mpr fun c _ => ih _ _ c (by decide)
      · refine bounded_ite (fun _ => few) fun _ => ?_
        exact bounded_next.mpr fun d _ => ih _ _ d (by omega)

theorem bounded_documentLoop (edge : Bool) (eof : Text) (quoted : Bool) (tree : List Tree)
    (buf : Text) (few : n ≤ MAXUNGET) :
    (documentLoop edge eof quoted rounds tree buf).Bounded allowed Few n := by
  induction rounds generalizing n tree buf with
  | zero => exact trivial
  | succ rounds ih =>
    refine (bounded_markerLoop eof few).bind fun m found one => ?_
    match found with
    | none => exact few_of_one one
    | some (rest, c) =>
      refine bounded_ite (fun _ => few_of_one one) fun _ => ?_
      refine (bounded_lineLoop edge quoted _ _ c one).bind fun m found few => ?_
      match found with
      | .error error => exact few
      | .ok (tree, buf) => exact ih tree buf few

/-- `snarfheredoc` never has more than `MAXUNGET` characters outstanding. -/
theorem bounded_snarfheredoc (edge : Bool) (eof : Text) (quoted : Bool) (few : n ≤ MAXUNGET) :
    (snarfheredoc edge rounds eof quoted).Bounded allowed Few n := by
  unfold snarfheredoc
  refine bounded_ite (fun _ => few) fun _ => bounded_ite (fun _ => few) fun _ => ?_
  exact bounded_documentLoop edge eof quoted [] [] few

end

/-! ### Pushback is faithful -/

/-- An input as it is opened: from a descriptor whose reads divide the text in some way, or from a
string. -/
def Opens (input : Input) (text : Text) (echoinput : Bool) : Prop :=
  (∃ reads : List Text, (∀ bytes ∈ reads, bytes ≠ []) ∧ reads.flatten = text ∧
      input = .ofReads reads echoinput) ∨
    input = .ofString text echoinput

theorem Opens.sound {input : Input} {text : Text} {echoinput : Bool}
    (opens : Opens input text echoinput) (nulFree : NulFree text) :
    input.Sound ∧ input.unget = [] ∧ input.unread = text ∧ input.echoinput = echoinput ∧
      input.echoed = [] := by
  obtain ⟨reads, nonempty, rfl, rfl⟩ | rfl := opens
  · exact ⟨Input.sound_ofReads nonempty nulFree echoinput, rfl, rfl, rfl, rfl⟩
  · exact ⟨Input.sound_ofString nulFree echoinput, rfl, List.append_nil text, rfl, rfl⟩

/-- Whatever a program gets from an input and pushes back to it, it gets what it would get from the
list of the characters, where a character pushed back is put in front of the others. With `-v`, what
has been echoed is what has been read of the text, and nothing is echoed without. The only other
end is an assertion of `unget`, when more than `MAXUNGET` characters are outstanding. -/
def Faithful {α : Type} (program : Reader α) (input : Input) (text : Text) (echoinput : Bool) :
    Prop :=
  program.runs input = none ∧ ¬program.Bounded (· ≠ some 0) (fun _ _ => True) 0 ∨
    ∃ later, program.runs input = some ((program.onList (text.map some)).1, later) ∧
      later.upcoming = (program.onList (text.map some)).2 ∧
      (echoinput = true → later.echoed ++ later.unread = text) ∧
      (echoinput = false → later.echoed = [])

/-- The functions that push characters back never have more than `MAXUNGET` outstanding, and leave
no more for the next of them, whatever characters the input may have; the blank and the backslash
are also pushed back unread. -/
def LexersBounded : Prop :=
  ∀ (allowed : Ch → Prop), allowed (some ' '.toUInt8) → allowed (some 92) →
    ∀ (n rounds : Nat), n ≤ MAXUNGET →
      (∀ scanner, (yylex rounds scanner).Bounded allowed Few n) ∧
        (∀ edge, (getherevar edge rounds).Bounded allowed Few n) ∧
        ∀ edge eof quoted, (snarfheredoc edge rounds eof quoted).Bounded allowed Few n

/-- Pushback is faithful on every text without null characters, however it comes. -/
theorem pushback_faithful {α : Type} {input : Input} {text : Text} {echoinput : Bool}
    (opens : Opens input text echoinput) (nulFree : NulFree text) (program : Reader α)
    (clean : program.PushesNoNull) :
    Faithful program input text echoinput ∧ LexersBounded := by
  refine ⟨?_, fun allowed space backslash n rounds few => ⟨
    fun scanner => bounded_yylex space backslash few,
    fun edge => bounded_getherevar edge few,
    fun edge eof quoted => bounded_snarfheredoc edge eof quoted few⟩⟩
  obtain ⟨sound, unget, unread, echo, echoed⟩ := opens.sound nulFree
  have upcoming : input.upcoming = text.map some := by
    rw [Input.upcoming, unget, unread]
    rfl
  have outstanding : input.unget.length ≤ 0 := (congrArg List.length unget).le
  obtain failed | ⟨later, ran, -, same, -, echoes, silent⟩ :=
    program.runs_eq sound clean outstanding fun _ _ => True
  · exact .inl failed
  · rw [upcoming] at ran same
    refine .inr ⟨later, ran, same, fun on => ?_, fun off => ?_⟩
    · rw [echoes (echo.trans on), echoed, unread, List.nil_append]
    · rw [silent (echo.trans off), echoed]

/-- Two characters are pushed back that were read from different buffers. -/
theorem pushback_faithful_twice :
    Faithful (next >>= fun c => next >>= fun d => pushBack d >>= fun _ => pushBack c >>= fun _ =>
        next) (.ofReads [lit "a", lit "b"] true) (lit "ab") true ∧ LexersBounded := by
  refine pushback_faithful (.inl ⟨[lit "a", lit "b"], ?_, rfl, rfl⟩) ?_ _ ?_
  · decide
  · decide
  · exact fun c nonzero d nonzero' => ⟨nonzero', nonzero, fun e _ => trivial⟩

end Reader

end Desh
