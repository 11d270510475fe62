/-
This file models the here documents (`heredoc.c`) and the state they share with
the actions of the grammar.

The queue holds the cell of each here document's eof word, which the document
replaces when it is read. Here a cell is known by its eof word: the words of a
parsed line are labels that may be told apart even where the same marker is
written twice, and `spelling` gives the marker a label stands for. The document
of a cell is found under its label once it has been read.
-/

import Desh.Grammar

namespace Desh

open Desh.Tree

/-! ### The state of the parser -/

/-- The state of the here documents. `texts` is what stands behind each newline that is still to
be met, first to last, and `rests` what the documents read there have left of it. -/
structure Documents where
  hereq : List Tree
  texts : List Text
  rests : List Text
  contents : List (Tree × Tree)
  deriving DecidableEq

/-- The state of the actions: `id` is the counter of `mkredir`, `error` the first message given to
`yyerror`. -/
structure Parser where
  documents : Documents
  id : Nat
  error : Option Text
  deriving DecidableEq

/-- The state `parse` starts in: `emptyherequeue` was called and there is no error. -/
def Parser.start (texts : List Text) (id : Nat) : Parser where
  documents := { hereq := [], texts, rests := [], contents := [] }
  id
  error := none

/-- How an action ends: with its value, with `YYABORT`, or with a failed assertion (or a null
pointer followed). -/
inductive Parsed (Value : Type) where
  | returns (value : Value) (parser : Parser)
  | yyabort (parser : Parser)
  | assertion
  deriving DecidableEq

/-- What follows a value that is returned. -/
def Parsed.andThen {Value Result : Type} (parsed : Parsed Value)
    (next : Value → Parser → Parsed Result) : Parsed Result :=
  match parsed with
  | .returns value parser => next value parser
  | .yyabort parser => .yyabort parser
  | .assertion => .assertion

/-- An action of the grammar. -/
def Parse (Value : Type) := Parser → Parsed Value

namespace Parse

instance : Monad Parse where
  pure value := fun parser => .returns value parser
  bind action next := fun parser => (action parser).andThen next

theorem bind_apply {Value Result : Type} (action : Parse Value) (next : Value → Parse Result)
    (parser : Parser) : (action >>= next) parser = (action parser).andThen next := rfl

/-- `YYABORT`. -/
def yyabort {Value : Type} : Parse Value := fun parser => .yyabort parser

/-- A failed assertion. -/
def assertion {Value : Type} : Parse Value := fun _ => .assertion

/-- A builder that can fail an assertion. -/
def check {Value : Type} : Option Value → Parse Value
  | some value => pure value
  | none => assertion

/-- `yyerror`: the first error is kept. -/
def yyerror (message : Text) : Parse Unit := fun parser =>
  .returns () { parser with error := parser.error <|> some message }

end Parse

/-! ### Buffers -/

/-- `Buffer`: the size of its array, and the characters that have been put there. -/
structure Buffer where
  len : Nat
  str : Text
  deriving DecidableEq

/-- `openbuffer`. -/
def openbuffer (minsize : Nat) : Buffer :=
  { len := if minsize < 500 then 500 else minsize, str := [] }

/-- `expandbuffer`. -/
def expandbuffer (buf : Buffer) (minsize : Nat) : Buffer :=
  { buf with len := buf.len + if minsize > buf.len then minsize else buf.len }

/-- The loop of `bufncat`, for so many rounds at most: room for more characters. -/
def makeRoom (len : Nat) : Nat → Buffer → Buffer
  | 0, buf => buf
  | rounds + 1, buf =>
      if buf.str.length + len ≥ buf.len then
        makeRoom len rounds (expandbuffer buf (buf.str.length + len - buf.len))
      else buf

/-- `bufncat`. The array grows in every round. -/
def bufncat (buf : Buffer) (s : Text) : Buffer :=
  let buf := makeRoom s.length (buf.str.length + s.length + 1) buf
  { buf with str := buf.str ++ s }

/-- `bufputc`. -/
def bufputc (buf : Buffer) (c : UInt8) : Buffer := bufncat buf [c]

theorem makeRoom_keeps (len rounds : Nat) (buf : Buffer) :
    (makeRoom len rounds buf).str = buf.str ∧ buf.len ≤ (makeRoom len rounds buf).len := by
  induction rounds generalizing buf with
  | zero => exact ⟨rfl, le_rfl⟩
  | succ rounds ih =>
    rw [makeRoom]
    split
    · obtain ⟨str, len⟩ := ih (expandbuffer buf _)
      exact ⟨str, (Nat.le_add_right _ _).trans len⟩
    · exact ⟨rfl, le_rfl⟩

theorem bufncat_keeps (buf : Buffer) (s : Text) :
    (bufncat buf s).str = buf.str ++ s ∧ buf.len ≤ (bufncat buf s).len := by
  obtain ⟨str, len⟩ := makeRoom_keeps s.length (buf.str.length + s.length + 1) buf
  exact ⟨congrArg (· ++ s) str, len⟩

theorem foldl_bufputc (s : Text) (buf : Buffer) :
    (s.foldl bufputc buf).str = buf.str ++ s ∧ buf.len ≤ (s.foldl bufputc buf).len := by
  induction s generalizing buf with
  | nil => exact ⟨(List.append_nil _).symm, le_rfl⟩
  | cons c s ih =>
    obtain ⟨str, len⟩ := ih (bufputc buf c)
    obtain ⟨put, kept⟩ := bufncat_keeps buf [c]
    rw [List.foldl_cons]
    refine ⟨?_, kept.trans len⟩
    rw [str, bufputc, put, List.append_assoc]
    rfl

/-- A buffer with a word in it. -/
theorem foldl_openbuffer (s : Text) :
    (s.foldl bufputc (openbuffer 0)).str = s ∧ (s.foldl bufputc (openbuffer 0)).len ≠ 0 := by
  obtain ⟨str, len⟩ := foldl_bufputc s (openbuffer 0)
  refine ⟨str, fun empty => ?_⟩
  rw [empty] at len
  exact absurd len (by decide)

/-! ### Reading one document -/

/-- Why a document could not be read. -/
inductive HereError where
  | message (text : Text)
  | assertion
  deriving DecidableEq

/-- How many characters of the marker the line begins with. -/
def matched : Text → Text → Nat
  | e :: eof, c :: input => if c = e then matched eof input + 1 else 0
  | _, _ => 0

/-- `getherevar`: a variable, after its dollar sign. The end of the input ends its name. The length
it looks at is that of the array. -/
def getherevar (input : Text) : Except HereError (Tree × Text) :=
  let buf := (input.takeWhile fun c => !dollarNonWord c).foldl bufputc (openbuffer 0)
  let rest := input.dropWhile fun c => !dollarNonWord c
  if buf.len = 0 then .error (.message (lit "null variable name in here document"))
  else
    .ok (flatten (nVar (nWord buf.str)) (lit " "),
      if rest.head? = some '^'.toUInt8 then rest.tail else rest)

/-- An empty name is not refused. -/
theorem getherevar_eq (input : Text) :
    getherevar input =
      .ok (flatten (nVar (nWord (input.takeWhile fun c => !dollarNonWord c))) (lit " "),
        if (input.dropWhile fun c => !dollarNonWord c).head? = some '^'.toUInt8 then
          (input.dropWhile fun c => !dollarNonWord c).tail
        else input.dropWhile fun c => !dollarNonWord c) := by
  obtain ⟨str, len⟩ := foldl_openbuffer (input.takeWhile fun c => !dollarNonWord c)
  unfold getherevar
  dsimp only
  rw [if_neg len, str]

theorem length_getherevar {input rest : Text} {tree : Tree}
    (read : getherevar input = .ok (tree, rest)) : rest.length ≤ input.length := by
  have shorter := (List.dropWhile_suffix (l := input) fun c => !dollarNonWord c).length_le
  rw [getherevar_eq] at read
  cases read
  split
  · rw [List.length_tail]
    omega
  · exact shorter

/-- The document so far, with what is in the buffer. -/
def flushed (tree : List Tree) (buf : Text) : List Tree :=
  if buf = [] then tree else tree ++ [nQword buf]

/-- The document at its end: a single piece stands for itself. -/
def document (tree : List Tree) (buf : Text) : Tree :=
  match if buf = [] ∧ tree ≠ [] then tree else tree ++ [nQword buf] with
  | [piece] => piece
  | pieces => ofList pieces

/-- The loops of `snarfheredoc`, at the `start` of a line or inside one. -/
def snarf (eof : Text) (quoted : Bool) (start : Bool) (tree : List Tree) (buf input : Text) :
    Except HereError (Tree × Text) :=
  if start then
    let after := input.drop (matched eof input)
    if after.head? = some 0 then .error (.message [])
    else if matched eof input = eof.length ∧ (after = [] ∨ after.head? = some '\n'.toUInt8) then
      .ok (document tree buf, after.tail)
    else snarf eof quoted false tree (buf ++ eof.take (matched eof input)) after
  else
    match input with
    | [] => .error (.message (lit "incomplete here document"))
    | c :: rest =>
        if c = 0 then .error (.message [])
        else if c = '$'.toUInt8 ∧ quoted = false then
          if rest.head? = some '$'.toUInt8 then snarf eof quoted false tree (buf ++ [c]) rest.tail
          else
            match _read : getherevar rest with
            | .error error => .error error
            | .ok (var, after) => snarf eof quoted false (flushed tree buf ++ [var]) [] after
        else snarf eof quoted (c == '\n'.toUInt8) tree (buf ++ [c]) rest
termination_by 2 * input.length + start.toNat
decreasing_by
  all_goals
    simp_all only [Bool.toNat_true, Bool.toNat_false, List.length_drop, List.length_cons,
      List.length_tail]
  · omega
  · omega
  · have shorter := length_getherevar _read
    omega
  · have bit := Bool.toNat_le (c == '\n'.toUInt8)
    omega

/-- `snarfheredoc`: read a document up to its marker. -/
def snarfheredoc (eof : Text) (quoted : Bool) (input : Text) : Except HereError (Tree × Text) :=
  if quoted = false ∧ '$'.toUInt8 ∈ eof then .error .assertion
  else if '\n'.toUInt8 ∈ eof then
    .error (.message (lit "here document eof-marker contains a newline"))
  else snarf eof quoted true [] [] input

/-! ### The queue -/

section Queue

variable (spelling : Text → Text)

/-- The loop of `readheredocs`: each queued document is read, in the order of the queue. -/
def readDocuments : List Tree → Text → Except HereError (List (Tree × Tree) × Text)
  | [], input => .ok ([], input)
  | eof :: hereq, input => do
      let (contents, input) ←
        match eof with
        | nWord s => snarfheredoc (spelling s) false input
        | nQword s => snarfheredoc (spelling s) true input
        | _ => .error .assertion
      let (others, input) ← readDocuments hereq input
      .ok ((eof, contents) :: others, input)

/-- `readheredocs`: at the end of a line the queue is emptied; at the end of the file it has to be
empty. The queue a failure leaves is emptied before the next parse. -/
def readheredocs (endfile : Bool) : Parse Bool := fun parser =>
  if endfile then
    if parser.documents.hereq = [] then .returns true parser
    else (do
      Parse.yyerror (lit "end of file with pending here documents")
      pure false) parser
  else
    let documents := parser.documents
    match readDocuments spelling documents.hereq (documents.texts.headD []) with
    | .ok (contents, rest) =>
        let documents :=
          { hereq := [], texts := documents.texts.tail, rests := documents.rests ++ [rest],
            contents := documents.contents ++ contents }
        .returns true { parser with documents }
    | .error (.message text) => (do
        Parse.yyerror text
        pure false) parser
    | .error .assertion => .assertion

end Queue

/-- `queueheredoc`: put the here document of a command in the queue; the command becomes `%here`.
A marker that is no literal word is refused. -/
def queueheredoc (t : Tree) : Parse (Option Tree) :=
  match t with
  | nList (nWord s) (nList fd (nList eof rest)) =>
      if s ≠ lit "%heredoc" then Parse.assertion
      else
        match eof with
        | null => Parse.assertion
        | nWord _ | nQword _ => fun parser =>
            let documents := { parser.documents with hereq := eof :: parser.documents.hereq }
            .returns (some (nList (nWord (lit "%here")) (nList fd (nList eof rest))))
              { parser with documents }
        | _ => do
            Parse.yyerror (lit "here document eof-marker not a single literal word")
            pure none
  | _ => Parse.assertion

end Desh
