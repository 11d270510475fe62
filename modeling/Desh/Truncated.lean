/-
This file follows the reading of here documents (`heredoc.c`) on inputs that end
anywhere, with what it does to the rest of the shell: the buffers it opens and
gives back, the errors it reports, and where it looks in the table of the
characters that end a name.

The end of the input is no index of that table, so what stands in front of it
decides whether a name that the input breaks off ends at all.
-/

import Desh.Bodies
import Desh.Scanning

namespace Desh

open Desh.Tree

/-! ### Programs that leave traces -/

/-- What has been done: the buffers that are open, and whether one was used or given back that is
not; whether the table was read outside, and a `NULL` tree followed; the errors reported. -/
structure Usage where
  live : List Nat
  fresh : Nat
  misused : Bool
  outside : Bool
  followed : Bool
  errors : List Text
  heredoc_input : Bool

/-- Before anything is done. -/
def Usage.initial : Usage :=
  { live := [], fresh := 0, misused := false, outside := false, followed := false, errors := []
    heredoc_input := false }

/-- A program whose steps are recorded. -/
abbrev Recorded := StateT Usage Reader

/-- A pointer to a buffer, and the buffer. -/
structure BufferPointer where
  id : Nat
  buffer : Buffer

namespace Recorded

variable {α β : Type}

/-- A program without traces. -/
def lift (program : Reader α) : Recorded α := fun usage =>
  program >>= fun value => .ret (value, usage)

/-- A step that only leaves traces. -/
def record (value : α) (change : Usage → Usage) : Recorded α := fun usage =>
  .ret (value, change usage)

/-- The label of a loop that did not end in the rounds it was given. -/
def unfinished : Recorded α := fun _ => .unfinished

/-- `yyerror`. -/
def yyerror (s : Text) : Recorded Unit :=
  record () fun usage => { usage with errors := usage.errors ++ [s] }

/-- `heredoc_input` is set. -/
def setHeredocInput (on : Bool) : Recorded Unit :=
  record () fun usage => { usage with heredoc_input := on }

/-- A tree is followed, which is `NULL` or not. -/
def follow (null : Bool) : Recorded Unit :=
  record () fun usage => { usage with followed := usage.followed || null }

/-- `openbuffer`. -/
def openBuffer : Recorded BufferPointer := fun usage =>
  .ret (⟨usage.fresh, openbuffer 0⟩,
    { usage with live := usage.fresh :: usage.live, fresh := usage.fresh + 1 })

/-- A buffer is used. -/
def touch (buf : BufferPointer) (usage : Usage) : Usage :=
  { usage with misused := usage.misused || !usage.live.contains buf.id }

/-- `bufncat`. -/
def put (buf : BufferPointer) (s : Text) : Recorded BufferPointer :=
  record { buf with buffer := bufncat buf.buffer s } (touch buf)

/-- `freebuffer`. -/
def freebuffer (buf : BufferPointer) : Recorded Unit :=
  record () fun usage =>
    let usage := touch buf usage
    { usage with live := usage.live.erase buf.id }

/-- `sealcountedbuffer`. -/
def sealBuffer (buf : BufferPointer) : Recorded Text :=
  record buf.buffer.str fun usage =>
    let usage := touch buf usage
    { usage with live := usage.live.erase buf.id }

/-- `dollar_non_word[c]`, where `edge` stands in front of the table. -/
def dollarNonWordAt (edge : Bool) (c : Ch) : Recorded Bool :=
  match c with
  | some c => record (dollarNonWord c) id
  | none => record edge fun usage => { usage with outside := true }

/-! ### Here documents -/

/-- The loop of `getherevar`. -/
def hereVarLoop (edge : Bool) : Nat → BufferPointer → Recorded (BufferPointer × Ch)
  | 0, _ => unfinished
  | rounds + 1, buf => do
      let c ← lift Reader.next
      if ← dollarNonWordAt edge c then return (buf, c)
      else
        let buf ← put buf [c.getD 255]
        hereVarLoop edge rounds buf

/-- `getherevar`. -/
def getherevar (edge : Bool) (rounds : Nat) : Recorded (Except HereError Tree) := do
  let buf ← openBuffer
  let (buf, c) ← hereVarLoop edge rounds buf
  let len := buf.buffer.len
  let s ← sealBuffer buf
  if len = 0 then
    yyerror (lit "null variable name in here document")
    return .error (.message (lit "null variable name in here document"))
  else
    if c ≠ some '^'.toUInt8 then lift (Reader.pushBack c)
    return .ok (flatten (nVar (nWord s)) (lit " "))

/-- How a line of a document ends. -/
inductive LineEnd where
  | newline (tree : List Tree) (buf : BufferPointer)
  | incomplete (c : Ch) (buf : BufferPointer)
  | nullVar (error : HereError) (buf : BufferPointer)

/-- The loop over a line of the document, from the character `c` on. -/
def lineLoop (edge quoted : Bool) :
    Nat → List Tree → BufferPointer → Ch → Recorded LineEnd
  | 0, _, _, _ => unfinished
  | rounds + 1, tree, buf, c => do
      match c with
      | none => return .incomplete none buf
      | some c =>
          if c = 0 then return .incomplete (some 0) buf
          else if c = '$'.toUInt8 ∧ quoted = false then
            let d ← lift Reader.next
            if d ≠ some '$'.toUInt8 then
              lift (Reader.pushBack d)
              let tree ←
                if buf.buffer.str = [] then do
                  freebuffer buf
                  pure tree
                else do
                  let s ← sealBuffer buf
                  pure (tree ++ [nQword s])
              match ← getherevar edge rounds with
              | .error error => return .nullVar error buf
              | .ok var =>
                  let buf ← openBuffer
                  let c ← lift Reader.next
                  lineLoop edge quoted rounds (tree ++ [var]) buf c
            else
              let buf ← put buf ['$'.toUInt8]
              let c ← lift Reader.next
              lineLoop edge quoted rounds tree buf c
          else
            let buf ← put buf [c]
            if c = '\n'.toUInt8 then return .newline tree buf
            else
              let d ← lift Reader.next
              lineLoop edge quoted rounds tree buf d

/-- The label `incomplete`. -/
def incomplete (c : Ch) (buf : BufferPointer) : Recorded (Except HereError Tree) := do
  yyerror (if c = some 0 then [] else lit "incomplete here document")
  freebuffer buf
  setHeredocInput false
  return .error (Reader.incomplete c)

/-- The end of the document. -/
def finish (tree : List Tree) (buf : BufferPointer) : Recorded (Except HereError Tree) := do
  let tree ←
    if buf.buffer.str = [] ∧ tree ≠ [] then do
      freebuffer buf
      pure tree
    else do
      let s ← sealBuffer buf
      pure (tree ++ [nQword s])
  setHeredocInput false
  follow tree.isEmpty
  return .ok (match tree with
    | [piece] => piece
    | pieces => ofList pieces)

/-- The loop over the lines of the document. -/
def documentLoop (edge : Bool) (eof : Text) (quoted : Bool) :
    Nat → List Tree → BufferPointer → Recorded (Except HereError Tree)
  | 0, _, _ => unfinished
  | rounds + 1, tree, buf => do
      match ← lift (Reader.markerLoop eof) with
      | none => incomplete (some 0) buf
      | some (rest, c) =>
          if rest = [] ∧ (c = some '\n'.toUInt8 ∨ c = none) then finish tree buf
          else
            let matched := eof.take (eof.length - rest.length)
            let buf ← if matched ≠ [] then put buf matched else pure buf
            match ← lineLoop edge quoted rounds tree buf c with
            | .newline tree buf => documentLoop edge eof quoted rounds tree buf
            | .incomplete c buf => incomplete c buf
            | .nullVar error buf => do
                freebuffer buf
                setHeredocInput false
                return .error error

/-- `snarfheredoc`. -/
def snarfheredoc (edge : Bool) (eof : Text) (quoted : Bool) (rounds : Nat) :
    Recorded (Except HereError Tree) :=
  if quoted = false ∧ '$'.toUInt8 ∈ eof then return .error .assertion
  else if '\n'.toUInt8 ∈ eof then do
    yyerror (lit "here document eof-marker contains a newline")
    return .error (.message (lit "here document eof-marker contains a newline"))
  else do
    setHeredocInput true
    let buf ← openBuffer
    documentLoop edge eof quoted rounds [] buf

/-! ### Without the traces -/

variable {γ δ : Type}

/-- The program does what another does that leaves no traces. -/
inductive Forgets (same : α → β → Prop) : Reader (α × Usage) → Reader β → Prop
  | ret {a : α} {b : β} (usage : Usage) (values : same a b) :
      Forgets same (.ret (a, usage)) (.ret b)
  | unfinished : Forgets same .unfinished .unfinished
  | getc {k : Ch → Reader (α × Usage)} {k' : Ch → Reader β}
      (goes : ∀ c, Forgets same (k c) (k' c)) : Forgets same (.getc k) (.getc k')
  | ungetc (c : Ch) {k : Reader (α × Usage)} {k' : Reader β} (goes : Forgets same k k') :
      Forgets same (.ungetc c k) (.ungetc c k')

theorem Forgets.bind {same : α → β → Prop} {last : γ → δ → Prop} {program : Recorded α}
    {other : Reader β} {next : α → Recorded γ} {next' : β → Reader δ} {usage : Usage}
    (forgets : Forgets same (program usage) other)
    (goes : ∀ a b usage, same a b → Forgets last (next a usage) (next' b)) :
    Forgets last ((program >>= next) usage) (other >>= next') := by
  show Forgets last (program usage >>= fun result => next result.1 result.2) _
  generalize program usage = recorded at forgets
  induction forgets with
  | ret usage values => exact goes _ _ usage values
  | unfinished => exact .unfinished
  | getc _ ih => exact .getc ih
  | ungetc c _ ih => exact .ungetc c ih

theorem forgets_lift (program : Reader α) (usage : Usage) :
    Forgets Eq (lift program usage) program := by
  induction program with
  | ret value => exact .ret usage rfl
  | unfinished => exact .unfinished
  | getc k ih => exact .getc ih
  | ungetc c k ih => exact .ungetc c ih

theorem forgets_openBuffer {same : γ → β → Prop} {next : BufferPointer → Recorded γ} {usage : Usage}
    {other : Reader β}
    (goes : Forgets same (next ⟨usage.fresh, openbuffer 0⟩
      { usage with live := usage.fresh :: usage.live, fresh := usage.fresh + 1 }) other) :
    Forgets same ((openBuffer >>= next) usage) other := goes

theorem forgets_record {same : γ → β → Prop} {value : α} {change : Usage → Usage}
    {next : α → Recorded γ} {usage : Usage} {other : Reader β}
    (goes : Forgets same (next value (change usage)) other) :
    Forgets same ((record value change >>= next) usage) other := goes

/-- A buffer with a text in it that was opened. -/
def Contains (buf : BufferPointer) (s : Text) : Prop := buf.buffer.str = s ∧ 500 ≤ buf.buffer.len

theorem Contains.put {buf : BufferPointer} {s : Text} (contains : Contains buf s) (more : Text) :
    Contains { buf with buffer := bufncat buf.buffer more } (s ++ more) := by
  obtain ⟨str, len⟩ := bufncat_keeps buf.buffer more
  exact ⟨str.trans (congrArg (· ++ more) contains.1), contains.2.trans len⟩

theorem forgets_hereVarLoop (edge : Bool) (rounds : Nat) {buf : BufferPointer} {s : Text}
    (contains : Contains buf s) (usage : Usage) :
    Forgets (fun found found' => Contains found.1 found'.1 ∧ found.2 = found'.2)
      (hereVarLoop edge rounds buf usage) (Reader.hereVarLoop edge rounds s) := by
  induction rounds generalizing buf s usage with
  | zero => exact .unfinished
  | succ rounds ih =>
    refine .getc fun c => ?_
    cases c with
    | none =>
      cases edge with
      | true => exact .ret _ ⟨contains, rfl⟩
      | false => exact ih (contains.put [255]) _
    | some c =>
      show Forgets _ ((if dollarNonWord c = true then _ else _ : Recorded _) usage)
        (if dollarNonWord c = true then _ else _)
      split
      · exact .ret _ ⟨contains, rfl⟩
      · exact ih (contains.put [c]) _

theorem forgets_getherevar (edge : Bool) (rounds : Nat) (usage : Usage) :
    Forgets Eq (getherevar edge rounds usage) (Reader.getherevar edge rounds) := by
  have opened : Contains ⟨usage.fresh, openbuffer 0⟩ [] := ⟨rfl, show 500 ≤ 500 from le_rfl⟩
  refine forgets_openBuffer ((forgets_hereVarLoop edge rounds opened _).bind ?_)
  rintro ⟨buf, c⟩ ⟨s, _⟩ usage' ⟨⟨str, len⟩, rfl⟩
  obtain ⟨str', len'⟩ := foldl_openbuffer s
  have nonzero : buf.buffer.len ≠ 0 := by
    dsimp only at len
    omega
  show Forgets Eq ((if buf.buffer.len = 0 then _ else _ : Recorded _) _)
    (if (s.foldl bufputc (openbuffer 0)).len = 0 then _ else _)
  rw [if_neg nonzero, if_neg len', str', show buf.buffer.str = s from str]
  split
  · exact .ungetc c (.ret _ rfl)
  · exact .ret _ rfl

/-- How a line ends, without the traces. -/
def LineEnd.Is : LineEnd → Except HereError (List Tree × Text) → Prop
  | .newline tree buf, .ok (tree', s) => tree = tree' ∧ Contains buf s
  | .incomplete c _, .error error => error = Reader.incomplete c
  | .nullVar error _, .error error' => error = error'
  | _, _ => False

/-- What follows a line does what it does without traces, however the line has ended. -/
theorem forgets_lineEnd {next : LineEnd → Recorded (Except HereError Tree)}
    {next' : Except HereError (List Tree × Text) → Reader (Except HereError Tree)}
    (newline : ∀ (tree : List Tree) {buf : BufferPointer} {s : Text}, Contains buf s →
      ∀ usage, Forgets Eq (next (.newline tree buf) usage) (next' (.ok (tree, s))))
    (incomplete : ∀ c buf usage,
      Forgets Eq (next (.incomplete c buf) usage) (next' (.error (Reader.incomplete c))))
    (nullVar : ∀ error buf usage,
      Forgets Eq (next (.nullVar error buf) usage) (next' (.error error)))
    (line : LineEnd) (line' : Except HereError (List Tree × Text)) (usage : Usage)
    (is : line.Is line') : Forgets Eq (next line usage) (next' line') := by
  cases line with
  | newline tree buf =>
    cases line' with
    | error error' => exact is.elim
    | ok read =>
      obtain ⟨tree', s⟩ := read
      obtain ⟨rfl, contains⟩ := is
      exact newline tree contains usage
  | incomplete c buf =>
    cases line' with
    | error error' =>
      obtain rfl : error' = Reader.incomplete c := is
      exact incomplete c buf usage
    | ok read => exact is.elim
  | nullVar error buf =>
    cases line' with
    | error error' =>
      obtain rfl : error = error' := is
      exact nullVar error buf usage
    | ok read => exact is.elim

theorem contains_opened (id : Nat) : Contains ⟨id, openbuffer 0⟩ [] :=
  ⟨rfl, show 500 ≤ 500 from le_rfl⟩

theorem forgets_lineLoop (edge quoted : Bool) (rounds : Nat) (tree : List Tree)
    {buf : BufferPointer} {s : Text} (contains : Contains buf s) (c : Ch) (usage : Usage) :
    Forgets LineEnd.Is (lineLoop edge quoted rounds tree buf c usage)
      (Reader.lineLoop edge quoted rounds tree s c) := by
  induction rounds generalizing tree buf s c usage with
  | zero => exact .unfinished
  | succ rounds ih =>
    cases c with
    | none => exact .ret _ rfl
    | some c =>
      show Forgets _ ((if c = 0 then _ else if c = '$'.toUInt8 ∧ quoted = false then _ else _ :
        Recorded _) usage) (if c = 0 then _ else if c = '$'.toUInt8 ∧ quoted = false then _ else
          if c = '\n'.toUInt8 then _ else _)
      split
      · exact .ret _ rfl
      · split
        · refine .getc fun d => ?_
          show Forgets _ ((if d ≠ some '$'.toUInt8 then _ else _ : Recorded _) usage)
            (if d ≠ some '$'.toUInt8 then _ else _)
          split
          · refine .ungetc d ?_
            have goes : ∀ (tree' : List Tree) (usage : Usage), tree' = flushed tree s →
                Forgets LineEnd.Is
                  ((getherevar edge rounds >>= fun
                    | .error error => pure (.nullVar error buf)
                    | .ok var =>
                        openBuffer >>= fun buf =>
                          lift Reader.next >>= fun c =>
                            lineLoop edge quoted rounds (tree' ++ [var]) buf c) usage)
                  (Reader.getherevar edge rounds >>= fun
                    | .error error => pure (.error error)
                    | .ok var =>
                        Reader.next >>= fun c =>
                          Reader.lineLoop edge quoted rounds (flushed tree s ++ [var]) [] c) := by
              rintro _ usage rfl
              refine (forgets_getherevar edge rounds usage).bind ?_
              rintro (error | var) _ usage' rfl
              · exact .ret _ rfl
              · exact .getc fun c => ih _ (contains_opened _) c _
            rw [show buf.buffer.str = s from contains.1]
            by_cases empty : s = []
            · rw [if_pos empty]
              exact forgets_record (goes tree _ (if_pos empty).symm)
            · rw [if_neg empty]
              refine forgets_record (goes _ _ ?_)
              rw [show buf.buffer.str = s from contains.1]
              exact (if_neg empty).symm
          · exact .getc fun c => ih tree (contains.put ['$'.toUInt8]) c _
        · show Forgets _ ((if c = '\n'.toUInt8 then _ else _ : Recorded _) _) _
          split
          · exact .ret _ ⟨rfl, contains.put [c]⟩
          · exact .getc fun d => ih tree (contains.put [c]) d _

theorem forgets_finish (tree : List Tree) {buf : BufferPointer} {s : Text}
    (contains : Contains buf s) (usage : Usage) :
    Forgets Eq (finish tree buf usage) (.ret (.ok (document tree s))) := by
  unfold finish document
  rw [show buf.buffer.str = s from contains.1]
  by_cases whole : s = [] ∧ tree ≠ []
  · rw [if_pos whole, if_pos whole]
    exact .ret _ rfl
  · rw [if_neg whole, if_neg whole]
    refine forgets_record ?_
    rw [show buf.buffer.str = s from contains.1]
    exact .ret _ rfl

theorem forgets_documentLoop (edge : Bool) (eof : Text) (quoted : Bool) (rounds : Nat)
    (tree : List Tree) {buf : BufferPointer} {s : Text} (contains : Contains buf s)
    (usage : Usage) :
    Forgets Eq (documentLoop edge eof quoted rounds tree buf usage)
      (Reader.documentLoop edge eof quoted rounds tree s) := by
  induction rounds generalizing tree buf s usage with
  | zero => exact .unfinished
  | succ rounds ih =>
    refine (forgets_lift (Reader.markerLoop eof) usage).bind ?_
    rintro (_ | ⟨rest, c⟩) _ usage' rfl
    · exact .ret _ rfl
    · dsimp only
      split
      · exact forgets_finish tree contains usage'
      · by_cases nothing : eof.take (eof.length - rest.length) = []
        · have same : Contains buf (s ++ eof.take (eof.length - rest.length)) := by
            rwa [nothing, List.append_nil]
          have unput : ∀ next : BufferPointer → Recorded (Except HereError Tree),
              (pure buf >>= next) = next buf := fun _ => rfl
          rw [if_neg (not_not.mpr nothing), unput]
          refine (forgets_lineLoop edge quoted rounds tree same c usage').bind ?_
          exact forgets_lineEnd ih (fun _ _ _ => .ret _ rfl) fun _ _ _ => .ret _ rfl
        · rw [if_pos nothing]
          refine forgets_record
            ((forgets_lineLoop edge quoted rounds tree (contains.put _) c _).bind ?_)
          exact forgets_lineEnd ih (fun _ _ _ => .ret _ rfl) fun _ _ _ => .ret _ rfl

/-- `snarfheredoc` does what the program that leaves no traces does. -/
theorem forgets_snarfheredoc (edge : Bool) (eof : Text) (quoted : Bool) (rounds : Nat)
    (usage : Usage) :
    Forgets Eq (snarfheredoc edge eof quoted rounds usage)
      (Reader.snarfheredoc edge rounds eof quoted) := by
  unfold snarfheredoc Reader.snarfheredoc
  split
  · exact .ret _ rfl
  · split
    · exact .ret _ rfl
    · exact forgets_record (forgets_openBuffer
        (forgets_documentLoop edge eof quoted rounds [] (contains_opened _) _))

end Recorded

/-! ### Runs on a stream -/

/-- A character that is pushed back. A null character is an interrupt, which `get` drops when it
comes again, and behind the end of the input is the end. -/
def pushed (c : Ch) (stream : Text) : Text :=
  match c with
  | some c => if c = 0 then stream else c :: stream
  | none => stream

/-- A run on characters that end. -/
def Reader.onStream {α : Type} : Reader α → Text → Option (α × Text)
  | .ret value, stream => some (value, stream)
  | .unfinished, _ => none
  | .getc k, stream => (k stream.head?).onStream stream.tail
  | .ungetc c k, stream => k.onStream (pushed c stream)

theorem Reader.onStream_bind {α β : Type} (program : Reader α) (next : α → Reader β)
    (stream : Text) :
    (program >>= next).onStream stream =
      (program.onStream stream).bind fun (value, stream) => (next value).onStream stream := by
  induction program generalizing stream with
  | ret value => rfl
  | unfinished => rfl
  | getc k ih => exact ih _ _
  | ungetc c k ih => exact ih _

/-- A document, or an error that was reported once; nothing else is left behind. -/
structure LeavesNothing (result : Except HereError Tree) (usage : Usage) : Prop where
  released : usage.live = []
  owned : usage.misused = false
  inside : usage.outside = false
  nonnull : usage.followed = false
  cleared : usage.heredoc_input = false
  reported :
    match result with
    | .ok _ => usage.errors = []
    | .error (.message s) => usage.errors = [s]
    | .error .assertion => False

/-- The program terminates on a stream, whatever stands in front of the table. -/
def Survives (program : Nat → Recorded (Except HereError Tree)) (stream : Text) : Prop :=
  ∃ rounds result usage rest,
    (program rounds .initial).onStream stream = some ((result, usage), rest) ∧
      LeavesNothing result usage

namespace Recorded

variable {α β : Type} {enough : Prop} {usage : Usage} {stream : Text}

/-- A run that ends does so as is said, and it ends if there is enough of what it needs. -/
def Runs (enough : Prop) (program : Recorded α) (usage : Usage) (stream : Text)
    (post : α → Usage → Text → Prop) : Prop :=
  match (program usage).onStream stream with
  | some ((value, usage), stream) => post value usage stream
  | none => ¬enough

theorem Runs.bind {program : Recorded α} {next : α → Recorded β}
    {mid : α → Usage → Text → Prop} {post : β → Usage → Text → Prop}
    (runs : Runs enough program usage stream mid)
    (goes : ∀ value usage stream, mid value usage stream →
      Runs enough (next value) usage stream post) :
    Runs enough (program >>= next) usage stream post := by
  have split : ((program >>= next) usage).onStream stream =
      ((program usage).onStream stream).bind fun (result, stream) =>
        (next result.1 result.2).onStream stream :=
    Reader.onStream_bind (program usage) (fun result => next result.1 result.2) stream
  unfold Runs at runs ⊢
  rw [split]
  rcases ran : (program usage).onStream stream with _ | ⟨⟨value, usage'⟩, stream'⟩
  · rw [ran] at runs
    exact runs
  · rw [ran] at runs
    exact goes value usage' stream' runs

theorem Runs.weaken {program : Recorded α} {less : Prop} {mid post : α → Usage → Text → Prop}
    (runs : Runs enough program usage stream mid) (less_enough : less → enough)
    (goes : ∀ value usage stream, mid value usage stream → post value usage stream) :
    Runs less program usage stream post := by
  unfold Runs at runs ⊢
  split
  · rename_i ran
    rw [ran] at runs
    exact goes _ _ _ runs
  · rename_i ran
    rw [ran] at runs
    exact fun less => runs (less_enough less)

section Steps

variable {next : α → Recorded β} {post : β → Usage → Text → Prop}

theorem runs_next {next : Ch → Recorded β} :
    Runs enough (lift Reader.next >>= next) usage stream post ↔
      Runs enough (next stream.head?) usage stream.tail post := Iff.rfl

theorem runs_pushBack {next : Unit → Recorded β} {c : Ch} :
    Runs enough (lift (Reader.pushBack c) >>= next) usage stream post ↔
      Runs enough (next ()) usage (pushed c stream) post := Iff.rfl

theorem runs_record {value : α} {change : Usage → Usage} :
    Runs enough (record value change >>= next) usage stream post ↔
      Runs enough (next value) (change usage) stream post := Iff.rfl

theorem runs_openBuffer {next : BufferPointer → Recorded β} :
    Runs enough (openBuffer >>= next) usage stream post ↔
      Runs enough (next ⟨usage.fresh, openbuffer 0⟩)
        { usage with live := usage.fresh :: usage.live, fresh := usage.fresh + 1 } stream post :=
  Iff.rfl

theorem runs_pure {value : β} :
    Runs enough (pure value) usage stream post ↔ post value usage stream := Iff.rfl

theorem runs_pure_bind {value : α} :
    Runs enough (pure value >>= next) usage stream post ↔
      Runs enough (next value) usage stream post := Iff.rfl

end Steps

/-! ### What is open -/

/-- Nothing has gone wrong, and these buffers are open. -/
structure Sound (live : List Nat) (on : Bool) (usage : Usage) : Prop where
  open_ : usage.live = live
  owned : usage.misused = false
  inside : usage.outside = false
  nonnull : usage.followed = false
  unreported : usage.errors = []
  input : usage.heredoc_input = on

variable {on : Bool} {buf : BufferPointer}

theorem Sound.opened (sound : Sound [] on usage) :
    Sound [usage.fresh] on
      { usage with live := usage.fresh :: usage.live, fresh := usage.fresh + 1 } where
  open_ := congrArg (usage.fresh :: ·) sound.open_
  owned := sound.owned
  inside := sound.inside
  nonnull := sound.nonnull
  unreported := sound.unreported
  input := sound.input

theorem Sound.touch (sound : Sound [buf.id] on usage) : Sound [buf.id] on (touch buf usage) where
  open_ := sound.open_
  owned := by
    show (usage.misused || !usage.live.contains buf.id) = false
    rw [sound.owned, sound.open_]
    simp
  inside := sound.inside
  nonnull := sound.nonnull
  unreported := sound.unreported
  input := sound.input

theorem Sound.released (sound : Sound [buf.id] on usage) :
    Sound [] on
      { Recorded.touch buf usage with live := (Recorded.touch buf usage).live.erase buf.id } where
  open_ := by
    show (Recorded.touch buf usage).live.erase buf.id = []
    rw [sound.touch.open_]
    simp
  owned := sound.touch.owned
  inside := sound.inside
  nonnull := sound.nonnull
  unreported := sound.unreported
  input := sound.input

/-! ### Names -/

/-- A name that the end of the input breaks off. -/
theorem runs_hereVarLoop_end (edge : Bool) (rounds : Nat) (buf : BufferPointer) (usage : Usage) :
    Runs False (hereVarLoop edge rounds buf) usage [] fun found usage stream =>
      buf.buffer.len ≤ found.1.buffer.len ∧ found.2 = none ∧ usage.outside = true ∧
        stream = [] := by
  induction rounds generalizing buf usage with
  | zero => exact id
  | succ rounds ih =>
    refine runs_next.mpr (runs_record.mpr ?_)
    cases edge with
    | true => exact ⟨le_rfl, rfl, rfl, rfl⟩
    | false =>
      refine runs_record.mpr ((ih _ _).weaken id ?_)
      exact fun _ _ _ found => ⟨(bufncat_keeps _ _).2.trans found.1, found.2⟩

/-- The name behind a dollar sign, and what follows it. -/
theorem runs_hereVarLoop (edge : Bool) {rounds : Nat} (buf : BufferPointer) {usage : Usage}
    {stream : Text} (sound : Sound [buf.id] on usage) :
    Runs (stream.length < rounds ∧ stream.dropWhile (fun c => !dollarNonWord c) ≠ [])
      (hereVarLoop edge rounds buf) usage stream fun found usage' stream' =>
        buf.buffer.len ≤ found.1.buffer.len ∧
          ((stream.dropWhile (fun c => !dollarNonWord c) = [] ∧ found.2 = none ∧
              usage'.outside = true ∧ stream' = []) ∨
            Sound [found.1.id] on usage' ∧
              ∃ c, stream.dropWhile (fun c => !dollarNonWord c) = c :: stream' ∧
                found.2 = some c) := by
  induction rounds generalizing buf usage stream with
  | zero => exact fun enough => absurd enough.1 (Nat.not_lt_zero _)
  | succ rounds ih =>
    cases stream with
    | nil =>
      refine (runs_hereVarLoop_end edge (rounds + 1) buf usage).weaken (fun few => few.2 rfl) ?_
      exact fun _ _ _ found => ⟨found.1, .inl ⟨rfl, found.2⟩⟩
    | cons c stream =>
      refine runs_next.mpr (runs_record.mpr ?_)
      show Runs _ (if dollarNonWord c = true then _ else _) usage stream _
      by_cases ends : dollarNonWord c = true
      · rw [if_pos ends]
        have dropped : (c :: stream).dropWhile (fun c => !dollarNonWord c) = c :: stream :=
          List.dropWhile_cons_of_neg (by rw [ends]; decide)
        exact ⟨le_rfl, .inr ⟨sound, c, dropped, rfl⟩⟩
      · have dropped : (c :: stream).dropWhile (fun c => !dollarNonWord c) =
            stream.dropWhile fun c => !dollarNonWord c :=
          List.dropWhile_cons_of_pos (by rw [Bool.eq_false_iff.mpr ends]; rfl)
        rw [if_neg ends, dropped]
        refine runs_record.mpr ?_
        refine (ih ⟨buf.id, bufncat buf.buffer [c]⟩ sound.touch).weaken
          (fun enough => ⟨Nat.lt_of_succ_lt_succ enough.1, enough.2⟩) ?_
        exact fun _ _ _ found => ⟨(bufncat_keeps _ _).2.trans found.1, found.2⟩

/-- The stream when its first character was looked at and pushed back: an interrupt is lost. -/
def withoutNull (stream : Text) : Text := pushed stream.head? stream.tail

/-- What follows a name, without a caret, and without an interrupt. -/
def behindName (stream : Text) : Text :=
  let after := stream.dropWhile fun c => !dollarNonWord c
  if after.head? = some '^'.toUInt8 then after.tail else withoutNull after

theorem behindName_eq {stream after : Text} {c : UInt8}
    (rest : stream.dropWhile (fun c => !dollarNonWord c) = c :: after) :
    behindName stream = if c = '^'.toUInt8 then after else if c = 0 then after else c :: after := by
  unfold behindName
  rw [rest]
  by_cases caret : c = '^'.toUInt8
  · subst caret
    rfl
  · rw [if_neg caret]
    exact if_neg fun same => caret (Option.some.inj same)

/-- What holds when a variable has been read from a stream. -/
def VariableRead (on : Bool) (stream : Text) (result : Except HereError Tree) (usage : Usage)
    (rest : Text) : Prop :=
  ∃ tree, result = .ok tree ∧
    ((stream.dropWhile (fun c => !dollarNonWord c) = [] ∧ usage.outside = true ∧ rest = []) ∨
      stream.dropWhile (fun c => !dollarNonWord c) ≠ [] ∧ Sound [] on usage ∧
        rest = behindName stream)

/-- `getherevar`, which refuses no name. -/
theorem runs_getherevar (edge : Bool) {rounds : Nat} {usage : Usage} {stream : Text}
    (sound : Sound [] on usage) :
    Runs (stream.length < rounds ∧ stream.dropWhile (fun c => !dollarNonWord c) ≠ [])
      (getherevar edge rounds) usage stream (VariableRead on stream) := by
  refine runs_openBuffer.mpr ?_
  refine (runs_hereVarLoop edge ⟨usage.fresh, openbuffer 0⟩ sound.opened).bind ?_
  rintro ⟨buf, ended⟩ usage' stream' ⟨len, found⟩
  have nonzero : buf.buffer.len ≠ 0 := fun zero =>
    absurd (show 500 ≤ 0 from len.trans (Nat.le_of_eq zero)) (by decide)
  refine runs_record.mpr ?_
  rw [if_neg nonzero]
  obtain ⟨broken, last, outside, rfl⟩ | ⟨sound', c, rest, last⟩ := found
  · obtain rfl : ended = none := last
    exact ⟨_, rfl, .inl ⟨broken, outside, rfl⟩⟩
  · obtain rfl : ended = some c := last
    have more : stream.dropWhile (fun c => !dollarNonWord c) ≠ [] := by
      rw [rest]
      exact List.cons_ne_nil c stream'
    have released := sound'.released
    have behind := behindName_eq rest
    by_cases caret : c = '^'.toUInt8
    · subst caret
      exact ⟨_, rfl, .inr ⟨more, released, behind.symm⟩⟩
    · have differs : some c ≠ some '^'.toUInt8 := fun same => caret (Option.some.inj same)
      rw [if_neg caret] at behind
      rw [if_pos differs]
      exact ⟨_, rfl, .inr ⟨more, released, behind.symm⟩⟩

/-! ### Where the input breaks off -/

theorem withoutNull_suffix (stream : Text) : withoutNull stream <:+ stream := by
  cases stream with
  | nil => exact List.suffix_rfl
  | cons c stream =>
    show (if c = 0 then stream else c :: stream) <:+ c :: stream
    split
    · exact List.suffix_cons c stream
    · exact List.suffix_rfl

theorem behindName_suffix (stream : Text) : behindName stream <:+ stream := by
  have suffix := List.dropWhile_suffix (l := stream) fun c => !dollarNonWord c
  unfold behindName
  dsimp only
  split
  · exact (List.tail_suffix _).trans suffix
  · exact (withoutNull_suffix _).trans suffix

/-- Read to its end from inside a line, the input breaks a name off. -/
def endsInName : Text → Bool
  | [] => false
  | c :: rest =>
      if c = 0 then false
      else if c ≠ '$'.toUInt8 then endsInName rest
      else if rest.head? = some '$'.toUInt8 then endsInName rest.tail
      else if (withoutNull rest).dropWhile (fun c => !dollarNonWord c) = [] then true
      else endsInName (behindName (withoutNull rest))
termination_by stream => stream.length
decreasing_by
  all_goals simp_all only [List.length_cons, List.length_tail]
  · omega
  · omega
  · have shorter := ((behindName_suffix _).trans (withoutNull_suffix rest)).length_le
    omega

variable {eof : Text}

/-- The marker stands here, on a line of its own. -/
def EndsAtMarker (eof stream : Text) : Prop :=
  ∃ rest, stream = eof ++ rest ∧ (rest = [] ∨ rest.head? = some '\n'.toUInt8)

/-- The marker stands on a later line. -/
def MarkerLater (eof stream : Text) : Prop :=
  ∃ front rest, stream = front ++ '\n'.toUInt8 :: rest ∧ EndsAtMarker eof rest

/-- From inside a line, a document is read to its marker, or no name is broken off. -/
def Safe (eof : Text) (quoted : Bool) (stream : Text) : Prop :=
  quoted = true ∨ MarkerLater eof stream ∨ endsInName stream = false

/-- The same, from the start of a line. -/
def SafeStart (eof : Text) (quoted : Bool) (stream : Text) : Prop :=
  EndsAtMarker eof stream ∨ Safe eof quoted stream

theorem markerLater_cons (c : UInt8) (stream : Text) :
    MarkerLater eof (c :: stream) ↔
      (c = '\n'.toUInt8 ∧ EndsAtMarker eof stream) ∨ MarkerLater eof stream := by
  constructor
  · rintro ⟨_ | ⟨d, front⟩, rest, same, ends⟩
    · cases same
      exact .inl ⟨rfl, ends⟩
    · cases same
      exact .inr ⟨front, rest, rfl, ends⟩
  · rintro (⟨rfl, ends⟩ | ⟨front, rest, rfl, ends⟩)
    · exact ⟨[], stream, rfl, ends⟩
    · exact ⟨c :: front, rest, rfl, ends⟩

theorem markerLater_append {front : Text} (single : '\n'.toUInt8 ∉ front) (stream : Text) :
    MarkerLater eof (front ++ stream) ↔ MarkerLater eof stream := by
  induction front with
  | nil => exact Iff.rfl
  | cons c front ih =>
    rw [List.cons_append, markerLater_cons, ih (mt (List.mem_cons_of_mem c) single)]
    refine or_iff_right ?_
    rintro ⟨rfl, -⟩
    exact single List.mem_cons_self

theorem not_markerLater {stream : Text} (single : '\n'.toUInt8 ∉ stream) :
    ¬MarkerLater eof stream := by
  rintro ⟨front, rest, rfl, -⟩
  exact single (by simp)

theorem withoutNull_front (stream : Text) :
    ∃ front, stream = front ++ withoutNull stream ∧ '\n'.toUInt8 ∉ front := by
  cases stream with
  | nil => exact ⟨[], rfl, nofun⟩
  | cons c stream =>
    show ∃ front, c :: stream = front ++ (if c = 0 then stream else c :: stream) ∧ _
    split
    · rename_i null
      subst null
      exact ⟨[0], rfl, by decide⟩
    · exact ⟨[], rfl, nofun⟩

theorem not_mem_name (stream : Text) :
    '\n'.toUInt8 ∉ stream.takeWhile fun c => !dollarNonWord c := fun member =>
  absurd (List.mem_takeWhile_imp member) (by decide)

theorem behindName_front (stream : Text) :
    ∃ front, stream = front ++ behindName stream ∧ '\n'.toUInt8 ∉ front := by
  cases rest : stream.dropWhile fun c => !dollarNonWord c with
  | nil =>
    refine ⟨stream.takeWhile fun c => !dollarNonWord c, ?_, not_mem_name stream⟩
    have nothing : behindName stream = [] := by
      unfold behindName
      rw [rest]
      rfl
    have whole := List.takeWhile_append_dropWhile (p := fun c => !dollarNonWord c) (l := stream)
    rw [rest] at whole
    rw [nothing, whole]
  | cons c after =>
    have whole := List.takeWhile_append_dropWhile (p := fun c => !dollarNonWord c) (l := stream)
    rw [rest] at whole
    rw [behindName_eq rest]
    by_cases lost : c = '^'.toUInt8 ∨ c = 0
    · refine ⟨(stream.takeWhile fun c => !dollarNonWord c) ++ [c], ?_, ?_⟩
      · have left : (if c = '^'.toUInt8 then after else if c = 0 then after else c :: after) =
            after := by
          split
          · rfl
          · exact if_pos (lost.resolve_left ‹_›)
        rw [left, List.append_assoc, List.singleton_append, whole]
      · rw [List.mem_append, List.mem_singleton]
        rintro (member | rfl)
        · exact not_mem_name stream member
        · exact absurd lost (by decide)
    · obtain ⟨caret, null⟩ := not_or.mp lost
      rw [if_neg caret, if_neg null]
      exact ⟨_, whole.symm, not_mem_name stream⟩

theorem safe_nil (quoted : Bool) : Safe eof quoted [] := .inr (.inr (by rw [endsInName]))

theorem safe_null (quoted : Bool) (stream : Text) : Safe eof quoted (0 :: stream) :=
  .inr (.inr (by rw [endsInName, if_pos rfl]))

theorem safe_newline (quoted : Bool) (stream : Text) :
    Safe eof quoted ('\n'.toUInt8 :: stream) ↔ SafeStart eof quoted stream := by
  unfold SafeStart Safe
  rw [markerLater_cons, endsInName, if_neg (by decide), if_pos (by decide)]
  simp only [true_and]
  tauto

theorem safe_plain {quoted : Bool} {c : UInt8} (nonzero : c ≠ 0) (single : c ≠ '\n'.toUInt8)
    (plain : quoted = true ∨ c ≠ '$'.toUInt8) (stream : Text) :
    Safe eof quoted (c :: stream) ↔ Safe eof quoted stream := by
  rcases plain with rfl | plain
  · exact iff_of_true (.inl rfl) (.inl rfl)
  · unfold Safe
    rw [markerLater_cons, endsInName, if_neg nonzero, if_pos plain]
    simp only [single, false_and, false_or]

theorem safe_dollars (quoted : Bool) (stream : Text) :
    Safe eof quoted ('$'.toUInt8 :: '$'.toUInt8 :: stream) ↔ Safe eof quoted stream := by
  unfold Safe
  rw [markerLater_cons, markerLater_cons, endsInName, if_neg (by decide),
    if_neg (not_not.mpr rfl), List.head?_cons, if_pos rfl, List.tail_cons]
  simp only [show '$'.toUInt8 ≠ '\n'.toUInt8 by decide, false_and, false_or]

/-- A name that is broken off is on the last line. -/
theorem not_safe {stream : Text} (single : stream.head? ≠ some '$'.toUInt8)
    (broken : (withoutNull stream).dropWhile (fun c => !dollarNonWord c) = []) :
    ¬Safe eof false ('$'.toUInt8 :: stream) := by
  have name := not_mem_name (withoutNull stream)
  have whole :=
    List.takeWhile_append_dropWhile (p := fun c => !dollarNonWord c) (l := withoutNull stream)
  rw [broken, List.append_nil] at whole
  rw [whole] at name
  obtain ⟨front, same, newline⟩ := withoutNull_front stream
  have none : '\n'.toUInt8 ∉ '$'.toUInt8 :: stream := by
    rw [same, ← List.cons_append, List.mem_append, List.mem_cons]
    rintro ((first | member) | member)
    · exact absurd first (by decide)
    · exact newline member
    · exact name member
  rintro (quoted | later | ends)
  · exact Bool.false_ne_true quoted
  · exact not_markerLater none later
  · rw [endsInName, if_neg (by decide), if_neg (not_not.mpr rfl), if_neg single,
      if_pos broken] at ends
    exact Bool.false_ne_true ends.symm

theorem safe_name {stream : Text} (single : stream.head? ≠ some '$'.toUInt8)
    (ends : (withoutNull stream).dropWhile (fun c => !dollarNonWord c) ≠ []) :
    Safe eof false ('$'.toUInt8 :: stream) ↔
      Safe eof false (behindName (withoutNull stream)) := by
  obtain ⟨first, same, newline⟩ := withoutNull_front stream
  obtain ⟨second, same', newline'⟩ := behindName_front (withoutNull stream)
  have front : '\n'.toUInt8 ∉ '$'.toUInt8 :: (first ++ second) := by
    rw [List.mem_cons, List.mem_append]
    rintro (dollar | member | member)
    · exact absurd dollar (by decide)
    · exact newline member
    · exact newline' member
  have whole : '$'.toUInt8 :: stream =
      ('$'.toUInt8 :: (first ++ second)) ++ behindName (withoutNull stream) := by
    rw [List.cons_append, List.append_assoc, ← same', ← same]
  have later : MarkerLater eof ('$'.toUInt8 :: stream) ↔
      MarkerLater eof (behindName (withoutNull stream)) := by
    rw [whole, markerLater_append front]
  unfold Safe
  rw [later, endsInName, if_neg (by decide), if_neg (not_not.mpr rfl), if_neg single, if_neg ends]

theorem safe_append {quoted : Bool} {front : Text} (nulFree : NulFree front)
    (single : '\n'.toUInt8 ∉ front) (plain : quoted = true ∨ '$'.toUInt8 ∉ front)
    (stream : Text) : Safe eof quoted (front ++ stream) ↔ Safe eof quoted stream := by
  induction front with
  | nil => exact Iff.rfl
  | cons c front ih =>
    obtain ⟨nonzero, nulFree⟩ := nulFree_cons.mp nulFree
    rw [List.cons_append, safe_plain nonzero (fun same => single (same ▸ List.mem_cons_self))
      (plain.imp_right fun plain same => plain (same ▸ List.mem_cons_self))]
    exact ih nulFree (mt (List.mem_cons_of_mem c) single)
      (plain.imp_right (mt (List.mem_cons_of_mem c)))

/-! ### Lines -/

/-- What holds at the end of a line, which began with a text. -/
def LineEnd.Holds (eof : Text) (quoted : Bool) (text : Text) (ending : LineEnd) (usage : Usage)
    (stream : Text) : Prop :=
  match ending with
  | .newline _ buf =>
      Sound [buf.id] true usage ∧ (Safe eof quoted text ↔ SafeStart eof quoted stream) ∧
        stream.length < text.length
  | .incomplete _ buf =>
      (Safe eof quoted text ∧ Sound [buf.id] true usage) ∨
        (¬Safe eof quoted text ∧ usage.outside = true)
  | .nullVar _ _ => False

theorem LineEnd.Holds.mono {quoted : Bool} {text later : Text} {ending : LineEnd} {usage : Usage}
    {stream : Text} (same : Safe eof quoted text ↔ Safe eof quoted later)
    (shorter : later.length ≤ text.length) (holds : ending.Holds eof quoted later usage stream) :
    ending.Holds eof quoted text usage stream := by
  unfold LineEnd.Holds at holds ⊢
  cases ending with
  | newline tree buf => exact ⟨holds.1, same.trans holds.2.1, holds.2.2.trans_le shorter⟩
  | incomplete c buf => rwa [same]
  | nullVar error buf => exact holds

/-- A variable, and the line behind it. -/
theorem runs_variable (eof : Text) (edge : Bool) {rounds : Nat}
    (goes : ∀ (tree : List Tree) (buf : BufferPointer) {usage : Usage} (text : Text),
      Sound [buf.id] true usage → Runs (Safe eof false text ∧ text.length < rounds)
        (lineLoop edge false rounds tree buf text.head?) usage text.tail
        (LineEnd.Holds eof false text))
    (tree : List Tree) (buf : BufferPointer) {usage : Usage} {text : Text}
    (single : text.head? ≠ some '$'.toUInt8) (sound : Sound [] true usage) :
    Runs (Safe eof false ('$'.toUInt8 :: text) ∧ text.length + 1 < rounds + 1)
      (getherevar edge rounds >>= fun
        | .error error => pure (.nullVar error buf)
        | .ok var =>
            openBuffer >>= fun buf =>
              lift Reader.next >>= fun c => lineLoop edge false rounds (tree ++ [var]) buf c)
      usage (withoutNull text) (LineEnd.Holds eof false ('$'.toUInt8 :: text)) := by
  have short : (withoutNull text).length ≤ text.length := (withoutNull_suffix text).length_le
  have shorter := (behindName_suffix (withoutNull text)).length_le
  have named : Runs (Safe eof false ('$'.toUInt8 :: text) ∧ text.length + 1 < rounds + 1)
      (getherevar edge rounds) usage (withoutNull text)
      (VariableRead true (withoutNull text)) := by
    refine (runs_getherevar edge sound).weaken ?_ fun _ _ _ => id
    exact fun enough => ⟨by omega, fun broken => not_safe single broken enough.1⟩
  refine named.bind ?_
  rintro _ usage' stream' ⟨var, rfl, ⟨broken, outside, rfl⟩ | ⟨ends, sound', rfl⟩⟩
  · refine runs_openBuffer.mpr (runs_next.mpr ?_)
    have unsafe_ : ¬Safe eof false ('$'.toUInt8 :: text) := not_safe single broken
    cases rounds with
    | zero => exact fun enough => unsafe_ enough.1
    | succ rounds => exact .inr ⟨unsafe_, outside⟩
  · refine runs_openBuffer.mpr (runs_next.mpr ?_)
    have same : Safe eof false ('$'.toUInt8 :: text) ↔ _ := safe_name single ends
    refine (goes (tree ++ [var]) _ (behindName (withoutNull text)) sound'.opened).weaken ?_ ?_
    · exact fun enough => ⟨same.mp enough.1, by omega⟩
    · refine fun _ _ _ => LineEnd.Holds.mono same ?_
      rw [List.length_cons]
      omega

/-- A line of the document, from a character on. -/
theorem runs_lineLoop (eof : Text) (edge quoted : Bool) {rounds : Nat} (tree : List Tree)
    (buf : BufferPointer) {usage : Usage} (text : Text) (sound : Sound [buf.id] true usage) :
    Runs (Safe eof quoted text ∧ text.length < rounds)
      (lineLoop edge quoted rounds tree buf text.head?) usage text.tail
      (LineEnd.Holds eof quoted text) := by
  induction rounds generalizing tree buf usage text with
  | zero => exact fun enough => absurd enough.2 (Nat.not_lt_zero _)
  | succ rounds ih =>
    cases text with
    | nil => exact .inl ⟨safe_nil quoted, sound⟩
    | cons c text =>
      by_cases null : c = 0
      · subst null
        exact .inl ⟨safe_null quoted text, sound⟩
      show Runs _ (if c = 0 then _ else if c = '$'.toUInt8 ∧ quoted = false then _ else _) _ _ _
      rw [if_neg null]
      by_cases dollar : c = '$'.toUInt8 ∧ quoted = false
      · rw [if_pos dollar]
        obtain ⟨rfl, rfl⟩ := dollar
        refine runs_next.mpr ?_
        show Runs _ (if text.head? ≠ some '$'.toUInt8 then _ else _) usage text.tail _
        by_cases second : text.head? = some '$'.toUInt8
        · obtain ⟨text, rfl⟩ := List.head?_eq_some_iff.mp second
          rw [if_neg (not_not.mpr second)]
          refine runs_record.mpr (runs_next.mpr ?_)
          refine (ih tree ⟨buf.id, bufncat buf.buffer ['$'.toUInt8]⟩ text sound.touch).weaken ?_ ?_
          · rintro ⟨safe, long⟩
            rw [List.length_cons, List.length_cons] at long
            exact ⟨(safe_dollars false text).mp safe, by omega⟩
          · refine fun _ _ _ => LineEnd.Holds.mono (safe_dollars false text) ?_
            rw [List.length_cons, List.length_cons]
            omega
        · rw [if_pos second]
          refine runs_pushBack.mpr ?_
          rw [List.tail_cons, ← withoutNull]
          by_cases empty : buf.buffer.str = []
          · rw [if_pos empty]
            exact runs_record.mpr (runs_variable eof edge ih _ buf second sound.released)
          · rw [if_neg empty]
            exact runs_record.mpr (runs_variable eof edge ih _ buf second sound.released)
      · rw [if_neg dollar]
        refine runs_record.mpr ?_
        have plain : quoted = true ∨ c ≠ '$'.toUInt8 := by
          cases quoted with
          | true => exact .inl rfl
          | false => exact .inr fun same => dollar ⟨same, rfl⟩
        by_cases newline : c = '\n'.toUInt8
        · subst newline
          rw [if_pos rfl]
          exact ⟨sound.touch, safe_newline quoted text, Nat.lt_succ_self _⟩
        · rw [if_neg newline]
          refine runs_next.mpr ?_
          have same : Safe eof quoted (c :: text) ↔ _ := safe_plain null newline plain text
          refine (ih tree ⟨buf.id, bufncat buf.buffer [c]⟩ text sound.touch).weaken ?_ ?_
          · exact fun enough => ⟨same.mp enough.1, Nat.lt_of_succ_lt_succ enough.2⟩
          · exact fun _ _ _ => LineEnd.Holds.mono same (Nat.le_succ _)

/-! ### The document -/

/-- The loop over the marker takes what matches, and one character more. -/
theorem onStream_markerLoop {eof : Text} (nulFree : NulFree eof) (stream : Text) :
    (Reader.markerLoop eof).onStream stream =
      some (if (stream.drop (matched eof stream)).head? = some 0 then none
          else some (eof.drop (matched eof stream), (stream.drop (matched eof stream)).head?),
        (stream.drop (matched eof stream)).tail) := by
  induction eof generalizing stream with
  | nil =>
    rw [Nat.le_zero.mp (matched_le_marker [] stream), List.drop_zero]
    show (if stream.head? = some 0 then _ else _ : Reader _).onStream stream.tail = _
    by_cases null : stream.head? = some 0
    · rw [if_pos null, if_pos null]
      rfl
    · rw [if_neg null, if_neg null]
      rfl
  | cons e eof ih =>
    obtain ⟨nonzero, others⟩ := nulFree_cons.mp nulFree
    show (if stream.head? = some 0 then _ else if stream.head? ≠ some e then _ else
      Reader.markerLoop eof : Reader _).onStream stream.tail = _
    cases stream with
    | nil => rfl
    | cons c stream =>
      rw [matched, List.head?_cons, List.tail_cons]
      by_cases same : c = e
      · subst same
        rw [if_neg fun null => nonzero (Option.some.inj null), if_neg (not_not.mpr rfl),
          if_pos rfl, List.drop_succ_cons, List.drop_succ_cons]
        exact ih others stream
      · rw [if_neg same, List.drop_zero, List.drop_zero, List.head?_cons, List.tail_cons,
          if_pos fun equal => same (Option.some.inj equal)]
        by_cases null : some c = some 0
        · rw [if_pos null, if_pos null]
          rfl
        · rw [if_neg null, if_neg null]
          rfl

theorem runs_lift {program : Reader α} {next : α → Recorded β} {value : α} {rest : Text}
    {post : β → Usage → Text → Prop} (ran : program.onStream stream = some (value, rest)) :
    Runs enough (lift program >>= next) usage stream post ↔
      Runs enough (next value) usage rest post := by
  have whole : ((lift program >>= next) usage).onStream stream =
      (program.onStream stream).bind fun (value, rest) => (next value usage).onStream rest := by
    have lifted : (lift program usage).onStream stream =
        (program.onStream stream).map fun (value, rest) => ((value, usage), rest) :=
      (Reader.onStream_bind program _ stream).trans (by cases program.onStream stream <;> rfl)
    refine (Reader.onStream_bind (lift program usage)
      (fun result => next result.1 result.2) stream).trans ?_
    rw [lifted]
    cases program.onStream stream <;> rfl
  unfold Runs
  rw [whole, ran]
  rfl

/-- An error is reported once, and the buffer is given back. -/
theorem runs_incomplete {buf : BufferPointer} (c : Ch) (sound : Sound [buf.id] true usage) :
    Runs enough (incomplete c buf) usage stream fun result usage' _ =>
      LeavesNothing result usage' := by
  have released := sound.released
  exact ⟨released.open_, released.owned, released.inside, released.nonnull, rfl,
    congrArg (· ++ [if c = some 0 then [] else lit "incomplete here document"])
      released.unreported⟩

theorem runs_incomplete_outside {buf : BufferPointer} (c : Ch) (outside : usage.outside = true) :
    Runs enough (incomplete c buf) usage stream fun _ usage' _ => usage'.outside = true := outside

/-- The document is never empty. -/
theorem runs_finish {buf : BufferPointer} (tree : List Tree)
    (sound : Sound [buf.id] true usage) :
    Runs enough (finish tree buf) usage stream fun result usage' _ =>
      LeavesNothing result usage' := by
  have released := sound.released
  have nonnull : ∀ tree : List Tree, tree ≠ [] → (usage.followed || tree.isEmpty) = false := by
    intro tree nonempty
    rw [sound.nonnull, List.isEmpty_eq_false_iff.mpr nonempty]
    rfl
  unfold finish
  by_cases whole : buf.buffer.str = [] ∧ tree ≠ []
  · rw [if_pos whole]
    exact ⟨released.open_, released.owned, released.inside, nonnull tree whole.2, rfl,
      released.unreported⟩
  · rw [if_neg whole]
    exact ⟨released.open_, released.owned, released.inside, nonnull _ (by simp), rfl,
      released.unreported⟩

/-- What holds when the document has been read from a text. -/
def DocumentRead (eof : Text) (quoted : Bool) (text : Text) (result : Except HereError Tree)
    (usage : Usage) (_ : Text) : Prop :=
  (SafeStart eof quoted text ∧ LeavesNothing result usage) ∨
    (¬SafeStart eof quoted text ∧ usage.outside = true)

theorem endsAtMarker_iff (eof stream : Text) :
    EndsAtMarker eof stream ↔ matched eof stream = eof.length ∧
      ((stream.drop (matched eof stream)).head? = some '\n'.toUInt8 ∨
        (stream.drop (matched eof stream)).head? = none) := by
  have head (s : Text) : s.head? = some '\n'.toUInt8 ∨ s.head? = none ↔
      s = [] ∨ s.head? = some '\n'.toUInt8 := by
    rw [List.head?_eq_none_iff, or_comm]
  rw [head]
  constructor
  · rintro ⟨rest, rfl, ends⟩
    have whole : matched eof (eof ++ rest) = eof.length := by
      clear ends
      induction eof with
      | nil => exact Nat.le_zero.mp (matched_le_marker [] _)
      | cons e eof ih => rw [List.cons_append, matched, if_pos rfl, ih, List.length_cons]
    rw [whole, List.drop_left]
    exact ⟨rfl, ends⟩
  · rintro ⟨whole, ends⟩
    refine ⟨_, ?_, ends⟩
    have front := take_matched eof stream
    rw [whole, List.take_length] at front
    rw [whole]
    exact (List.take_append_drop eof.length stream).symm.trans (congrArg (· ++ _) front.symm)

/-- The lines of the document, from the start of one. -/
theorem runs_documentLoop {eof : Text} (nulFree : NulFree eof) (single : '\n'.toUInt8 ∉ eof)
    (edge : Bool) {quoted : Bool} (plain : quoted = true ∨ '$'.toUInt8 ∉ eof) {rounds : Nat}
    (tree : List Tree) (buf : BufferPointer) {usage : Usage} (text : Text)
    (sound : Sound [buf.id] true usage) :
    Runs (SafeStart eof quoted text ∧ text.length + 1 < rounds)
      (documentLoop edge eof quoted rounds tree buf) usage text
      (DocumentRead eof quoted text) := by
  induction rounds generalizing tree buf usage text with
  | zero => exact fun enough => absurd enough.2 (Nat.not_lt_zero _)
  | succ rounds ih =>
    refine (runs_lift (onStream_markerLoop nulFree text)).mpr ?_
    have front := take_matched eof text
    have split := List.take_append_drop (matched eof text) text
    have shorter : (text.drop (matched eof text)).length ≤ text.length := by
      rw [List.length_drop]
      omega
    have clean : NulFree (text.take (matched eof text)) := by
      rw [← front]
      exact fun member => nulFree (List.mem_of_mem_take member)
    have safe : Safe eof quoted text ↔ Safe eof quoted (text.drop (matched eof text)) := by
      have rest : Safe eof quoted (_ ++ _) ↔ _ := safe_append clean
        (fun member => single (List.mem_of_mem_take (front ▸ member)))
        (plain.imp_right fun plain member => plain (List.mem_of_mem_take (front ▸ member)))
        (text.drop (matched eof text))
      rwa [split] at rest
    by_cases null : (text.drop (matched eof text)).head? = some 0
    · rw [if_pos null]
      obtain ⟨rest, after⟩ := List.head?_eq_some_iff.mp null
      refine (runs_incomplete (some 0) sound).weaken id fun _ _ _ settled => .inl ⟨.inr ?_, settled⟩
      rw [safe, after]
      exact safe_null quoted rest
    · rw [if_neg null]
      dsimp only
      have ends : (eof.drop (matched eof text) = [] ∧
          ((text.drop (matched eof text)).head? = some '\n'.toUInt8 ∨
            (text.drop (matched eof text)).head? = none)) ↔ EndsAtMarker eof text := by
        rw [endsAtMarker_iff, List.drop_eq_nil_iff]
        have most := matched_le_marker eof text
        exact and_congr_left fun _ => ⟨le_antisymm most, ge_of_eq⟩
      by_cases here : EndsAtMarker eof text
      · rw [if_pos (ends.mpr here)]
        exact (runs_finish tree sound).weaken id fun _ _ _ settled => .inl ⟨.inl here, settled⟩
      · rw [if_neg (mt ends.mp here)]
        have start : SafeStart eof quoted text ↔
            Safe eof quoted (text.drop (matched eof text)) := (or_iff_right here).trans safe
        have goes : ∀ (buf : BufferPointer) {usage : Usage}, Sound [buf.id] true usage →
            Runs (SafeStart eof quoted text ∧ text.length + 1 < rounds + 1)
              (lineLoop edge quoted rounds tree buf (text.drop (matched eof text)).head? >>= fun
                | .newline tree buf => documentLoop edge eof quoted rounds tree buf
                | .incomplete c buf => incomplete c buf
                | .nullVar error buf => do
                    freebuffer buf
                    setHeredocInput false
                    return .error error)
              usage (text.drop (matched eof text)).tail (DocumentRead eof quoted text) := by
          intro buf usage sound
          have line : Runs (SafeStart eof quoted text ∧ text.length + 1 < rounds + 1)
              (lineLoop edge quoted rounds tree buf (text.drop (matched eof text)).head?) usage
              (text.drop (matched eof text)).tail
              (LineEnd.Holds eof quoted (text.drop (matched eof text))) := by
            refine (runs_lineLoop eof edge quoted tree buf _ sound).weaken ?_ fun _ _ _ => id
            exact fun enough => ⟨start.mp enough.1, by omega⟩
          refine line.bind ?_
          rintro (⟨tree, buf⟩ | ⟨c, buf⟩ | ⟨error, buf⟩) usage' stream' holds
          · obtain ⟨sound', same, less⟩ := holds
            have onward : SafeStart eof quoted text ↔ SafeStart eof quoted stream' :=
              start.trans same
            refine (ih tree buf stream' sound').weaken ?_ ?_
            · exact fun enough => ⟨onward.mp enough.1, by omega⟩
            · intro result usage'' rest read
              unfold DocumentRead at read ⊢
              rwa [onward]
          · rcases holds with ⟨safe', sound'⟩ | ⟨unsafe_, outside⟩
            · exact (runs_incomplete c sound').weaken id fun _ _ _ settled =>
                .inl ⟨start.mpr safe', settled⟩
            · exact (runs_incomplete_outside c outside).weaken id fun _ _ _ outside =>
                .inr ⟨mt start.mp unsafe_, outside⟩
          · exact holds.elim
        split
        · exact runs_record.mpr (goes _ sound.touch)
        · exact goes buf sound

/-! ### Whole runs -/

theorem Runs.survives {program : Nat → Recorded (Except HereError Tree)} (rounds : Nat)
    (runs : Runs True (program rounds) .initial stream fun result usage _ =>
      LeavesNothing result usage) : Survives program stream := by
  unfold Runs at runs
  rcases ran : (program rounds .initial).onStream stream with _ | ⟨⟨result, usage⟩, rest⟩
  · rw [ran] at runs
    exact absurd trivial runs
  · rw [ran] at runs
    exact ⟨rounds, result, usage, rest, ran, runs⟩

theorem not_survives {program : Nat → Recorded (Except HereError Tree)}
    (runs : ∀ rounds, Runs False (program rounds) .initial stream fun result usage _ =>
      ¬LeavesNothing result usage) : ¬Survives program stream := by
  rintro ⟨rounds, result, usage, rest, ran, settled⟩
  have unsettled := runs rounds
  unfold Runs at unsettled
  rw [ran] at unsettled
  exact unsettled settled

theorem sound_initial : Sound [] false .initial := ⟨rfl, rfl, rfl, rfl, rfl, rfl⟩

/-- A name survives if some character ends it. -/
theorem getherevar_survives_iff (edge : Bool) (stream : Text) :
    Survives (getherevar edge) stream ↔ ∃ c ∈ stream, dollarNonWord c = true := by
  have ends : stream.dropWhile (fun c => !dollarNonWord c) ≠ [] ↔
      ∃ c ∈ stream, dollarNonWord c = true := by
    rw [Ne, List.dropWhile_eq_nil_iff]
    simp
  rw [← ends]
  constructor
  · intro survives broken
    refine not_survives (fun rounds => ?_) survives
    refine (runs_getherevar edge sound_initial).weaken nofun ?_
    rintro _ usage rest ⟨tree, rfl, ⟨-, outside, -⟩ | ⟨ends, -⟩⟩ settled
    · exact Bool.false_ne_true (settled.inside.symm.trans outside)
    · exact ends broken
  · intro ends
    refine Runs.survives (stream.length + 1) ?_
    refine (runs_getherevar edge sound_initial).weaken (fun _ => ⟨Nat.lt_succ_self _, ends⟩) ?_
    rintro _ usage rest ⟨tree, rfl, ⟨broken, -⟩ | ⟨-, sound, -⟩⟩
    · exact absurd broken ends
    · exact ⟨sound.open_, sound.owned, sound.inside, sound.nonnull, sound.input,
        sound.unreported⟩

theorem snarfheredoc_runs {eof : Text} (nulFree : NulFree eof) (single : '\n'.toUInt8 ∉ eof)
    (edge : Bool) {quoted : Bool} (plain : quoted = true ∨ '$'.toUInt8 ∉ eof) (rounds : Nat)
    (stream : Text) :
    Runs (SafeStart eof quoted stream ∧ stream.length + 1 < rounds)
      (snarfheredoc edge eof quoted rounds) .initial stream (DocumentRead eof quoted stream) := by
  have assertion : ¬(quoted = false ∧ '$'.toUInt8 ∈ eof) := by
    rintro ⟨rfl, member⟩
    exact plain.resolve_left Bool.false_ne_true member
  unfold snarfheredoc
  rw [if_neg assertion, if_neg single]
  refine runs_record.mpr (runs_openBuffer.mpr ?_)
  have sound : Sound [] true { Usage.initial with heredoc_input := true } :=
    ⟨rfl, rfl, rfl, rfl, rfl, rfl⟩
  exact runs_documentLoop nulFree single edge plain [] _ stream sound.opened

/-- The reading of a document survives just when the marker can be typed and, unless it is refused,
the document is quoted, or reaches its marker, or the input does not end in a name. -/
theorem snarfheredoc_survives_iff {eof : Text} (nulFree : NulFree eof) (edge quoted : Bool)
    (stream : Text) :
    Survives (snarfheredoc edge eof quoted) stream ↔
      (quoted = true ∨ '$'.toUInt8 ∉ eof) ∧
        ('\n'.toUInt8 ∈ eof ∨ SafeStart eof quoted stream) := by
  by_cases plain : quoted = true ∨ '$'.toUInt8 ∉ eof
  · by_cases single : '\n'.toUInt8 ∈ eof
    · refine iff_of_true (Runs.survives 0 ?_) ⟨plain, .inl single⟩
      have assertion : ¬(quoted = false ∧ '$'.toUInt8 ∈ eof) := by
        rintro ⟨rfl, member⟩
        exact plain.resolve_left Bool.false_ne_true member
      unfold snarfheredoc
      rw [if_neg assertion, if_pos single]
      exact ⟨rfl, rfl, rfl, rfl, rfl, rfl⟩
    · have runs := fun rounds => snarfheredoc_runs nulFree single edge plain rounds stream
      rw [and_iff_right plain, or_iff_right single]
      constructor
      · intro survives
        by_contra broken
        refine not_survives (fun rounds => ?_) survives
        refine (runs rounds).weaken nofun ?_
        rintro result usage rest (⟨start, -⟩ | ⟨-, outside⟩) settled
        · exact broken start
        · exact Bool.false_ne_true (settled.inside.symm.trans outside)
      · intro start
        refine Runs.survives (stream.length + 2) ?_
        refine (runs _).weaken (fun _ => ⟨start, Nat.lt_succ_self _⟩) ?_
        rintro result usage rest (⟨-, settled⟩ | ⟨broken, -⟩)
        · exact settled
        · exact absurd start broken
  · obtain ⟨unquoted, dollar⟩ := not_or.mp plain
    refine iff_of_false (not_survives fun rounds => ?_) fun both => plain both.1
    unfold snarfheredoc
    rw [if_pos ⟨Bool.eq_false_iff.mpr unquoted, not_not.mp dollar⟩]
    exact fun settled => settled.reported

end Recorded

end Desh
