/-
This file models `eval` (`eval.c`) and the primitives that evaluate the rest of
their command (`prim-ctl.c`, `prim-io.c`) over the cells of lists. An expansion
of a `fn-` definition shares the tail of the command list, and so does every
list a primitive hands to `eval`.

The file proves which runs leave the cells of a command list as they were. The
functions called on the way that rewrite no cells are a parameter.
-/

import Desh.Primitives
import Desh.Script
import Mathlib.Logic.Relation

namespace Desh

/-! ### The rest of the shell -/

/-- A script that rewrites no cells. -/
abbrev Reading (World Label α : Type) := Script World Label Empty α

/-- The functions that are called from `eval` and from the primitives. -/
structure Surroundings (World Label : Type) where
  getclosure : TermRef → Reading World Label (Option (Tree × List BindingRef))
  getstr : TermRef → World → Text
  mkstr : Text → Reading World Label TermRef
  termeq : TermRef → Text → World → Bool
  varlookup2 : Text → Text → List BindingRef → World → Option ListRef
  glom : Tree → List BindingRef → Reading World Label (Option ListRef)
  pathsearch : TermRef → Reading World Label (Option ListRef)
  isabsolute : Text → Bool
  checkexecutable : Text → Reading World Label (Option Text)
  /-- The call of a thunk or a lambda with arguments, as a function of that name. -/
  walk : Tree → List BindingRef → Option ListRef → Option Text → EvalFlags →
    Reading World Label (Option ListRef)
  forkexec : Text → Option ListRef → Bool → Reading World Label (Option ListRef)
  /-- The other primitives. -/
  prims : Text → Option ListRef → List BindingRef → EvalFlags → Reading World Label (Option ListRef)
  /-- The other functions. -/
  code : Label → Reading World Label (Option ListRef)
  ltrue : World → Option ListRef
  /-- `++evaldepth`, and the failure beyond `maxevaldepth`. -/
  deepen : Reading World Label Unit
  /-- `--evaldepth`. -/
  leave : Reading World Label Unit
  /-- What `EVAL_EXITONFALSE` asks for. -/
  exitonfalse : Option ListRef → Reading World Label Unit
  blocksignals : Reading World Label Unit
  unblocksignals : Reading World Label Unit
  /-- `strtol`, where it reads the whole of the string and the number is not negative. -/
  number : Text → Option Nat
  /-- The descriptor, or the text of the error. -/
  eopen : Text → OpenKind → Reading World Label (Except Text Nat)
  /-- `dup` of what `fdmap` says. -/
  dup : Nat → Reading World Label (Except Text Nat)
  /-- `pipefork`, whose child writes the document: the process and the descriptor to read. -/
  pipefork : Option ListRef → Reading World Label (Nat × Nat)
  /-- `defer_close` or `defer_mvfd`: the ticket. -/
  defer : Option Nat → Nat → Bool → Reading World Label (Option Nat)
  undefer : Option Nat → Reading World Label Unit
  ewait : Nat → Reading World Label Unit

namespace Surroundings

variable {World Label α : Type} (surroundings : Surroundings World Label)

open Script

/-- `fail`. -/
def fail (source message : Text) : Script World Label Unit α := do
  let error ← lift (surroundings.mkstr (lit "error"))
  let source ← lift (surroundings.mkstr source)
  let message ← lift (surroundings.mkstr message)
  .append [error, source, message] none fun
    | some e => .throw e
    | none => .stop

/-! ### `eval` -/

/-- The end of `eval`. -/
def finish (flags : EvalFlags) (list : Option ListRef) :
    Script World Label Unit (Option ListRef) := do
  lift surroundings.leave
  if flags.exitonfalse then lift (surroundings.exitonfalse list)
  return list

/-- The `switch` of `eval` on the kind of a closure. -/
def callClosure (tree : Tree) (context : List BindingRef) (ref : ListRef)
    (binding : List BindingRef) (flags : EvalFlags) (funcname : Option Text) :
    Script World Label Unit (Option ListRef) :=
  match tree with
  | .nPrim s =>
      if context.isEmpty then do
        let next := (← cell ref).next
        surroundings.finish flags (← await (.prim s next binding flags))
      else .stop
  | .nThunk _ | .nLambda _ _ => do
      let next := (← cell ref).next
      surroundings.finish flags (← lift (surroundings.walk tree context next funcname flags))
  | .nList _ _ => do
      match ← lift (surroundings.glom tree context) with
      | none => .stop
      | some list => do
          -- by now `list->next` is the rest of the words
          let next := (← cell list).next
          let list ← appended (some list) next
          await (.restart list binding flags funcname)
  | _ => .stop

/-- `eval` of a name. -/
def callName (term : TermRef) (ref : ListRef) (binding : List BindingRef) (flags : EvalFlags)
    (funcname : Option Text) : Script World Label Unit (Option ListRef) := do
  let name ← observe (surroundings.getstr term)
  match ← observe (surroundings.varlookup2 (lit "fn-") name binding) with
  | some fn => do
      let list ← appended (some fn) (← cell ref).next
      await (.restart list binding flags (some name))
  | none =>
      if surroundings.isabsolute name then do
        match ← lift (surroundings.checkexecutable name) with
        | some error => surroundings.fail (lit "$&whatis") (name ++ lit ": " ++ error)
        | none =>
            surroundings.finish flags
              (← lift (surroundings.forkexec name (some ref) flags.inchild))
      else do
        let fn ← lift (surroundings.pathsearch term)
        match ← terms fn with
        | [path] =>
            match ← lift (surroundings.getclosure path) with
            | none => do
                let name ← observe (surroundings.getstr path)
                surroundings.finish flags
                  (← lift (surroundings.forkexec name (some ref) flags.inchild))
            | some _ => do
                let list ← appended fn (← cell ref).next
                await (.restart list binding flags funcname)
        | _ => do
            let list ← appended fn (← cell ref).next
            await (.restart list binding flags funcname)

/-- `eval` from its label `restart` on. -/
def restart (list : Option ListRef) (binding : List BindingRef) (flags : EvalFlags)
    (funcname : Option Text) : Script World Label Unit (Option ListRef) :=
  match list with
  | none => do
      lift surroundings.leave
      observe surroundings.ltrue
  | some ref => do
      let term := (← cell ref).term
      match ← lift (surroundings.getclosure term) with
      | some (tree, context) => surroundings.callClosure tree context ref binding flags funcname
      | none => surroundings.callName term ref binding flags funcname

/-- `eval`. -/
def eval (list : Option ListRef) (binding : List BindingRef) (flags : EvalFlags) :
    Script World Label Unit (Option ListRef) := do
  lift surroundings.deepen
  await (.restart list binding flags none)

/-! ### Control flow -/

/-- `$&forever`. A round ends with the call of the next one. -/
def prim_forever (list : Option ListRef) (binding : List BindingRef) (flags : EvalFlags) :
    Script World Label Unit (Option ListRef) := do
  let _ ← await (.eval list [] ⟨false, flags.exitonfalse⟩)
  await (.prim (lit "forever") list binding flags)

/-- The handler of `$&catch` for an exception from the body; there is no result when it is to be
retried. -/
def catchBody (lp : ListRef) (flags : EvalFlags) (frombody : ListRef) :
    Script World Label Unit (Option (Option ListRef)) := do
  lift surroundings.blocksignals
  let catcher : Script World Label Unit (Option (Option ListRef)) := do
    let term := (← cell lp).term
    let noreturn ← lift (surroundings.mkstr (lit "$&noreturn"))
    let list ← .append [noreturn, term] (some frombody) .ret
    let result ← await (.eval list [] flags)
    lift surroundings.unblocksignals
    return some result
  catcher.handled fun fromcatcher => do
    let term := (← cell fromcatcher).term
    let retry ← observe (surroundings.termeq term (lit "retry"))
    lift surroundings.unblocksignals
    if retry then return none else .throw fromcatcher

/-- `$&catch`. A retry is another call. -/
def prim_catch (list : Option ListRef) (binding : List BindingRef) (flags : EvalFlags) :
    Script World Label Unit (Option ListRef) :=
  match list with
  | none => surroundings.fail (lit "$&catch") (lit "usage: catch catcher body")
  | some lp => do
      let body := (← cell lp).next
      .call (.eval body [] flags) fun
        | .ret result => .ret result
        | .raise frombody => do
            match ← surroundings.catchBody lp flags frombody with
            | some result => return result
            | none => await (.prim (lit "catch") (some lp) binding flags)

/-! ### Redirections -/

/-- `getnumber`, of a term. -/
def getnumber (caller : Text) (term : TermRef) : Script World Label Unit Nat := do
  let s ← observe (surroundings.getstr term)
  match surroundings.number s with
  | some n => return n
  | none => surroundings.fail caller (lit "bad number: " ++ s)

/-- `argcount`. -/
def argcount (caller s : Text) : Script World Label Unit α :=
  surroundings.fail caller (lit "argument count: usage: " ++ s)

/-- What `redir` calls: the source descriptor, the rest of the list and a process. -/
abbrev Rop (World Label : Type) :=
  Option ListRef → Script World Label Unit (Option Nat × Option ListRef × Option Nat)

/-- `redir`: the list and the process. -/
def redir (caller : Text) (rop : Rop World Label) (list : Option ListRef) (flags : EvalFlags) :
    Script World Label Unit (Option ListRef × Option Nat) :=
  match list with
  | none => .stop
  | some ref => do
      let destfd ← surroundings.getnumber caller (← cell ref).term
      let (srcfd, lp, pid) ← rop (← cell ref).next
      -- an exception of `defer` finds no ticket yet, and `undefer` has nothing to do
      let ticket ← lift (surroundings.defer srcfd destfd (!flags.inchild))
      let evaluated : Script World Label Unit (Option ListRef) := do
        let lp ← await (.eval lp [] flags)
        lift (surroundings.undefer ticket)
        return lp
      let lp ← evaluated.handled fun e => do
        lift (surroundings.undefer ticket)
        .throw e
      return (lp, pid)

/-- `redir_openfile`. -/
def redir_openfile : Rop World Label := fun list => do
  match ← .follow list .ret with
  | [(_, mode), (_, name), (cmd, _)] => do
      let mode ← observe (surroundings.getstr mode.term)
      match Routine.modes.lookup mode with
      | none => surroundings.fail (lit "$&openfile") (lit "bad %openfile mode: " ++ mode)
      | some kind => do
          let name ← observe (surroundings.getstr name.term)
          match ← lift (surroundings.eopen name kind) with
          | .error error => surroundings.fail (lit "$&openfile") (name ++ lit ": " ++ error)
          | .ok fd => return (some fd, some cmd, none)
  | _ => .stop

/-- `$&openfile`. -/
def prim_openfile (list : Option ListRef) (flags : EvalFlags) :
    Script World Label Unit (Option ListRef) :=
  .transpose () list fun
    | none => surroundings.argcount (lit "$&openfile") (lit "%openfile mode fd file cmd")
    | some lp => do
        let (list, _) ← surroundings.redir (lit "$&openfile") surroundings.redir_openfile lp flags
        return list

/-- `redir_dup`. -/
def redir_dup : Rop World Label := fun list => do
  match ← .follow list .ret with
  | [(_, oldfd), (cmd, _)] => do
      let oldfd ← surroundings.getnumber (lit "$&dup") oldfd.term
      match ← lift (surroundings.dup oldfd) with
      | .error error => surroundings.fail (lit "$&dup") (lit "dup: " ++ error)
      | .ok fd => return (some fd, some cmd, none)
  | _ => .stop

/-- `$&dup`. -/
def prim_dup (list : Option ListRef) (flags : EvalFlags) :
    Script World Label Unit (Option ListRef) := do
  let found ← terms list
  if found.length ≠ 3 then surroundings.argcount (lit "$&dup") (lit "%dup newfd oldfd cmd")
  else do
    let (list, _) ← surroundings.redir (lit "$&dup") surroundings.redir_dup list flags
    return list

/-- `redir_close`. -/
def redir_close : Rop World Label := fun list => return (none, list, none)

/-- `$&close`. -/
def prim_close (list : Option ListRef) (flags : EvalFlags) :
    Script World Label Unit (Option ListRef) := do
  let found ← terms list
  if found.length ≠ 2 then surroundings.argcount (lit "$&close") (lit "%close fd cmd")
  else do
    let (list, _) ← surroundings.redir (lit "$&close") redir_close list flags
    return list

/-- `redir_here`. -/
def redir_here : Rop World Label := fun list =>
  match list with
  | none => .stop
  | some ref =>
      .truncate () ref fun doc tail => do
        let (pid, fd) ← lift (surroundings.pipefork doc)
        return (some fd, some tail, some pid)

/-- `$&here`. -/
def prim_here (list : Option ListRef) (flags : EvalFlags) :
    Script World Label Unit (Option ListRef) := do
  let found ← terms list
  if found.length < 2 then
    surroundings.argcount (lit "$&here") (lit "%here fd [word ...] cmd")
  else do
    let (list, pid) ← surroundings.redir (lit "$&here") surroundings.redir_here list flags
    match pid with
    | some pid => do
        lift (surroundings.ewait pid)
        return list
    | none => return list

/-! ### The functions by their calls -/

/-- `prim`. -/
def prim (s : Text) (list : Option ListRef) (binding : List BindingRef) (flags : EvalFlags) :
    Script World Label Unit (Option ListRef) :=
  if s = lit "forever" then prim_forever list binding flags
  else if s = lit "catch" then surroundings.prim_catch list binding flags
  else if s = lit "openfile" then surroundings.prim_openfile list flags
  else if s = lit "dup" then surroundings.prim_dup list flags
  else if s = lit "close" then surroundings.prim_close list flags
  else if s = lit "here" then surroundings.prim_here list flags
  else lift (surroundings.prims s list binding flags)

/-- The script of a function. -/
def script : Invocation Label → Script World Label Unit (Option ListRef)
  | .eval list binding flags => surroundings.eval list binding flags
  | .restart list binding flags funcname => surroundings.restart list binding flags funcname
  | .prim s list binding flags => surroundings.prim s list binding flags
  | .other label => lift (surroundings.code label)

/-! ### Runs -/

/-- The state in which a command list is about to be evaluated. -/
def start (store : ListStore TermRef) (world : World) (list : Option ListRef)
    (binding : List BindingRef) (flags : EvalFlags) : Running World Label where
  store := store
  world := world
  waiting := []
  script := await (.eval list binding flags)

/-- The states of a run. -/
def Reached (state later : Running World Label) : Prop :=
  Relation.ReflTransGen (fun state later => state.step surroundings.script = some later) state later

/-- In every state of the run, the cells have the terms and the next pointers they had. -/
def Preserves (held : List (ListRef × ListNode TermRef)) (state : Running World Label) : Prop :=
  ∀ later, surroundings.Reached state later → Unaltered held later.store

end Surroundings

/-- The next step rewrites none of the cells: it is not the transposition of `$&openfile` in a list
of four whose first or second cell is one of them, nor the truncation of `$&here` of a list in which
one of them is the last cell but one. -/
def Running.Harmless {World Label : Type} (held : List (ListRef × ListNode TermRef))
    (state : Running World Label) : Prop :=
  match state.script with
  | .transpose _ list _ => ¬Transposes held list state.store
  | .truncate _ list _ => ¬Truncates held list state.store
  | _ => True

/-! ### What a step does to cells -/

namespace Running

variable {World Label : Type} {held : List (ListRef × ListNode TermRef)}
  {code : Invocation Label → Script World Label Unit (Option ListRef)}
  {state later : Running World Label}

/-- A step leaves the cells as they are exactly when it is harmless. -/
theorem step_unaltered_iff (unaltered : Unaltered held state.store)
    (stepped : state.step code = some later) :
    Unaltered held later.store ↔ state.Harmless held := by
  obtain ⟨store, world, waiting, script⟩ := state
  cases script with
  | ret list =>
    cases waiting <;> cases stepped
    exact iff_of_true unaltered trivial
  | throw e =>
    cases waiting <;> cases stepped
    exact iff_of_true unaltered trivial
  | stop => cases stepped
  | read ref k =>
    obtain ⟨_, -, rfl⟩ := Option.map_eq_some_iff.mp stepped
    exact iff_of_true unaltered trivial
  | follow list k =>
    obtain ⟨_, -, rfl⟩ := Option.map_eq_some_iff.mp stepped
    exact iff_of_true unaltered trivial
  | append terms tail k =>
    cases stepped
    exact iff_of_true (unaltered.append terms tail) trivial
  | get k =>
    cases stepped
    exact iff_of_true unaltered trivial
  | set world k =>
    cases stepped
    exact iff_of_true unaltered trivial
  | call callee k =>
    cases stepped
    exact iff_of_true unaltered trivial
  | transpose allowed list k =>
    obtain ⟨⟨lp, store⟩, done, rfl⟩ := Option.map_eq_some_iff.mp stepped
    exact transpose_unaltered_iff unaltered done
  | truncate allowed list k =>
    obtain ⟨⟨⟨doc, tail⟩, store⟩, done, rfl⟩ := Option.map_eq_some_iff.mp stepped
    exact truncate_unaltered_iff unaltered done

/-- A step that is not harmless is made. -/
theorem exists_step (harmful : ¬state.Harmless held) : ∃ later, state.step code = some later := by
  obtain ⟨store, world, waiting, script⟩ := state
  cases script with
  | transpose allowed list k =>
    obtain ⟨first, second, third, fourth, four, -⟩ := not_not.mp harmful
    refine Option.isSome_iff_exists.mp ?_
    simp only [step, transpose, four, Option.map_some, Option.isSome_some]
  | truncate allowed list k =>
    obtain ⟨init, last, tail, two, -⟩ := not_not.mp harmful
    refine Option.isSome_iff_exists.mp ?_
    simp [step, truncate, two]
  | _ => exact absurd trivial harmful

theorem transpose_length {list lp : Option ListRef} {before after : ListStore TermRef}
    (done : transpose list before = some (lp, after)) : after.length = before.length := by
  unfold transpose at done
  split at done
  · cases done
    rw [List.length_set, List.length_set]
  · cases done
    rfl
  · cases done

theorem truncate_length {list : ListRef} {result : Option ListRef × ListRef}
    {before after : ListStore TermRef} (done : truncate list before = some (result, after)) :
    after.length = before.length := by
  obtain ⟨found, -, rest⟩ := Option.bind_eq_some_iff.mp done
  split at rest
  · cases rest
  · cases rest
    rfl
  · cases rest
    exact List.length_set

/-- No cell is ever lost. -/
theorem step_length (stepped : state.step code = some later) :
    state.store.length ≤ later.store.length := by
  obtain ⟨store, world, waiting, script⟩ := state
  cases script with
  | ret list =>
    cases waiting <;> cases stepped
    exact le_refl _
  | throw e =>
    cases waiting <;> cases stepped
    exact le_refl _
  | stop => cases stepped
  | read ref k =>
    obtain ⟨_, -, rfl⟩ := Option.map_eq_some_iff.mp stepped
    exact le_refl _
  | follow list k =>
    obtain ⟨_, -, rfl⟩ := Option.map_eq_some_iff.mp stepped
    exact le_refl _
  | append terms tail k =>
    cases stepped
    show store.length ≤ (store ++ _).length
    rw [List.length_append]
    exact Nat.le_add_right _ _
  | get k =>
    cases stepped
    exact le_refl _
  | set world k =>
    cases stepped
    exact le_refl _
  | call callee k =>
    cases stepped
    exact le_refl _
  | transpose allowed list k =>
    obtain ⟨⟨lp, after⟩, done, rfl⟩ := Option.map_eq_some_iff.mp stepped
    exact (transpose_length done).ge
  | truncate allowed list k =>
    obtain ⟨⟨⟨doc, tail⟩, after⟩, done, rfl⟩ := Option.map_eq_some_iff.mp stepped
    exact (truncate_length done).ge

end Running

/-! ### What a run does to cells -/

namespace Surroundings

variable {World Label : Type} {surroundings : Surroundings World Label}
  {held : List (ListRef × ListNode TermRef)}

theorem Reached.unaltered {state later : Running World Label}
    (reached : surroundings.Reached state later) (unaltered : Unaltered held state.store)
    (harmless : ∀ later, surroundings.Reached state later → later.Harmless held) :
    Unaltered held later.store := by
  induction reached with
  | refl => exact unaltered
  | tail before stepped ih => exact (Running.step_unaltered_iff ih stepped).mpr (harmless _ before)

theorem Reached.length {state later : Running World Label}
    (reached : surroundings.Reached state later) : state.store.length ≤ later.store.length := by
  induction reached with
  | refl => exact le_refl _
  | tail _ stepped ih => exact ih.trans (Running.step_length stepped)

/-- A run that starts with the evaluation of a command list preserves its cells exactly when each of
its steps is harmless. -/
theorem preserves_iff {store : ListStore TermRef} {list : Option ListRef}
    (listed : cells store list = some held) (world : World) (binding : List BindingRef)
    (flags : EvalFlags) :
    surroundings.Preserves held (start store world list binding flags) ↔
      ∀ later, surroundings.Reached (start store world list binding flags) later →
        later.Harmless held := by
  constructor
  · intro preserves later reached
    by_contra harmful
    obtain ⟨next, stepped⟩ : ∃ next, later.step surroundings.script = some next :=
      Running.exists_step harmful
    have after := preserves next (reached.tail stepped)
    exact harmful ((Running.step_unaltered_iff (preserves later reached) stepped).mp after)
  · intro harmless later reached
    exact reached.unaltered (walkCells_get listed) harmless

/-- In a run that preserves the cells of the command list, an evaluation of the list, or of what
follows one of its cells, finds in every later state the cells it found at first. -/
theorem Preserves.again {state later : Running World Label} {list : Option ListRef}
    {init rest : List (ListRef × ListNode TermRef)} {ref : ListRef} {cell : ListNode TermRef}
    (preserves : surroundings.Preserves (init ++ (ref, cell) :: rest) state)
    (listed : cells state.store list = some (init ++ (ref, cell) :: rest))
    (reached : surroundings.Reached state later) :
    cells later.store (some ref) = some ((ref, cell) :: rest) := by
  refine walkCells_of_kept (walkCells_suffix listed) reached.length ?_
  intro entry member
  exact preserves later reached entry (List.mem_append_right init member)

/-! ### A command that changes -/

/-- The cells of `$&forever %openfile r 0 file cmd`, and of the definition of `fn-%openfile`. -/
def foreverStore : ListStore TermRef :=
  [⟨5, some 1⟩, ⟨4, some 2⟩, ⟨0, some 3⟩, ⟨1, some 4⟩, ⟨2, some 5⟩, ⟨3, none⟩, ⟨6, none⟩]

/-- A shell in which each system call succeeds, and the command of the redirection does nothing. -/
def foreverShell : Surroundings Unit Empty where
  getclosure term := .ret <|
    if term = 3 then some (.nThunk .null, [])
    else if term = 5 then some (.nPrim (lit "forever"), [])
    else if term = 6 then some (.nPrim (lit "openfile"), [])
    else none
  getstr term _ :=
    if term = 0 then lit "r" else if term = 1 then lit "0" else if term = 2 then lit "file"
    else lit "%openfile"
  mkstr _ := .ret 0
  termeq _ _ _ := false
  varlookup2 _ name _ _ := if name = lit "%openfile" then some 6 else none
  glom _ _ := .ret none
  pathsearch _ := .ret none
  isabsolute _ := false
  checkexecutable _ := .ret none
  walk _ _ _ _ _ := .ret none
  forkexec _ _ _ := .ret none
  prims _ _ _ _ := .ret none
  code := nofun
  ltrue _ := none
  deepen := .ret ()
  leave := .ret ()
  exitonfalse _ := .ret ()
  blocksignals := .ret ()
  unblocksignals := .ret ()
  number s := if s = lit "0" then some 0 else none
  eopen _ _ := .ret (.ok 3)
  dup _ := .ret (.ok 3)
  pipefork _ := .ret (0, 0)
  defer _ _ _ := .ret none
  undefer _ := .ret ()
  ewait _ := .ret ()

/-- So many steps of the machine. -/
def runFor (code : Invocation Label → Script World Label Unit (Option ListRef)) :
    Nat → Running World Label → Option (Running World Label)
  | 0, state => some state
  | n + 1, state => (state.step code).bind (runFor code n)

/-- The call that is about to be made. -/
def calls (state : Running World Label) : Option (Invocation Label) :=
  match state.script with
  | .call callee _ => some callee
  | _ => none

theorem reached_runFor {n : Nat} {state later : Running World Label}
    (ran : runFor surroundings.script n state = some later) : surroundings.Reached state later := by
  induction n generalizing state with
  | zero =>
    cases ran
    exact .refl
  | succ n ih =>
    obtain ⟨next, stepped, rest⟩ := Option.bind_eq_some_iff.mp ran
    exact .head stepped (ih rest)

/-- The state in which `$&forever %openfile r 0 file cmd` is evaluated. -/
def foreverStart : Running Unit Empty :=
  start foreverStore () (some 0) [] ⟨false, false⟩

/-- The cells of the command list. -/
def foreverCells : List (ListRef × ListNode TermRef) :=
  [(0, ⟨5, some 1⟩), (1, ⟨4, some 2⟩), (2, ⟨0, some 3⟩), (3, ⟨1, some 4⟩), (4, ⟨2, some 5⟩),
    (5, ⟨3, none⟩)]

theorem foreverStart_preserves_iff :
    foreverShell.Preserves foreverCells foreverStart ↔
      ∀ later, foreverShell.Reached foreverStart later → later.Harmless foreverCells :=
  preserves_iff rfl () [] ⟨false, false⟩

/-- The first round of `$&forever` evaluates `%openfile r 0 file cmd`, the second one
`%openfile r file cmd`. -/
theorem forever_changes :
    (∃ later, foreverShell.Reached foreverStart later ∧
        calls later = some (.eval (some 1) [] ⟨false, false⟩) ∧
        (cells later.store (some 1)).map (·.map (·.2.term)) = some [4, 0, 1, 2, 3]) ∧
      (∃ later, foreverShell.Reached foreverStart later ∧
        calls later = some (.eval (some 1) [] ⟨false, false⟩) ∧
        (cells later.store (some 1)).map (·.map (·.2.term)) = some [4, 0, 2, 3]) ∧
      ¬foreverShell.Preserves foreverCells foreverStart := by
  have first : (runFor foreverShell.script 5 foreverStart).map
      (fun later => (calls later, (cells later.store (some 1)).map (·.map (·.2.term)))) =
        some (some (.eval (some 1) [] ⟨false, false⟩), some [4, 0, 1, 2, 3]) := by
    decide +kernel
  have second : (runFor foreverShell.script 35 foreverStart).map
      (fun later => (calls later, (cells later.store (some 1)).map (·.map (·.2.term)))) =
        some (some (.eval (some 1) [] ⟨false, false⟩), some [4, 0, 2, 3]) := by
    decide +kernel
  obtain ⟨early, ranEarly, seenEarly⟩ := Option.map_eq_some_iff.mp first
  obtain ⟨late, ranLate, seenLate⟩ := Option.map_eq_some_iff.mp second
  refine ⟨⟨early, reached_runFor ranEarly, congrArg Prod.fst seenEarly,
      congrArg Prod.snd seenEarly⟩,
    ⟨late, reached_runFor ranLate, congrArg Prod.fst seenLate, congrArg Prod.snd seenLate⟩,
    fun preserves => ?_⟩
  have listed : cells foreverStart.store (some 0) =
      some ([(0, ⟨5, some 1⟩)] ++ (1, ⟨4, some 2⟩) :: foreverCells.drop 2) := rfl
  have again := Preserves.again preserves listed (reached_runFor ranLate)
  have terms : (cells late.store (some 1)).map (·.map (·.2.term)) = some [4, 0, 2, 3] :=
    congrArg Prod.snd seenLate
  rw [again] at terms
  exact absurd terms (by decide)

end Surroundings

end Desh
