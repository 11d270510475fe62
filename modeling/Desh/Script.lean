/-
This file has what the C functions of the shell do to the cells of lists, as
scripts: they read cells, make new ones, and call `eval` or a primitive. Only a
script with the permission to write may rewrite cells in place, and only in the
two ways of `prim-io.c`.

A script runs on a machine that keeps the cells and a stack of the functions
that wait for a call, so that a run is a sequence of steps and need not end.
-/

import Desh.Eval
import Desh.Listcell

namespace Desh

/-! ### Scripts -/

/-- How a call ends: it returns a list, or raises an exception, which is a list. -/
inductive Answer where
  | ret (list : Option ListRef)
  | raise (e : ListRef)
  deriving DecidableEq

/-- The functions that a script can wait for. `Label` names those that are neither `eval` nor
primitives. -/
inductive Invocation (Label : Type) where
  | eval (list : Option ListRef) (binding : List BindingRef) (flags : EvalFlags)
  /-- `eval` from its label `restart` on. -/
  | restart (list : Option ListRef) (binding : List BindingRef) (flags : EvalFlags)
      (funcname : Option Text)
  | prim (s : Text) (list : Option ListRef) (binding : List BindingRef) (flags : EvalFlags)
  | other (label : Label)
  deriving DecidableEq

/-- What a function does, one access to the cells after the other. The rest of the shell is a
`World`. -/
inductive Script (World Label Write α : Type) where
  | ret (value : α)
  | throw (e : ListRef)
  | stop
  | read (ref : ListRef) (k : ListNode TermRef → Script World Label Write α)
  | follow (list : Option ListRef)
      (k : List (ListRef × ListNode TermRef) → Script World Label Write α)
  | append (terms : List TermRef) (tail : Option ListRef)
      (k : Option ListRef → Script World Label Write α)
  | get (k : World → Script World Label Write α)
  | set (world : World) (k : Script World Label Write α)
  | call (callee : Invocation Label) (k : Answer → Script World Label Write α)
  | transpose (allowed : Write) (list : Option ListRef)
      (k : Option ListRef → Script World Label Write α)
  | truncate (allowed : Write) (list : ListRef)
      (k : Option ListRef → ListRef → Script World Label Write α)

namespace Script

variable {World Label Write α β : Type}

/-- One script after another. -/
def bind (next : α → Script World Label Write β) :
    Script World Label Write α → Script World Label Write β
  | .ret value => next value
  | .throw e => .throw e
  | .stop => .stop
  | .read ref k => .read ref fun cell => bind next (k cell)
  | .follow list k => .follow list fun found => bind next (k found)
  | .append terms tail k => .append terms tail fun list => bind next (k list)
  | .get k => .get fun world => bind next (k world)
  | .set world k => .set world (bind next k)
  | .call callee k => .call callee fun answer => bind next (k answer)
  | .transpose allowed list k => .transpose allowed list fun lp => bind next (k lp)
  | .truncate allowed list k => .truncate allowed list fun doc tail => bind next (k doc tail)

instance : Monad (Script World Label Write) where
  pure := .ret
  bind script next := script.bind next

/-- A script whose exceptions another one handles. -/
def handled (catcher : ListRef → Script World Label Write α) :
    Script World Label Write α → Script World Label Write α
  | .ret value => .ret value
  | .throw e => catcher e
  | .stop => .stop
  | .read ref k => .read ref fun cell => handled catcher (k cell)
  | .follow list k => .follow list fun found => handled catcher (k found)
  | .append terms tail k => .append terms tail fun list => handled catcher (k list)
  | .get k => .get fun world => handled catcher (k world)
  | .set world k => .set world (handled catcher k)
  | .call callee k => .call callee fun answer => handled catcher (k answer)
  | .transpose allowed list k => .transpose allowed list fun lp => handled catcher (k lp)
  | .truncate allowed list k => .truncate allowed list fun doc tail => handled catcher (k doc tail)

/-- A script that does not rewrite cells, among those that may. -/
def lift : Script World Label Empty α → Script World Label Write α
  | .ret value => .ret value
  | .throw e => .throw e
  | .stop => .stop
  | .read ref k => .read ref fun cell => lift (k cell)
  | .follow list k => .follow list fun found => lift (k found)
  | .append terms tail k => .append terms tail fun list => lift (k list)
  | .get k => .get fun world => lift (k world)
  | .set world k => .set world (lift k)
  | .call callee k => .call callee fun answer => lift (k answer)

/-- The end of a call in the script that waits for it. -/
def answer : Answer → Script World Label Write (Option ListRef)
  | .ret list => .ret list
  | .raise e => .throw e

/-- Call a function, and go on with the list it returns. -/
def await (callee : Invocation Label) : Script World Label Write (Option ListRef) :=
  .call callee answer

/-- A cell as it is now. -/
def cell (ref : ListRef) : Script World Label Write (ListNode TermRef) := .read ref .ret

/-- The terms of a list as they are now. -/
def terms (list : Option ListRef) : Script World Label Write (List TermRef) :=
  .follow list fun found => .ret (found.map fun (_, cell) => cell.term)

/-- `append`. -/
def appended (head tail : Option ListRef) : Script World Label Write (Option ListRef) := do
  let copied ← terms head
  .append copied tail .ret

/-- What the rest of the shell says. -/
def observe (f : World → α) : Script World Label Write α := .get fun world => .ret (f world)

end Script

/-! ### The machine -/

section

variable {World Label : Type}

/-- A state of a run: the cells and the rest of the shell, the scripts that wait for a call, and the
one that runs. -/
structure Running (World Label : Type) where
  store : ListStore TermRef
  world : World
  waiting : List (Answer → Script World Label Unit (Option ListRef))
  script : Script World Label Unit (Option ListRef)

/-- A step of the machine, where `code` has the scripts of the functions. There is none where the
run has ended, where a list does not end, or where a pointer points to no cell. -/
def Running.step (code : Invocation Label → Script World Label Unit (Option ListRef))
    (state : Running World Label) : Option (Running World Label) :=
  match state.script with
  | .ret list =>
      match state.waiting with
      | [] => none
      | k :: waiting => some { state with waiting, script := k (.ret list) }
  | .throw e =>
      match state.waiting with
      | [] => none
      | k :: waiting => some { state with waiting, script := k (.raise e) }
  | .stop => none
  | .read ref k => state.store[ref]?.map fun cell => { state with script := k cell }
  | .follow list k => (cells state.store list).map fun found => { state with script := k found }
  | .append terms tail k =>
      let (list, store) := append terms tail state.store
      some { state with store, script := k list }
  | .get k => some { state with script := k state.world }
  | .set world k => some { state with world, script := k }
  | .call callee k =>
      some { state with waiting := k :: state.waiting, script := code callee }
  | .transpose _ list k =>
      (transpose list state.store).map fun (lp, store) => { state with store, script := k lp }
  | .truncate _ list k =>
      (truncate list state.store).map fun ((doc, tail), store) =>
        { state with store, script := k doc tail }

end

end Desh
