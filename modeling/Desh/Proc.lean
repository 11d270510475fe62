/-
This file models the process list of `proc.c`, and says what it is for: the
processes that have been forked and not been freed, the latest one first.

What `malloc`, `fork` and `waitpid` return comes with each step. The terminal
modes kept with a process, which nothing here reads, are left out, and so are
process groups of the terminal. Loops over the list are given fuel, since it may
turn out to be a cycle.
-/

import Desh.Linked
import Desh.Text

namespace Desh

/-! ### Processes -/

/-- `Proc`, without its links. `mkproc` does not set `status`. -/
structure Proc where
  pid : Int
  pgid : Int
  status : Option Int
  alive : Bool
  background : Bool
  stopped : Bool
  haschanged : Bool
  cmd : Text
  deriving DecidableEq

/-- What does not change: `isinteractive()`, `has_job_control` and `shell_pgid`. -/
structure Session where
  isinteractive : Bool
  hasJobControl : Bool
  shell_pgid : Int
  deriving DecidableEq

/-- What is allocated and the head of the list. -/
structure Procs where
  memory : Memory Nat Proc
  proclist : Option Nat

/-- What `waitpid` reports: an error, or a process that has stopped or ended. -/
inductive Waited where
  | error
  | stopped (wpid : Int)
  | ended (wpid status : Int)
  deriving DecidableEq

/-- The process `mkproc` writes down. -/
def mkProc (session : Session) (pid : Int) (background : Bool) (status : Option Int) (cmd : Text) :
    Proc where
  pid
  pgid := session.shell_pgid
  status
  alive := true
  background
  stopped := false
  haschanged := false
  cmd

/-- The process group `efork` puts a new process in. -/
def newPgid (session : Session) (pid pgid : Int) : Int :=
  let pgid := if pgid = -1 then session.shell_pgid else pgid
  if session.hasJobControl && session.isinteractive then if pgid = 0 then pid else pgid
  else session.shell_pgid

/-- The condition of `getproc`. -/
def Proc.isAwaited (pid : Int) (onlyfg : Bool) (proc : Proc) : Bool :=
  (pid == proc.pid || -pid == proc.pgid || pid == 0) && proc.alive && (!proc.background || !onlyfg)

/-- What `donotwait` makes of a process, if `waitpid` says that those of `exited` have. -/
def Proc.reap (exited : Int → Option Int) (proc : Proc) : Proc :=
  if proc.alive && proc.background then
    match exited proc.pid with
    | some status => { proc with haschanged := true, alive := false, status := some status }
    | none => proc
  else proc

/-- What `ewait` writes down of a process that has stopped. -/
def Proc.stop (proc : Proc) : Proc :=
  { proc with haschanged := true, stopped := true, background := true }

/-- What `ewait` writes down of a process that has ended. -/
def Proc.finish (status : Int) (proc : Proc) : Proc :=
  { proc with haschanged := true, alive := false, status := some status }

/-! ### The list in memory -/

namespace Procs

/-- The loop over `next` up to the first process of a kind. -/
def find (kind : Proc → Bool) (memory : Memory Nat Proc) : Nat → Option Nat → Option (Option Nat)
  | 0, _ => none
  | _ + 1, none => some none
  | fuel + 1, some a =>
      (memory a).bind fun cell =>
        if kind cell.data then some (some a) else find kind memory fuel cell.next

/-- Write to the process at an address. -/
def write (procs : Procs) (a : Nat) (f : Proc → Proc) : Procs :=
  { procs with memory := procs.memory.modify a fun cell => { cell with data := f cell.data } }

/-- `mkproc`; `fresh` is what `ealloc` returns. It fails its assertion where a process with the
new number is alive. -/
def mkproc (session : Session) (fuel fresh : Nat) (pid : Int) (background : Bool) (cmd : Text)
    (procs : Procs) : Option (Nat × Procs) := do
  let found ← find (fun proc => proc.pid == pid) procs.memory fuel procs.proclist
  match found with
  | none =>
      if (procs.memory fresh).isSome then none
      else
        let proc := mkProc session pid background none cmd
        some (fresh, { procs with
          memory := Function.update procs.memory fresh (some ⟨procs.proclist, none, proc⟩) })
  | some a =>
      let cell ← procs.memory a
      if cell.data.alive then none
      else
        let proc := mkProc session pid background cell.data.status cmd
        some (a, { procs with
          memory := Function.update procs.memory a (some ⟨cell.next, none, proc⟩) })

/-- `unlinkproc`, for a process that is not null. -/
def unlinkproc (a : Nat) (procs : Procs) : Option Procs :=
  (procs.memory a).map fun cell =>
    { memory :=
        Function.update ((procs.memory.setPrev cell.next cell.prev).setNext cell.prev cell.next) a
          none
      proclist := if cell.prev = none then cell.next else procs.proclist }

/-- `efork` in the parent, where `fork` returns `pid`. -/
def efork (session : Session) (fuel fresh : Nat) (pid : Int) (background : Bool) (pgid : Int)
    (cmd : Text) (procs : Procs) : Option Procs := do
  let (a, procs) ← procs.mkproc session fuel fresh pid background cmd
  let procs := procs.write a fun proc => { proc with pgid := newPgid session pid pgid }
  some { memory := procs.memory.setPrev procs.proclist (some a), proclist := some a }

/-- The loop of `cleanproclist`. After a call of `unlinkproc` it goes on from the copy that keeps
the link of the process it has freed. -/
def cleanproclistLoop : Nat → Option Nat → Procs → Option Procs
  | 0, _, _ => none
  | _ + 1, none, procs => some procs
  | fuel + 1, some a, procs => do
      let cell ← procs.memory a
      let procs ← if cell.data.alive then some procs else procs.unlinkproc a
      cleanproclistLoop fuel cell.next procs

/-- `cleanproclist`. -/
def cleanproclist (fuel : Nat) (procs : Procs) : Option Procs :=
  cleanproclistLoop fuel procs.proclist procs

/-- The loop of `donotwait`. -/
def donotwaitLoop (exited : Int → Option Int) : Nat → Option Nat → Procs → Option Procs
  | 0, _, _ => none
  | _ + 1, none, procs => some procs
  | fuel + 1, some a, procs => do
      let cell ← procs.memory a
      donotwaitLoop exited fuel cell.next (procs.write a (Proc.reap exited))

/-- `donotwait`. -/
def donotwait (exited : Int → Option Int) (fuel : Nat) (procs : Procs) : Option Procs :=
  donotwaitLoop exited fuel procs.proclist procs

/-- `getproc`. -/
def getproc (pid : Int) (onlyfg : Bool) (fuel : Nat) (procs : Procs) : Option (Option Nat) :=
  find (Proc.isAwaited pid onlyfg) procs.memory fuel procs.proclist

/-- The loop of `ewait`: whether it fails, and the list it leaves. It follows a null pointer where
`waitpid` reports a process that is not alive on the list. -/
def ewaitLoop (fuel : Nat) (pid : Int) : List Waited → Procs → Option (Bool × Procs)
  | reports, procs => do
      let some _ ← procs.getproc pid false fuel | some (false, procs)
      match reports with
      | [] => none
      | .error :: _ => some (true, procs)
      | .stopped wpid :: _ => do
          let some a ← procs.getproc wpid false fuel | none
          some (false, procs.write a Proc.stop)
      | .ended wpid status :: reports => do
          let some a ← procs.getproc wpid false fuel | none
          ewaitLoop fuel pid reports (procs.write a (Proc.finish status))

/-- `ewait`. -/
def ewait (session : Session) (fuel : Nat) (pid : Int) (exited : Int → Option Int)
    (reports : List Waited) (procs : Procs) : Option Procs := do
  let procs ← procs.donotwait exited fuel
  let (failed, procs) ← ewaitLoop fuel pid reports procs
  if failed || session.isinteractive then some procs else procs.cleanproclist fuel

/-- `$&procfree`; for a number that is not on the list it only raises an exception. -/
def procfree (fuel : Nat) (pid : Int) (status : Option Int) (procs : Procs) : Option Procs := do
  let some a ← find (fun proc => proc.pid == pid) procs.memory fuel procs.proclist | some procs
  let procs := procs.write a fun proc => { proc with status := status <|> proc.status }
  procs.unlinkproc a

end Procs

/-! ### Steps -/

/-- What the shell does with its processes. -/
inductive ProcOp where
  | efork (fresh : Nat) (pid : Int) (background : Bool) (pgid : Int) (cmd : Text)
  | ewait (pid : Int) (exited : Int → Option Int) (reports : List Waited)
  | donotwait (exited : Int → Option Int)
  | cleanproclist
  | procfree (pid : Int) (status : Option Int)

namespace Procs

def step (session : Session) (fuel : Nat) (procs : Procs) : ProcOp → Option Procs
  | .efork fresh pid background pgid cmd =>
      procs.efork session fuel fresh pid background pgid cmd
  | .ewait pid exited reports => procs.ewait session fuel pid exited reports
  | .donotwait exited => procs.donotwait exited fuel
  | .cleanproclist => procs.cleanproclist fuel
  | .procfree pid status => procs.procfree fuel pid status

/-- A sequence of steps; `none` if one of them does not come to its end. -/
def run (session : Session) (fuel : Nat) (ops : List ProcOp) (procs : Procs) : Option Procs :=
  ops.foldlM (step session fuel) procs

/-- The list when the shell starts. -/
def initial : Procs := ⟨fun _ => none, none⟩

end Procs

/-! ### The processes to be listed -/

/-- What is to be listed: the processes forked and not yet freed, the latest first. -/
abbrev Table := List Proc

namespace Table

/-- Write to the first process of a kind. -/
def writeFirst (kind : Proc → Bool) (f : Proc → Proc) (table : Table) : Table :=
  table.replaceF fun proc => if kind proc then some (f proc) else none

def fork (session : Session) (pid : Int) (background : Bool) (pgid : Int) (cmd : Text)
    (table : Table) : Table :=
  { mkProc session pid background none cmd with pgid := newPgid session pid pgid } :: table

def reap (exited : Int → Option Int) (table : Table) : Table := table.map (Proc.reap exited)

def clean (table : Table) : Table := table.filter Proc.alive

/-- The reports up to the one that ends a wait, and whether the wait fails. -/
def await (pid : Int) : List Waited → Table → Bool × Table
  | reports, table =>
      if table.any (Proc.isAwaited pid false) then
        match reports with
        | [] => (false, table)
        | .error :: _ => (true, table)
        | .stopped wpid :: _ => (false, table.writeFirst (Proc.isAwaited wpid false) Proc.stop)
        | .ended wpid status :: reports =>
            await pid reports (table.writeFirst (Proc.isAwaited wpid false) (Proc.finish status))
      else (false, table)

/-- What a step does to the processes to be listed. -/
def step (session : Session) (table : Table) : ProcOp → Table
  | .efork _ pid background pgid cmd => table.fork session pid background pgid cmd
  | .ewait pid exited reports =>
      let (failed, table) := await pid reports (table.reap exited)
      if failed || session.isinteractive then table else table.clean
  | .donotwait exited => table.reap exited
  | .cleanproclist => table.clean
  | .procfree pid _ => table.eraseP fun proc => proc.pid == pid

def run (session : Session) (ops : List ProcOp) (table : Table) : Table :=
  ops.foldl (step session) table

end Table

end Desh
