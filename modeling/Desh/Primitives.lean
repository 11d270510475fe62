/-
This file models the primitives that evaluate a command (`prim-ctl.c` and
`prim-io.c`), as a parent process runs them: `evalflags` has no `EVAL_INCHILD`,
and no `fork` returns zero. Children never return from a primitive.

A command may do anything to the variables of the shell and to the world outside
it, but leaves the tables of deferred and registered descriptors and the count
of `blocksignals` to the primitive that evaluates it. System calls are
parameters; they see the open descriptors, and not the tables.
-/

import Desh.Fd
import Desh.Control

namespace Desh

/-! ### The machine -/

/-- What the primitives work on besides the variables of the shell: the descriptors with their
tables, the count of `blocksignals`, and the rest of the world. -/
structure Machine (File Outside : Type) where
  process : Process File
  blocked : Nat
  outside : Outside

/-- The tables and the count are the same; the order of the registered list does not matter. -/
structure Kept {File Outside : Type} (after before : Machine File Outside) : Prop where
  deftab : after.process.deftab = before.process.deftab
  reserved : after.process.reserved.Perm before.process.reserved
  blocked : after.blocked = before.blocked

/-- The commands that primitives evaluate. -/
structure Commands (strhash : Text → Nat) (File Outside : Type) where
  behave : Evaluator strhash (Machine File Outside)
  ret_kept : ∀ list shell world result shell' world',
    behave list shell world = .ret result shell' world' → Kept world' world
  raise_kept : ∀ list shell world e shell' world' opened,
    behave list shell world = .raise e shell' world' opened → Kept world' world

/-- `OpenKind`. -/
inductive OpenKind where
  | oOpen
  | oCreate
  | oAppend
  | oReadWrite
  | oReadCreate
  | oReadAppend
  deriving DecidableEq

/-- A system call, which fails with an error number. -/
abbrev Syscall (File Outside Value : Type) :=
  Descriptors File → Outside → Except Nat Value × Descriptors File × Outside

/-- The system, and what the primitives ask of the rest of the shell. `eread` is all that is read
before a `read` that finds nothing more or fails; `strtol` is its result as an `int`, and where it
stopped; `sigchk` is the list of strings of the exception, when some signal has come. -/
structure System (File Outside : Type) where
  «open» : Text → OpenKind → Syscall File Outside Nat
  dup : Option Nat → Syscall File Outside Nat
  pipe : Syscall File Outside (Nat × Nat)
  fork : Syscall File Outside Nat
  waitpid : Nat → Syscall File Outside Int
  eread : Nat → Outside → List Text × Option Nat × Outside
  sigchk : Outside → Option (Text × List Text) × Outside
  strtol : Text → Int × Text
  strerror : Nat → Text
  mkstatus : Int → Text
  getstr : Heap → TermRef → Text
  ltrue : List TermRef

/-! ### Routines -/

/-- Open the roots of so many `Ref` variables. -/
def Control.openRefs {strhash : Text → Nat} {World : Type} (n : Nat)
    (control : Control strhash World) : Control strhash World :=
  control.enterAll ((List.range n).map Level.ref)

/-- A part of a primitive. -/
def Routine (strhash : Text → Nat) (File Outside Value : Type) :=
  Control strhash (Machine File Outside) → Outcome (Control strhash (Machine File Outside)) Value

namespace Routine

variable {strhash : Text → Nat} {File Outside : Type} {α β : Type}

instance : Monad (Routine strhash File Outside) where
  pure value := fun control => .ret value control
  bind routine next := fun control =>
    match routine control with
    | .ret value control => next value control
    | .raise e control => .raise e control
    | .abort => .abort

/-- An assertion that fails. -/
def abort : Routine strhash File Outside α := fun _ => .abort

/-- `throw_exception`, out of what is modelled. -/
def throw (e : Exception) : Routine strhash File Outside α := fun control => .raise e control

/-- `fail`. -/
def fail (source message : Text) : Routine strhash File Outside α := Control.fail source message

/-- Read from the state. -/
def get (f : Control strhash (Machine File Outside) → α) : Routine strhash File Outside α :=
  fun control => .ret (f control) control

/-- Change the machine. -/
def update (f : Machine File Outside → Machine File Outside) : Routine strhash File Outside Unit :=
  fun control => .ret () { control with world := f control.world }

/-- Change the tables of descriptors, unless an assertion fails there. -/
def process (f : Process File → Option (Process File)) : Routine strhash File Outside Unit :=
  fun control =>
    match f control.world.process with
    | some process => .ret () { control with world := { control.world with process } }
    | none => .abort

/-- A system call. -/
def call (syscall : Syscall File Outside α) : Routine strhash File Outside (Except Nat α) :=
  fun control =>
    let (result, table, outside) := syscall control.world.process.table control.world.outside
    .ret result { control with
      world := { control.world with process := { control.world.process with table }, outside } }

/-- `mkstr`, as a term. -/
def mkstr (s : Text) : Routine strhash File Outside TermRef := fun control =>
  .ret (control.mkstr s).1 (control.mkstr s).2

/-- A function with so many `Ref` variables, from the first `Ref` to the last `RefEnd`. -/
def refs (n : Nat) (routine : Routine strhash File Outside α) : Routine strhash File Outside α :=
  fun control =>
    match routine (control.openRefs n) with
    | .ret value after => .ret value { after with rootlist := after.rootlist.drop n }
    | .raise e after => .raise e after
    | .abort => .abort

end Routine

/-- `listpid`. -/
structure Listpid where
  l : List TermRef
  pid : Option Nat
  deriving DecidableEq

/-- A function that opens a descriptor for `redir`, or none to close one. -/
abbrev Rop (strhash : Text → Nat) (File Outside : Type) :=
  List TermRef → Routine strhash File Outside (Option Nat × Listpid)

/-! ### Handlers -/

namespace Control

variable {strhash : Text → Nat} {World : Type} (commands : Evaluator strhash World)

/-- The loop of `throw_exception` as the code around a handler sees it: an exception of a settor
goes to the handlers further up. -/
def popTo (handler : Handler) : Nat → Control strhash World →
    Outcome (Control strhash World) Unit
  | 0, control =>
      if handler.rootlist <:+ control.rootlist then
        .ret () { control with rootlist := handler.rootlist, evaldepth := handler.evaldepth }
      else .abort
  | n + 1, control =>
      match varpop commands control.toDefnroot with
      | .ret () control => popTo handler n control
      | .raise e control => .raise e control
      | .abort => .abort

/-- `throw_exception`, up to the jump to the handler that is installed. -/
def throwTo (control : Control strhash World) : Outcome (Control strhash World) Unit :=
  match control.tophandler with
  | [] => .abort
  | handler :: up =>
      if control.shell.pushlist.length < handler.pushlist then .abort
      else popTo commands handler (control.shell.pushlist.length - handler.pushlist)
        { control with tophandler := up }

end Control

namespace Routine

variable {strhash : Text → Nat} {File Outside : Type} {α : Type}

variable (commands : Commands strhash File Outside) (system : System File Outside)

/-- `ExceptionHandler`, with the code after `CatchException`. -/
def exceptionHandler (body : Routine strhash File Outside α)
    (handle : Exception → Routine strhash File Outside α) : Routine strhash File Outside α :=
  fun outer =>
    match body outer.install with
    | .ret value after =>
        match Control.pophandler ⟨outer.rootlist, outer.shell.pushlist.length, outer.evaldepth⟩
          outer.tophandler after with
        | .ret () popped => .ret value popped
        | .raise e popped => .raise e popped
        | .abort => .abort
    | .raise e after =>
        match Control.throwTo commands.behave after with
        | .ret () caught => handle e caught
        | .raise e after => .raise e after
        | .abort => .abort
    | .abort => .abort

/-- `eval`. -/
def eval (list : List TermRef) : Routine strhash File Outside (List TermRef) :=
  commands.behave.eval list

/-! ### Descriptors -/

/-- `getstr`. -/
def getstr (t : TermRef) : Routine strhash File Outside Text :=
  get fun control => system.getstr control.shell.heap t

/-- `close`. -/
def close (fd : Nat) : Routine strhash File Outside Unit :=
  process fun process => some { process with table := process.table.close fd }

/-- `registerfd`, with its assertion. -/
def registerfd (fdp : Cell) (closeonfork : Bool) : Routine strhash File Outside Unit :=
  process fun process =>
    if fdp ∈ process.cells then none else some (process.registerfd fdp closeonfork)

/-- `unregisterfd`. -/
def unregisterfd (fdp : Cell) : Routine strhash File Outside Unit :=
  process fun process => process.unregisterfd fdp

/-- `defer_close` and `defer_mvfd`. -/
def defer (realfd : Option Nat) (userfd : Nat) : Routine strhash File Outside Unit :=
  process fun process => process.pushdefer realfd userfd

/-- `undefer`, with its assertion. -/
def undefer (ticket : Nat) : Routine strhash File Outside Unit :=
  process fun process => if process.deftab.length = ticket + 1 then process.undefer else none

/-- An address no registered variable has. -/
def newCell (process : Process File) : Nat :=
  (process.cells.map fun cell =>
    match cell with
    | .deferred _ => 0
    | .shell address => address + 1).foldr max 0

/-- `efork`, in the parent. -/
def efork : Routine strhash File Outside Nat := do
  match ← call system.fork with
  | .ok pid => pure pid
  | .error errno => fail (lit "es:efork") (lit "fork: " ++ system.strerror errno)

/-- `ewait`. -/
def ewait (pid : Nat) : Routine strhash File Outside Int := do
  match ← call (system.waitpid pid) with
  | .ok status => pure status
  | .error errno =>
      fail (lit "es:ewait") (lit "wait: " ++ lit (toString pid) ++ lit " " ++ system.strerror errno)

/-- `SIGCHK`. -/
def sigchk : Routine strhash File Outside Unit := do
  let blocked ← get fun control => control.world.blocked
  if blocked ≠ 0 then pure ()
  else
    let (signal, outside) ← get fun control => system.sigchk control.world.outside
    update fun machine => { machine with outside }
    match signal with
    | none => pure ()
    | some (s, strings) =>
        let term ← mkstr s
        let next ← strings.mapM mkstr
        throw ⟨term, next⟩

/-! ### Redirections -/

/-- `getnumber`. -/
def getnumber (caller : Text) (t : TermRef) : Routine strhash File Outside Nat := do
  let s ← getstr system t
  let (result, stop) := system.strtol s
  if stop ≠ [] ∨ result < 0 then fail caller (lit "bad number: " ++ s) else pure result.toNat

/-- `argcount`. -/
def argcount (caller s : Text) : Routine strhash File Outside α :=
  fail caller (lit "argument count: usage: " ++ s)

/-- `redir` up to its handler. -/
def redirBegin (caller : Text) (rop : Rop strhash File Outside) :
    List TermRef → Routine strhash File Outside (Nat × Option Nat × Listpid)
  | [] => abort
  | destfd :: list => do
      let destfd ← getnumber system caller destfd
      let (srcfd, r) ← rop list
      pure (destfd, srcfd, r)

/-- What the handler of `redir` protects. -/
def deferred (ticket destfd : Nat) (srcfd : Option Nat) (lp : List TermRef) :
    Routine strhash File Outside (List TermRef) := do
  defer srcfd destfd
  let lp ← eval commands lp
  undefer ticket
  pure lp

/-- The handler of `redir`. The ticket is the number of the entry that a parent adds. -/
def redirected (destfd : Nat) (srcfd : Option Nat) (lp : List TermRef) :
    Routine strhash File Outside (List TermRef) := do
  let ticket ← get fun control => control.world.process.deftab.length
  exceptionHandler commands (deferred commands ticket destfd srcfd lp) fun e => do
    undefer ticket
    throw e

/-- `redir`. -/
def redir (caller : Text) (rop : Rop strhash File Outside) (list : List TermRef) :
    Routine strhash File Outside Listpid :=
  refs 1 do
    let (destfd, srcfd, r) ← redirBegin system caller rop list
    let l ← redirected commands destfd srcfd r.l
    pure { r with l }

/-- The modes of `$&openfile`. -/
def modes : List (Text × OpenKind) :=
  [(lit "r", .oOpen), (lit "w", .oCreate), (lit "a", .oAppend), (lit "r+", .oReadWrite),
    (lit "w+", .oReadCreate), (lit "a+", .oReadAppend)]

/-- `redir_openfile`. -/
def redir_openfile : Rop strhash File Outside
  | [mode, name, cmd] =>
      refs 1 do
        let mode ← getstr system mode
        match modes.lookup mode with
        | none => fail (lit "$&openfile") (lit "bad %openfile mode: " ++ mode)
        | some kind =>
            let name ← getstr system name
            match ← call (system.open name kind) with
            | .error errno =>
                fail (lit "$&openfile") (name ++ lit ": " ++ system.strerror errno)
            | .ok fd => pure (some fd, ⟨[cmd], none⟩)
  | _ => abort

/-- `redir_dup`. -/
def redir_dup (caller : Text) : Rop strhash File Outside
  | [oldfd, cmd] =>
      refs 1 do
        let oldfd ← getnumber system caller oldfd
        let realfd ← get fun control => fdmap control.world.process.deftab oldfd
        match ← call (system.dup realfd) with
        | .error errno => fail (lit "$&dup") (lit "dup: " ++ system.strerror errno)
        | .ok fd => pure (some fd, ⟨[cmd], none⟩)
  | _ => abort

/-- `redir_close`. -/
def redir_close : Rop strhash File Outside := fun list => pure (none, ⟨list, none⟩)

/-- `pipefork`, without an `extra` descriptor, in the parent: the two ends of the pipe and the
child. -/
def pipefork (caller : Text) : Routine strhash File Outside (Nat × Nat × Nat) := do
  match ← call system.pipe with
  | .error errno => fail caller (lit "pipe: " ++ system.strerror errno)
  | .ok (fd0, fd1) =>
      let p ← get fun control => newCell control.world.process
      process fun process =>
        some ((process.write (.shell p) (some fd0)).write (.shell (p + 1)) (some fd1))
      registerfd (.shell p) false
      registerfd (.shell (p + 1)) false
      let pid ← exceptionHandler commands (efork system) fun e => do
        unregisterfd (.shell p)
        unregisterfd (.shell (p + 1))
        throw e
      unregisterfd (.shell p)
      unregisterfd (.shell (p + 1))
      pure (fd0, fd1, pid)

/-- `redir_here`. -/
def redir_here (caller : Text) : Rop strhash File Outside := fun list =>
  match list.getLast? with
  | none => abort
  | some tail => do
      let _ ← mkstr (lit "$&here")
      let (fd0, fd1, pid) ← pipefork commands system caller
      close fd1
      pure (some fd0, ⟨[tail], some pid⟩)

/-! ### The primitives -/

/-- The loop of `$&seq`. -/
def seqLoop : List TermRef → List TermRef → Routine strhash File Outside (List TermRef)
  | result, [] => pure result
  | _, term :: lp => do
      let result ← eval commands [term]
      seqLoop result lp

/-- `$&seq`. -/
def prim_seq (list : List TermRef) : Routine strhash File Outside (List TermRef) :=
  refs 2 (seqLoop commands system.ltrue list)

/-- `istrue`. -/
def istrue (status : List TermRef) : Routine strhash File Outside Bool :=
  get fun control => status.all fun term =>
    match control.shell.heap.terms[term]? with
    | some (.str s) => s == [] || s == lit "0"
    | _ => false

/-- The loop of `$&if`. -/
def ifLoop : List TermRef → Routine strhash File Outside (List TermRef)
  | [] => pure system.ltrue
  | [term] => eval commands [term]
  | term :: body :: lp => do
      let cond ← eval commands [term]
      if ← istrue cond then eval commands [body] else ifLoop lp

/-- `$&if`. -/
def prim_if (list : List TermRef) : Routine strhash File Outside (List TermRef) :=
  refs 1 (ifLoop commands system list)

/-- `blocksignals`. -/
def blocksignals : Routine strhash File Outside Unit :=
  update fun machine => { machine with blocked := machine.blocked + 1 }

/-- `unblocksignals`, with its assertion. -/
def unblocksignals : Routine strhash File Outside Unit := do
  let blocked ← get fun control => control.world.blocked
  if blocked = 0 then abort else update fun machine => { machine with blocked := blocked - 1 }

/-- `termeq`. -/
def termeq (term : TermRef) (s : Text) : Routine strhash File Outside Bool :=
  get fun control => control.shell.heap.terms[term]? == some (.str s)

/-- What the second handler of `$&catch` protects. -/
def catcher (lp : TermRef) (frombody : Exception) :
    Routine strhash File Outside (Option (List TermRef)) := do
  let noreturn ← mkstr (lit "$&noreturn")
  let result ← eval commands (noreturn :: lp :: frombody.term :: frombody.next)
  unblocksignals
  pure (some result)

/-- The handler of `$&catch` for an exception from the body; there is no result when it is to be
retried. -/
def catchBody (lp : TermRef) (frombody : Exception) :
    Routine strhash File Outside (Option (List TermRef)) := do
  blocksignals
  exceptionHandler commands (catcher commands lp frombody) fun fromcatcher => do
    if ← termeq fromcatcher.term (lit "retry") then
      unblocksignals
      pure none
    else
      unblocksignals
      throw fromcatcher

/-- One round of the loop of `$&catch`. -/
def catchRound (lp : TermRef) (body : List TermRef) :
    Routine strhash File Outside (Option (List TermRef)) :=
  exceptionHandler commands (do return some (← eval commands body)) (catchBody commands lp)

/-- So many rounds of the loop of `$&catch`; none when they are not enough. -/
def catchLoop (lp : TermRef) (body : List TermRef) :
    Nat → Routine strhash File Outside (Option (List TermRef))
  | 0 => pure none
  | rounds + 1 => do
      match ← catchRound commands lp body with
      | some result => pure (some result)
      | none => catchLoop lp body rounds

/-- `$&catch`. -/
def prim_catch (rounds : Nat) :
    List TermRef → Routine strhash File Outside (Option (List TermRef))
  | [] => fail (lit "$&catch") (lit "usage: catch catcher body")
  | lp :: body => refs 2 (catchLoop commands lp body rounds)

/-- `$&openfile`. -/
def prim_openfile : List TermRef → Routine strhash File Outside (List TermRef)
  | [mode, fd, file, cmd] => do
      let r ← redir commands system (lit "$&openfile") (redir_openfile system) [fd, mode, file, cmd]
      pure r.l
  | _ => argcount (lit "$&openfile") (lit "%openfile mode fd file cmd")

/-- `$&dup`. -/
def prim_dup (list : List TermRef) : Routine strhash File Outside (List TermRef) :=
  if list.length ≠ 3 then argcount (lit "$&dup") (lit "%dup newfd oldfd cmd")
  else do
    let r ← redir commands system (lit "$&dup") (redir_dup system (lit "$&dup")) list
    pure r.l

/-- `$&close`. -/
def prim_close (list : List TermRef) : Routine strhash File Outside (List TermRef) :=
  if list.length ≠ 2 then argcount (lit "$&close") (lit "%close fd cmd")
  else do
    let r ← redir commands system (lit "$&close") redir_close list
    pure r.l

/-- `$&here`. -/
def prim_here (list : List TermRef) : Routine strhash File Outside (List TermRef) :=
  if list.length < 2 then argcount (lit "$&here") (lit "%here fd [word ...] cmd")
  else do
    let r ← redir commands system (lit "$&here") (redir_here commands system (lit "$&here")) list
    match r.pid with
    | some pid =>
        let _ ← ewait system pid
        pure r.l
    | none => pure r.l

/-- `str(DEVFD_PATH, fd)`. -/
def devfd (fd : Nat) : Text := lit "/dev/fd/" ++ lit (toString fd)

/-- `$&readfrom` and `$&writeto` up to their handler: the descriptor of the parent and the child.
The child's end of the pipe is closed. -/
def substitution (caller : Text) (ends : Nat × Nat → Nat × Nat) (var : TermRef) :
    Routine strhash File Outside (Nat × Nat) := do
  let var ← getstr system var
  let (fd0, fd1, pid) ← pipefork commands system caller
  let (own, other) := ends (fd0, fd1)
  close other
  let lp ← mkstr (devfd own)
  Control.varpush commands.behave var [lp]
  pure (own, pid)

/-- Their handler. -/
def substituted (own pid : Nat) (cmd : TermRef) :
    Routine strhash File Outside (List TermRef) :=
  exceptionHandler commands (eval commands [cmd]) fun e => do
    close own
    let _ ← ewait system pid
    throw e

/-- `$&readfrom`. -/
def prim_readfrom : List TermRef → Routine strhash File Outside (List TermRef)
  | [var, _, cmd] =>
      refs 4 do
        let (p0, pid) ← substitution commands system (lit "$&readfrom") id var
        let lp ← substituted commands system p0 pid cmd
        close p0
        let _ ← ewait system pid
        Control.varpop commands.behave
        pure lp
  | _ => argcount (lit "$&readfrom") (lit "%readfrom var input cmd")

/-- `$&writeto`. -/
def prim_writeto : List TermRef → Routine strhash File Outside (List TermRef)
  | [var, _, cmd] =>
      refs 4 do
        let (p1, pid) ← substitution commands system (lit "$&writeto") Prod.swap var
        let lp ← substituted commands system p1 pid cmd
        -- `pophandler(&h)`: the handler `h` has never been installed
        let _ ← (abort : Routine strhash File Outside Unit)
        close p1
        let _ ← ewait system pid
        Control.varpop commands.behave
        pure lp
  | _ => argcount (lit "$&writeto") (lit "%writeto var output cmd")

/-- What `bqinput` splits. -/
def split (sep : Text) (chunks : List Text) : Routine strhash File Outside (List Text) :=
  fun control =>
    let split := chunks.foldl (fun state chunk => splitstring chunk false state)
      (startsplit sep true control.shell.split)
    .ret (endsplit split).1
      { control with shell := { control.shell with split := (endsplit split).2 } }

/-- `bqinput`. -/
def bqinput (sep : Text) (fd : Nat) : Routine strhash File Outside (List Text) := do
  let (chunks, errno, outside) ← get fun control => system.eread fd control.world.outside
  update fun machine => { machine with outside }
  sigchk system
  match errno with
  | some errno =>
      close fd
      fail (lit "$&backquote") (lit "backquote read: " ++ system.strerror errno)
  | none => split sep chunks

/-- `$&backquote`. -/
def prim_backquote : List TermRef → Routine strhash File Outside (List TermRef)
  | [] => fail (lit "$&backquote") (lit "usage: backquote separator command [args ...]")
  | sep :: _ => do
      let list ← refs 2 do
        let sep ← getstr system sep
        let (fd0, fd1, pid) ← pipefork commands system (lit "$&backquote")
        close fd1
        let words ← bqinput system sep fd0
        let lp ← words.mapM mkstr
        close fd0
        let status ← ewait system pid
        let t ← mkstr (system.mkstatus status)
        pure (t :: lp)
      sigchk system
      pure list

end Routine

open Routine

/-- The primitives that evaluate a command. -/
inductive Evaluating where
  | «catch»
  | «if»
  | seq
  | openfile
  | dup
  | close
  | here
  | readfrom
  | writeto
  | backquote
  deriving DecidableEq

/-- Run one of them; `$&catch` for so many rounds, and without a result when they are not
enough. -/
def Evaluating.run {strhash : Text → Nat} {File Outside : Type}
    (commands : Commands strhash File Outside) (system : System File Outside) (rounds : Nat)
    (list : List TermRef) :
    Evaluating → Routine strhash File Outside (Option (List TermRef))
  | .catch => prim_catch commands rounds list
  | .if => do return some (← prim_if commands system list)
  | .seq => do return some (← prim_seq commands system list)
  | .openfile => do return some (← prim_openfile commands system list)
  | .dup => do return some (← prim_dup commands system list)
  | .close => do return some (← prim_close commands system list)
  | .here => do return some (← prim_here commands system list)
  | .readfrom => do return some (← prim_readfrom commands system list)
  | .writeto => do return some (← prim_writeto commands system list)
  | .backquote => do return some (← prim_backquote commands system list)

end Desh
