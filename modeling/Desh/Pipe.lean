/-
This file models how `$&pipe` connects the commands of a pipeline, `pipefork`
included: what each child does to its descriptors before it evaluates its
command, and what the parent does between two children.

The numbers that `pipe` returns come with each link of the pipeline. The
variables `p[0]`, `p[1]` and `inpipe` are registered at addresses of their own.
-/

import Desh.Closefds

namespace Desh

variable {File : Type}

/-! ### The pipeline -/

/-- What stands between two commands: the numbers `outfd` and `infd` they are connected by, what
`pipe` returns, and the two ends of the pipe. -/
structure Link (File : Type) where
  outfd : Nat
  infd : Nat
  fd0 : Nat
  fd1 : Nat
  readEnd : File
  writeEnd : File
  deriving DecidableEq

/-- The addresses of `p[0]`, `p[1]` and `inpipe`. -/
structure Frame where
  p0 : Nat
  p1 : Nat
  inpipe : Nat
  deriving DecidableEq

namespace Process

/-- Assign to a variable of the shell. -/
def assign (address : Nat) (fd : Option Nat) (process : Process File) : Process File :=
  { process with shell := Function.update process.shell address fd }

/-- `pipe`. -/
def pipe (frame : Frame) (link : Link File) (process : Process File) : Process File :=
  assign frame.p1 (some link.fd1) (assign frame.p0 (some link.fd0)
    { process with
      table := (process.table.set link.fd0 (some link.readEnd)).set link.fd1 (some link.writeEnd) })

/-- `pipefork` up to the fork. The variable `inpipe` holds the read end of the pipe on the left,
if there is one. -/
def pipeforkBegin (frame : Frame) (link : Link File) (left : Option (Link File))
    (process : Process File) : Process File :=
  registerfd (.shell frame.inpipe) false
    (registerfd (.shell frame.p1) false
      (registerfd (.shell frame.p0) false
        (pipe frame link (assign frame.inpipe (left.map Link.fd0) process))))

/-- `pipefork` after the fork. -/
def pipeforkEnd (frame : Frame) (process : Process File) : Option (Process File) := do
  let process ← process.unregisterfd (.shell frame.p0)
  let process ← process.unregisterfd (.shell frame.p1)
  process.unregisterfd (.shell frame.inpipe)

/-- Move a descriptor of the pipeline to the number the user asks for. -/
def connect (oldfd : Option Nat) (newfd : Nat) (process : Process File) :
    Option (Process File) := do
  let process ← process.releasefd newfd
  process.mvfd (← oldfd) newfd

/-- A child reads from its left neighbour: `inpipe` becomes `infd`. -/
def connectLeft (frame : Frame) (left : Option (Link File)) (process : Process File) :
    Option (Process File) :=
  match left with
  | none => some process
  | some left => process.connect (process.shell frame.inpipe) left.infd

/-- A child writes to its right neighbour: `p[1]` becomes `outfd`, and `p[0]` is closed. -/
def connectRight (frame : Frame) (link : Link File) (process : Process File) :
    Option (Process File) := do
  let process ← process.connect (process.shell frame.p1) link.outfd
  let p0 ← process.shell frame.p0
  some { process with table := process.table.close p0 }

/-- The child that `pipefork` makes, as `closefds` and the unregistering leave it. -/
def pipeforkChild (frame : Frame) (link : Link File) (left : Option (Link File))
    (process : Process File) : Option (Process File) := do
  let child ← (process.pipeforkBegin frame link left).closefds
  child.pipeforkEnd frame

/-- A child with a right neighbour, just before it evaluates its command. -/
def innerChild (frame : Frame) (link : Link File) (left : Option (Link File))
    (process : Process File) : Option (Process File) := do
  let child ← process.pipeforkChild frame link left
  let child ← child.connectLeft frame left
  child.connectRight frame link

/-- The last child, which `efork` makes, just before it evaluates its command. -/
def lastChild (frame : Frame) (left : Option (Link File)) (process : Process File) :
    Option (Process File) := do
  let child ← (process.assign frame.inpipe (left.map Link.fd0)).closefds
  child.connectLeft frame left

/-- The parent between two children: it closes what it does not need any more. -/
def nextParent (frame : Frame) (link : Link File) (left : Option (Link File))
    (process : Process File) : Option (Process File) := do
  let parent ← (process.pipeforkBegin frame link left).pipeforkEnd frame
  let table := left.elim parent.table fun left => parent.table.close left.fd0
  some { parent with table := table.close link.fd1 }

/-- The loop of `$&pipe`: its children, each just before it evaluates its command; `none` is one
that fails before. -/
def prim_pipe (frame : Frame) : List (Link File) → Option (Link File) → Process File →
    Option (List (Option (Process File)))
  | [], left, process => some [process.lastChild frame left]
  | link :: links, left, process => do
      let parent ← process.nextParent frame link left
      let children ← prim_pipe frame links (some link) parent
      some (process.innerChild frame link left :: children)

/-! ### What a pipeline is for -/

/-- A child is connected to its neighbours: `infd` is the read end of the pipe on its left and
`outfd` the write end of the one on its right. -/
def Connected (left right : Option (Link File)) (child : Option (Process File)) : Prop :=
  ∃ process, child = some process ∧
    (∀ link, left = some link → process.table.file link.infd = some link.readEnd) ∧
    ∀ link, right = some link → process.table.file link.outfd = some link.writeEnd

/-- Every child of a pipeline is. -/
def AllConnected : List (Link File) → Option (Link File) → List (Option (Process File)) → Prop
  | [], left, [child] => Connected left none child
  | link :: links, left, child :: children =>
      Connected left (some link) child ∧ AllConnected links (some link) children
  | _, _, _ => False

/-- What `pipe` is known to return, and what is assumed of the numbers of one child. -/
structure FreshLink (link : Link File) (left : Option (Link File)) (process : Process File) :
    Prop where
  different : link.fd0 ≠ link.fd1
  free0 : process.table.file link.fd0 = none
  free1 : process.table.file link.fd1 = none
  newRead : ∀ n, process.table.file n ≠ some link.readEnd
  newWrite : ∀ n, process.table.file n ≠ some link.writeEnd
  ends : link.readEnd ≠ link.writeEnd
  numbers : ∀ other, left = some other → link.outfd ≠ other.infd

/-- `pipe` returns such numbers every time. -/
def AllFresh (frame : Frame) : List (Link File) → Option (Link File) → Process File → Prop
  | [], _, _ => True
  | link :: links, left, process =>
      FreshLink link left process ∧
        ∀ parent, process.nextParent frame link left = some parent →
          AllFresh frame links (some link) parent

/-! ### What may go wrong -/

/-- In the child that `pipefork` makes, `infd` is neither end of its own pipe, and `outfd` is not
the read end of it. -/
def InnerClear (frame : Frame) (link : Link File) (left : Option (Link File))
    (process : Process File) : Prop :=
  ∀ child, process.pipeforkChild frame link left = some child →
    child.shell frame.p0 ≠ some link.outfd ∧
      ∀ other, left = some other →
        child.shell frame.p0 ≠ some other.infd ∧ child.shell frame.p1 ≠ some other.infd

/-- No pending redirection is for the number the last child finds the pipe under. -/
def LastClear (left : Option (Link File)) (process : Process File) : Prop :=
  ∀ other, left = some other → ∀ defer ∈ process.deftab, defer.userfd ≠ other.fd0

/-- This holds of every child of a pipeline. -/
def AllClear (frame : Frame) : List (Link File) → Option (Link File) → Process File → Prop
  | [], left, process => LastClear left process
  | link :: links, left, process =>
      InnerClear frame link left process ∧
        ∀ parent, process.nextParent frame link left = some parent →
          AllClear frame links (some link) parent

end Process

end Desh
