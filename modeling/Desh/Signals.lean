/-
This file models how signals reach the shell (`signal.c`). The kernel may run
`catcher` between any two accesses of the shell to the variables it shares with
it, and between two accesses of another `catcher`. Signals are taken by
`sigchk`, which the shell calls now and then, and they interrupt the system
calls of `eread`, `ewrite` and `waitpidwrapper`.

An access is a step, so a counter is read and written in two. A signal is masked
while its `catcher` runs, unless the shell has called that itself. Whether
`longjmp` lifts the mask is left to the system: a run where it does not is also
one where the masked signals happen not to come.
-/

import Mathlib.Tactic

namespace Desh

namespace Signals

/-! ### The state -/

/-- Where `catcher` is: before the test of `caught`, before its assignment, before the two
accesses of `++sigcount`, before `interrupted = TRUE`, or before the test of `slow`. -/
inductive Handler where
  | test
  | assign
  | load
  | store (sigcount : Int)
  | interrupt
  | jump
  deriving DecidableEq

/-- A call of `catcher`, by the kernel or `direct`. -/
structure Frame where
  sig : Nat
  direct : Bool
  place : Handler
  deriving DecidableEq

/-- Where `sigchk` is: before its tests, in the loop at a signal, before the two accesses of
`--sigcount`, before `caught[sig] = 0`, or before `sigcount = 0`. -/
inductive Poll where
  | count
  | scan (sig : Nat)
  | load (sig : Nat)
  | store (sig : Nat) (sigcount : Int)
  | clear (sig : Nat)
  | reset
  deriving DecidableEq

/-- Where `eread` is: before `interrupted = FALSE`, before `slow = TRUE`, before the test of
`interrupted`, in the system call, or before `slow = FALSE`. Its result is `none` where the C code
sets `-2`. -/
inductive Slow where
  | start
  | arm
  | check
  | call
  | finish (result : Option Int)
  deriving DecidableEq

/-- What the shell does between handlers. -/
inductive Main where
  | other
  | poll (place : Poll)
  | slow (place : Slow)
  deriving DecidableEq

/-- What is recorded: the call of a `catcher`, its end, a signal that `sigchk` takes, and the
beginning and the end of a slow call. -/
inductive Event where
  | arrived (sig : Nat)
  | handled (sig : Nat)
  | taken (sig : Nat)
  | began
  | returned (result : Option Int)
  deriving DecidableEq

/-- The variables of `signal.c`, the calls of `catcher`, innermost first, the place of the shell,
and what has happened, latest first. -/
structure State where
  caught : Nat → Bool
  sigcount : Int
  interrupted : Bool
  slow : Bool
  blocked : Int
  hasforked : Bool
  exited : Bool
  frames : List Frame
  main : Main
  log : List Event

/-- Nothing has arrived. -/
def State.initial : State :=
  ⟨fun _ => false, 0, false, false, 0, false, false, [], .other, []⟩

/-! ### The steps -/

def State.goto (state : State) (frame : Frame) (rest : List Frame) (place : Handler) : State :=
  { state with frames := { frame with place } :: rest }

/-- A step of `catcher`. Its `longjmp` leaves the other handlers for the slow call. -/
def State.handle (state : State) (frame : Frame) (rest : List Frame) : State :=
  match frame.place with
  | .test =>
    if state.hasforked then { state with exited := true }
    else if state.caught frame.sig then state.goto frame rest .interrupt
    else state.goto frame rest .assign
  | .assign =>
    State.goto { state with caught := Function.update state.caught frame.sig true } frame rest .load
  | .load => state.goto frame rest (.store state.sigcount)
  | .store sigcount => State.goto { state with sigcount := sigcount + 1 } frame rest .interrupt
  | .interrupt => State.goto { state with interrupted := true } frame rest .jump
  | .jump =>
    if state.slow then
      { state with
        frames := []
        main := .slow (.finish none)
        log := .handled frame.sig :: state.log }
    else { state with frames := rest, log := .handled frame.sig :: state.log }

/-- A step of `sigchk`. -/
def State.poll (nsig : Nat) (state : State) : Poll → State
  | .count =>
    if state.sigcount = 0 ∨ state.blocked ≠ 0 then { state with main := .other }
    else if state.hasforked then { state with exited := true }
    else { state with main := .poll (.scan 0) }
  | .scan sig =>
    if nsig ≤ sig then { state with main := .poll .reset }
    else if state.caught sig then { state with main := .poll (.load sig) }
    else { state with main := .poll (.scan (sig + 1)) }
  | .load sig => { state with main := .poll (.store sig state.sigcount) }
  | .store sig sigcount => { state with sigcount := sigcount - 1, main := .poll (.clear sig) }
  | .clear sig =>
    { state with
      caught := Function.update state.caught sig false
      main := .other
      log := .taken sig :: state.log }
  | .reset => { state with sigcount := 0, main := .other }

/-- A step of `eread`, whose system call gives `result`. -/
def State.read (result : Int) (state : State) : Slow → State
  | .start => { state with interrupted := false, main := .slow .arm, log := .began :: state.log }
  | .arm => { state with slow := true, main := .slow .check }
  | .check =>
    if state.interrupted then { state with main := .slow (.finish none) }
    else { state with main := .slow .call }
  | .call => { state with main := .slow (.finish (some result)) }
  | .finish returned =>
    { state with slow := false, main := .other, log := .returned returned :: state.log }

/-- What can happen next: the kernel calls `catcher` or the shell does, the innermost handler goes
on, the shell calls `sigchk` or `eread` or goes on in these, it turns the delivery off or on, or
the run is that of a child from here on. -/
inductive Act where
  | arrive (sig : Nat)
  | call (sig : Nat)
  | handle
  | sigchk
  | eread
  | advance (result : Int)
  | blocksignals
  | unblocksignals
  | fork
  deriving DecidableEq

/-- Is a signal masked by its running `catcher`? -/
def State.masks (state : State) (sig : Nat) : Bool :=
  state.frames.any fun frame => frame.sig == sig && !frame.direct

/-- Is the shell outside handlers and outside these functions? -/
def State.idle (state : State) : Bool := state.frames.isEmpty && state.main == .other

/-- A call of `catcher`. -/
def State.enter (state : State) (sig : Nat) (direct : Bool) : State :=
  { state with frames := ⟨sig, direct, .test⟩ :: state.frames, log := .arrived sig :: state.log }

/-- A step, if it is possible. -/
def State.step (nsig : Nat) (state : State) (act : Act) : Option State :=
  if state.exited then none
  else
    match act with
    | .arrive sig =>
      if 0 < sig ∧ sig < nsig ∧ state.masks sig = false then some (state.enter sig false) else none
    | .call sig =>
      if 0 < sig ∧ sig < nsig ∧ state.idle then some (state.enter sig true) else none
    | .handle =>
      match state.frames with
      | [] => none
      | frame :: rest => some (state.handle frame rest)
    | .sigchk => if state.idle then some { state with main := .poll .count } else none
    | .eread => if state.idle then some { state with main := .slow .start } else none
    | .advance result =>
      match state.frames, state.main with
      | [], .poll place => some (state.poll nsig place)
      | [], .slow place => some (state.read result place)
      | _, _ => none
    | .blocksignals =>
      if state.idle then some { state with blocked := state.blocked + 1 } else none
    | .unblocksignals =>
      if state.idle ∧ 0 < state.blocked then some { state with blocked := state.blocked - 1 }
      else none
    | .fork => if state.idle then some { state with hasforked := true } else none

/-! ### Runs -/

/-- Steps one after another, if they are possible. -/
def State.run (nsig : Nat) (state : State) (acts : List Act) : Option State :=
  acts.foldlM (State.step nsig) state

/-- A step among those that are allowed. -/
def Steps (nsig : Nat) (allowed : State → Act → Prop) (before after : State) : Prop :=
  ∃ act, allowed before act ∧ before.step nsig act = some after

/-- The states of the runs whose steps are all allowed. -/
def Reachable (nsig : Nat) (allowed : State → Act → Prop) (state : State) : Prop :=
  Relation.ReflTransGen (Steps nsig allowed) .initial state

/-- Everything is allowed. -/
def Anytime (_ : State) (_ : Act) : Prop := True

/-- A `catcher` that the shell calls is not interrupted by its own signal. -/
def Unrepeated (state : State) : Act → Prop
  | .arrive sig => ∀ frame ∈ state.frames, frame.sig ≠ sig
  | _ => True

/-- Has `catcher` set `caught` and not counted that yet? -/
def Handler.counting : Handler → Bool
  | .load | .store _ => true
  | _ => false

/-- No signal arrives between the accesses of `caught[sig] = TRUE` and `++sigcount`, nor between
those of `--sigcount`, and a `catcher` that the shell calls is not interrupted by its own signal. -/
def Undisturbed (state : State) : Act → Prop
  | .arrive sig =>
    (∀ frame ∈ state.frames, frame.sig ≠ sig ∧ frame.place.counting = false) ∧
      ∀ taken sigcount, state.main ≠ .poll (.store taken sigcount)
  | _ => True

/-- The signals that are caught and not yet taken. -/
def pending (nsig : Nat) (caught : Nat → Bool) : Finset Nat :=
  (Finset.range nsig).filter fun sig => caught sig = true

end Signals

end Desh
