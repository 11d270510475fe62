/-
This file models the stack of inputs (`input.cpp`): `runinput` puts an input on
it while commands are read from that, and these may run further inputs and leave
them by exceptions. An `Input` is known by its address. What is parsed and what
the commands do is a parameter, as a tree of activities.

`Running.lean` proves that the stack is put back and every input is cleaned up
just once, whichever way it is left, and when the assertions of `parse` hold: the
message of a syntax error must not be left behind by an exception of the input,
nor be dropped by a signal while the parser skips the rest of the line.
-/

import Mathlib.Tactic

namespace Desh

namespace Runinput

/-! ### The state -/

/-- The two kinds of inputs, by their routines `fill` and `cleanup`. -/
inductive Kind where
  | fd
  | string
  deriving DecidableEq

/-- `Input`: whether `fill` has become `eoffill` is `eof`, and `fd` is nothing once it is `-1`. -/
structure Source where
  kind : Kind
  prev : Option Nat
  fd : Option Nat
  eof : Bool
  deriving DecidableEq

/-- What happens to the `Input` at an address. -/
inductive Event where
  | registered (address fd : Nat)
  | unregistered (address : Nat)
  | closed (address fd : Nat)
  | freed (address : Nat)
  deriving DecidableEq

/-- The `Input` an event is about. -/
def Event.address : Event → Nat
  | registered address _ | unregistered address | closed address _ | freed address => address

/-- The `Input`s there have been below the address `next`, the variables `input` and `error`, and
what has happened, latest first. -/
structure State where
  sources : Nat → Source
  next : Nat
  input : Option Nat
  error : Bool
  log : List Event

/-- What filling the buffer brings. -/
inductive Brings where
  | data
  | eof
  | failure
  | signal
  deriving DecidableEq

/-- What `yyparse` does: it finds a syntax error, or needs more of the input, and with `noop` a
signal without an effect is taken meanwhile. -/
inductive ParseStep where
  | yyerror
  | fill (noop : Bool) (brings : Brings)
  deriving DecidableEq

/-- What is done: nothing, an exception, a call of `parse`, an input that is run or parsed, one
thing after another, or something with a handler. The `result` of `yyparse` says if it gave up, and
with `more` there is more than one value. -/
inductive Activity where
  | done
  | throw
  | parse (steps : List ParseStep) (result : Bool)
  | runfd (fd : Nat) (body : Activity)
  | runstring (body : Activity)
  | parsestring (steps : List ParseStep) (result more : Bool)
  | andThen (first next : Activity)
  | catching (body handler : Activity)

/-- How something ends: an assertion may fail, and then the shell does. -/
inductive Ended where
  | ret
  | raise
  | abort
  deriving DecidableEq

/-! ### Reading -/

/-- Nothing has been run. -/
def State.initial : State := ⟨fun _ => ⟨.string, none, none, true⟩, 0, none, false, []⟩

/-- `fill = eoffill`. -/
def Source.ended (source : Source) : Source := { source with eof := true }

/-- `fd = -1` besides. -/
def Source.shut (source : Source) : Source := { source with fd := none, eof := true }

def State.set (state : State) (address : Nat) (source : Source) : State :=
  { state with sources := Function.update state.sources address source }

/-- `sigchk` calls `resetparser` for every signal it takes. -/
def State.checked (state : State) (taken : Bool) : State :=
  { state with error := state.error && !taken }

/-- What `fdfill` does with what `eread` brought. -/
def fdfill (brings : Brings) (address fd : Nat) (state : State) : Ended × State :=
  let closed := State.set { state with log := .closed address fd :: state.log } address
    (state.sources address).shut
  match brings with
  | .data => (.ret, state)
  | .signal => (.raise, state.checked true)
  | .eof => (.ret, closed)
  | .failure => (.raise, closed)

/-- The routine `fill` of an input: `eoffill`, `stringfill` or `fdfill`. -/
def fill (noop : Bool) (brings : Brings) (address : Nat) (state : State) : Ended × State :=
  let source := state.sources address
  if source.eof then (.ret, state)
  else
    match source.kind, source.fd with
    | .string, _ => (.ret, state.set address source.ended)
    | .fd, none => (.abort, state)
    | .fd, some fd => fdfill brings address fd (state.checked noop)

/-- `yyparse`, on the current input. -/
def yyparse (address : Nat) : List ParseStep → State → Ended × State
  | [], state => (.ret, state)
  | .yyerror :: steps, state => yyparse address steps { state with error := true }
  | .fill noop brings :: steps, state =>
    match fill noop brings address state with
    | (.ret, state) => yyparse address steps state
    | (ended, state) => (ended, state)

/-- `parse`; there is no input to be parsed if `input` is `NULL`. -/
def parse (steps : List ParseStep) (result : Bool) (state : State) : Ended × State :=
  match state.error, state.input with
  | true, _ => (.abort, state)
  | _, none => (.abort, state)
  | false, some address =>
    if (state.sources address).eof then (.raise, state)
    else
      match yyparse address steps state with
      | (.ret, state) =>
        match result, state.error with
        | _, true => (.raise, { state with error := false })
        | true, false => (.abort, state)
        | false, false => (.ret, state)
      | (ended, state) => (ended, state)

/-! ### Running -/

/-- The routine `cleanup` of an input. -/
def cleanup (address : Nat) (state : State) : State :=
  match (state.sources address).kind with
  | .string => { state with log := .freed address :: state.log }
  | .fd =>
    match (state.sources address).fd with
    | none => { state with log := .freed address :: .unregistered address :: state.log }
    | some fd =>
      { state with
        log := .freed address :: .closed address fd :: .unregistered address :: state.log }

/-- `in->prev = input` and `input = in`. -/
def State.push (state : State) (address : Nat) : State :=
  { state.set address { state.sources address with prev := state.input } with
    input := some address }

/-- `runinput` and `parseinput`, of the `Input` at an address. The handler goes by `input`. -/
def runinput (address : Nat) (body : State → Ended × State) (state : State) : Ended × State :=
  match body (state.push address) with
  | (.ret, state) =>
    (.ret, cleanup address { state with input := (state.sources address).prev })
  | (.raise, state) =>
    match state.input with
    | none => (.abort, state)
    | some input =>
      let state := cleanup input state
      (.raise, { state with input := (state.sources input).prev })
  | (.abort, state) => (.abort, state)

/-- A new `Input`. -/
def State.new (state : State) (source : Source) : State :=
  { state.set state.next source with next := state.next + 1 }

/-- `runfd`. -/
def runfd (fd : Nat) (body : State → Ended × State) (state : State) : Ended × State :=
  let opened := state.new ⟨.fd, none, some fd, false⟩
  runinput state.next body { opened with log := .registered state.next fd :: state.log }

/-- `runstring` and `parsestring`. -/
def runstring (body : State → Ended × State) (state : State) : Ended × State :=
  runinput state.next body (state.new ⟨.string, none, none, false⟩)

/-- What `parseinput` does with its input. If `get` has no more characters it calls `fill`. -/
def parseValue (steps : List ParseStep) (result more : Bool) (state : State) : Ended × State :=
  match parse steps result state with
  | (.ret, state) =>
    match more, state.input with
    | true, _ => (.raise, state)
    | false, none => (.abort, state)
    | false, some address => fill false .eof address state
  | (ended, state) => (ended, state)

/-- Carry out an activity. -/
def exec : Activity → State → Ended × State
  | .done, state => (.ret, state)
  | .throw, state => (.raise, state)
  | .parse steps result, state => parse steps result state
  | .runfd fd body, state => runfd fd (exec body) state
  | .runstring body, state => runstring (exec body) state
  | .parsestring steps result more, state => runstring (parseValue steps result more) state
  | .andThen first next, state =>
    match exec first state with
    | (.ret, state) => exec next state
    | (ended, state) => (ended, state)
  | .catching body handler, state =>
    match exec body state with
    | (.raise, state) => exec handler state
    | (ended, state) => (ended, state)

end Runinput

end Desh
