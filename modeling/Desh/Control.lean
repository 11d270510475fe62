/-
This file models the control stacks of the shell (`except.c`, and what `var.c`
keeps of them): the exception handlers, the records of `varpush`, the list of
roots and the evaluation depth. A list of roots is its list of nodes, so a
pointer to a node is the list that starts there, and a record is known by its
depth on `pushlist`.

What a command does while it is evaluated is a parameter. When it returns, the
stacks are as they were; when it raises an exception that it does not catch, it
has opened some more levels by then. An outside world goes with it, so that two
calls need not do the same.
-/

import Desh.Vars

namespace Desh

/-! ### The stacks -/

/-- A node of `rootlist`: a variable of a function, or one of the two roots of a `Push`. -/
inductive Root where
  | ref (address : Nat)
  | nameroot (depth : Nat)
  | defnroot (depth : Nat)
  deriving DecidableEq

/-- `Handler`, its label apart. `pushlist` is the number of records on the list it points to. -/
structure Handler where
  rootlist : List Root
  pushlist : Nat
  evaldepth : Nat
  deriving DecidableEq

/-- An exception, a list that is not empty. -/
structure Exception where
  term : TermRef
  next : List TermRef
  deriving DecidableEq

/-- The variables of the shell and its control stacks. `nameroots` has, for each record of
`pushlist`, the list its `nameroot` is linked to. -/
structure Control (strhash : Text → Nat) (World : Type) where
  shell : Shell strhash
  world : World
  nameroots : List (List Root)
  rootlist : List Root
  tophandler : List Handler
  evaldepth : Nat

/-- How a function of the shell ends: it returns, it calls `throw_exception`, or an assertion
fails. -/
inductive Outcome (State Value : Type) where
  | ret (value : Value) (state : State)
  | raise (e : Exception) (state : State)
  | abort
  deriving DecidableEq

/-- A level of the stacks: a `Ref`, a call of `eval`, or a record of `varpush`. -/
inductive Level where
  | ref (address : Nat)
  | eval
  | push (push : Push)
  deriving DecidableEq

namespace Control

variable {strhash : Text → Nat} {World : Type}

/-- Link a record whose `nameroot` is linked to `nameroot`. -/
def link (push : Push) (nameroot : List Root) (control : Control strhash World) :
    Control strhash World :=
  let depth := control.shell.pushlist.length
  { control with
    shell := { control.shell with pushlist := push :: control.shell.pushlist }
    nameroots := nameroot :: control.nameroots
    rootlist := .defnroot depth :: .nameroot depth :: nameroot }

/-- Open a level. -/
def enter (control : Control strhash World) : Level → Control strhash World
  | .ref address => { control with rootlist := .ref address :: control.rootlist }
  | .eval => { control with evaldepth := control.evaldepth + 1 }
  | .push push => control.link push control.rootlist

/-- Open levels, the last one of the list first. -/
def enterAll (control : Control strhash World) (levels : List Level) : Control strhash World :=
  levels.foldr (fun level control => control.enter level) control

/-- What the evaluation of a command leaves: only the control stacks are its caller's. -/
def adopt (control : Control strhash World) (shell : Shell strhash) (world : World) :
    Control strhash World :=
  { control with shell := { shell with pushlist := control.shell.pushlist }, world }

end Control

/-! ### Commands -/

/-- What the evaluation of a command comes to. -/
inductive Evaluated (strhash : Text → Nat) (World : Type) where
  | ret (list : List TermRef) (shell : Shell strhash) (world : World)
  | raise (e : Exception) (shell : Shell strhash) (world : World) (opened : List Level)

/-- How commands behave. -/
abbrev Evaluator (strhash : Text → Nat) (World : Type) :=
  List TermRef → Shell strhash → World → Evaluated strhash World

/-- `eval`, for its effect on the stacks. -/
def Evaluator.eval {strhash : Text → Nat} {World : Type} (commands : Evaluator strhash World)
    (list : List TermRef) (control : Control strhash World) :
    Outcome (Control strhash World) (List TermRef) :=
  match commands list control.shell control.world with
  | .ret list shell world => .ret list (control.adopt shell world)
  | .raise e shell world opened => .raise e ((control.adopt shell world).enterAll opened)

namespace Control

variable {strhash : Text → Nat} {World : Type}

/-- `mklist(mkstr(s), NULL)`. -/
def mkstr (s : Text) (control : Control strhash World) : TermRef × Control strhash World :=
  (control.shell.heap.terms.length,
    { control with
      shell := { control.shell with
        heap := { control.shell.heap with terms := control.shell.heap.terms ++ [.str s] } } })

/-- `fail`. -/
def fail {Value : Type} (source message : Text) (control : Control strhash World) :
    Outcome (Control strhash World) Value :=
  let (message, control) := control.mkstr message
  let (source, control) := control.mkstr source
  let (error, control) := control.mkstr (lit "error")
  .raise ⟨error, [source, message]⟩ control

/-- `validatevar`, where its caller goes on with `next`. -/
def validated {Value : Type} (name : Text) (control : Control strhash World)
    (next : Outcome (Control strhash World) Value) : Outcome (Control strhash World) Value :=
  match validatevar name with
  | .ok _ => next
  | .error (.fail source message) => control.fail source message
  | .error .assertion => .abort

/-! ### Dynamic variables -/

/-- The statement of `varpush` and `varpop` that marks the environment dirty. -/
def markDirty (control : Control strhash World) (name : Text) : Control strhash World :=
  { control with shell := control.shell.markDirty name }

/-- A settor call, of which `varpush` and `varpop` know the name and the list. -/
abbrev Settor (strhash : Text → Nat) (World : Type) :=
  Text → List TermRef → Control strhash World → Outcome (Control strhash World) (List TermRef)

/-- The node of a record's name, which `varpush` links before it calls the settor. -/
def linkName (control : Control strhash World) : Control strhash World :=
  { control with rootlist := .nameroot control.shell.pushlist.length :: control.rootlist }

/-- `varpush` from where the settor has returned `defn`. -/
def varpushEnd (name : Text) (defn : List TermRef) (nameroot : List Root)
    (control : Control strhash World) : Control strhash World :=
  { control with
    shell := control.shell.varpushEnd name defn
    nameroots := nameroot :: control.nameroots
    rootlist := .defnroot control.shell.pushlist.length :: control.rootlist }

/-- `varpush`. -/
def varpushWith (settor : Settor strhash World) (name : Text) (defn : List TermRef)
    (control : Control strhash World) : Outcome (Control strhash World) Unit :=
  control.validated name <|
    match settor name defn (control.linkName.markDirty name) with
    | .ret defn pushed => .ret () (pushed.varpushEnd name defn control.rootlist)
    | .raise e control => .raise e control
    | .abort => .abort

/-- `varpop`. -/
def varpopWith (settor : Settor strhash World) (control : Control strhash World) :
    Outcome (Control strhash World) Unit :=
  match control.shell.pushlist, control.nameroots with
  | push :: pushlist, nameroot :: nameroots =>
      if control.rootlist =
          .defnroot pushlist.length :: .nameroot pushlist.length :: nameroot then
        match settor push.name push.defn (control.markDirty push.name) with
        | .ret defn control =>
            .ret () { control with
              shell := control.shell.varpopEnd push defn
              nameroots
              rootlist := nameroot }
        | .raise e control => .raise e control
        | .abort => .abort
      else .abort
  | _, _ => .abort

/-- `varlookup2` of a name with a prefix, outside of any binding. -/
def varlookup2 (control : Control strhash World) (name1 name2 : Text) : List TermRef :=
  match control.shell.vars.get (name1 ++ name2) with
  | some var => var.defn
  | none => []

/-- `callsettor` for the name `0`, a special one. -/
def callsettorZero : Settor strhash World := fun _ defn control => .ret defn control

/-- `callsettor`. -/
def callsettor (commands : Evaluator strhash World) : Settor strhash World :=
  fun name defn control =>
    if specialvar name then .ret defn control
    else
      match control.varlookup2 (lit "set-") name with
      | [] => .ret defn control
      | settor =>
          let rootlist := control.rootlist
          let control := (control.enter (.ref 0)).enter (.ref 1)
          let (argument, control) := control.mkstr name
          match varpushWith callsettorZero (lit "0") [argument] control with
          | .ret () control =>
              match commands.eval (settor ++ defn) control with
              | .ret lp control =>
                  match varpopWith callsettorZero control with
                  | .ret () control => .ret lp { control with rootlist }
                  | .raise e control => .raise e control
                  | .abort => .abort
              | .raise e control => .raise e control
              | .abort => .abort
          | .raise e control => .raise e control
          | .abort => .abort

variable (commands : Evaluator strhash World)

/-- `varpush`. -/
def varpush (name : Text) (defn : List TermRef) (control : Control strhash World) :
    Outcome (Control strhash World) Unit :=
  varpushWith (callsettor commands) name defn control

/-- `varpop`, of the record at the head of `pushlist`. -/
def varpop (control : Control strhash World) : Outcome (Control strhash World) Unit :=
  varpopWith (callsettor commands) control

/-- `vardef` of a dynamic variable. -/
def vardef (name : Text) (defn : List TermRef) (control : Control strhash World) :
    Outcome (Control strhash World) Unit :=
  control.validated name <|
    match callsettor commands name defn control with
    | .ret defn control => .ret () { control with shell := control.shell.define name defn }
    | .raise e control => .raise e control
    | .abort => .abort

/-! ### Exceptions -/

end Control

/-- Where `throw_exception` ends: it jumps to a handler with an exception, or an assertion
fails. -/
inductive Landing (State : Type) where
  | caught (handler : Handler) (exception : Exception) (state : State)
  | abort
  deriving DecidableEq

namespace Control

variable {strhash : Text → Nat} {World : Type} (commands : Evaluator strhash World)

/-- `rootlist = &pushlist->defnroot`. -/
def toDefnroot (control : Control strhash World) : Control strhash World :=
  let depth := control.shell.pushlist.length - 1
  { control with
    rootlist := .defnroot depth :: .nameroot depth :: control.nameroots.headD [] }

/-- `throw_exception` after its loop: the roots above the handler's are given up. -/
def jump (handler : Handler) (e : Exception) (control : Control strhash World) :
    Landing (Control strhash World) :=
  if handler.rootlist <:+ control.rootlist then
    .caught handler e
      { control with rootlist := handler.rootlist, evaldepth := handler.evaldepth }
  else .abort

/-- The loop of `throw_exception`, `n` records above those of the handler. An exception that a
settor raises meanwhile goes to the handlers further up. -/
def unwind (handler : Handler)
    (up : Exception → Control strhash World → Landing (Control strhash World)) (e : Exception) :
    Nat → Control strhash World → Landing (Control strhash World)
  | 0, control => jump handler e control
  | n + 1, control =>
      match varpop commands control.toDefnroot with
      | .ret () control => unwind handler up e n control
      | .raise e control => up e control
      | .abort => .abort

/-- `throw_exception`, by recursion on the handlers that are installed. -/
def throwException :
    List Handler → Exception → Control strhash World → Landing (Control strhash World)
  | [], _, _ => .abort
  | handler :: up, e, control =>
      if control.shell.pushlist.length < handler.pushlist then .abort
      else
        unwind commands handler (throwException up) e
          (control.shell.pushlist.length - handler.pushlist) { control with tophandler := up }

/-- `throw_exception`. -/
def throw_exception (e : Exception) (control : Control strhash World) :
    Landing (Control strhash World) :=
  throwException commands control.tophandler e control

/-- The start of an `ExceptionHandler`. -/
def install (control : Control strhash World) : Control strhash World :=
  { control with
    tophandler :=
      ⟨control.rootlist, control.shell.pushlist.length, control.evaldepth⟩ :: control.tophandler }

/-- What opens a part of the stacks: a level, or an `ExceptionHandler`. -/
inductive Opener where
  | level (level : Level)
  | handler
  deriving DecidableEq

/-- Stacks that have been built up from `control`, the last opener of the list first. -/
def openAll (control : Control strhash World) (openers : List Opener) : Control strhash World :=
  openers.foldr
    (fun opener control =>
      match opener with
      | .level level => control.enter level
      | .handler => control.install)
    control

/-- A state with no handlers and no records. -/
def bottom (shell : Shell strhash) (world : World) (rootlist : List Root) (evaldepth : Nat) :
    Control strhash World :=
  ⟨{ shell with pushlist := [] }, world, [], rootlist, [], evaldepth⟩

/-- `pophandler`, of the handler that was installed when `up` was the stack. -/
def pophandler (handler : Handler) (up : List Handler) (control : Control strhash World) :
    Outcome (Control strhash World) Unit :=
  if control.tophandler = handler :: up ∧ handler.rootlist = control.rootlist then
    .ret () { control with tophandler := up }
  else .abort

end Control

end Desh
