/-
This file models the two loops that read and run commands: `%interactive-loop`
of `initial.es`, and the primitive `$&batchloop` (`prim-etc.cpp`).

The interactive loop is a `forever` inside a `catch` whose catcher throws
`retry`, inside a function that a `return` leaves. It is proved to be one loop,
in which every exception but `eof` and `exit` is reported and forgotten. On an
input of so many lines both loops are functions on these lines, by recursion:
what is typed is run once each, in order.

What the loops call is a parameter, and so is what a command does.
-/

import Desh.Flow

namespace Desh

namespace Flow

open Iteration

variable {State Closure World : Type}

/-! ### The loops -/

/-- What the loops call. `prompting` is `checkprocs` and then `%prompt`, if there is one, `assign`
the assignment to `evalstatus`, and `echo` writes to the standard error. -/
structure Console (State Closure : Type) where
  prompting : Command State Closure Unit
  parse : Command State Closure (Terms Closure)
  dispatch : Terms Closure → Command State Closure (Terms Closure)
  assign : Terms Closure → Command State Closure Unit
  echo : Terms Closure → Command State Closure Unit
  donotwait : Command State Closure Unit
  apids : Command State Closure (Terms Closure)
  sigchk : Command State Closure Unit

/-- The variables of the interactive loop: `%exit2` is one of the commands `true` and `false`. -/
structure Locals (Closure : Type) where
  result : Terms Closure
  exit2 : Bool

/-- A command has no access to the variables of the loop that calls it. -/
def aside {Own Value : Type} (command : Command State Closure Value) :
    Command (Own × State) Closure Value :=
  ExceptT.mk fun (own, state) =>
    (command.outcome state).map fun (result, after) => (result, own, after)

/-- An assignment to the variables of a loop. -/
def setting {Own : Type} (change : Own → Own) :
    Command (Own × State) Closure Unit :=
  ExceptT.mk fun (own, state) => some (.ok (), change own, state)

/-- What the variables of a loop are. -/
def getting {Own : Type} : Command (Own × State) Closure Own :=
  ExceptT.mk fun (own, state) => some (.ok own, own, state)

/-- Words. -/
def words (texts : List String) : Terms Closure := texts.map fun text => .str (lit text)

section

variable (console : Console State Closure)

/-- The command of the `forever` in `%interactive-loop`. -/
def interactiveBody : Command (Locals Closure × State) Closure Unit := do
  aside console.prompting
  let code ← aside console.parse
  if code.isEmpty then aside console.donotwait
  else
    let result ← aside (console.dispatch code)
    setting fun locals => { locals with result }
    aside (console.assign result)
    aside console.donotwait
    let pids ← aside console.apids
    setting fun locals => { locals with exit2 := istrue pids }

/-- The catcher of `%interactive-loop`, with the parameters `e`, `type` and `msg`, up to its last
command. -/
def report (e : Raised Closure) : Command (Locals Closure × State) Closure Unit := do
  let type := e.2.take 1
  let msg := e.2.drop 1
  if termeq e.1 (lit "eof") then
    aside (console.assign (words ["0"]))
    aside (console.echo (words ["EOF:", "Exiting", "..."]))
    let locals ← getting
    throw (.str (lit "return"), locals.result)
  else if termeq e.1 (lit "exit") then
    aside (console.assign (words ["0"]))
    let locals ← getting
    if locals.exit2 then
      aside (console.echo (words ["Exiting", "..."]))
      throw e
    else
      aside (console.echo (words ["You", "have", "background", "jobs."]))
      setting fun locals => { locals with exit2 := true }
  else if termeq e.1 (lit "error") then
    aside (console.assign (words ["-1"]))
    aside (console.echo msg)
    let _ ← aside (console.dispatch (words ["false"]))
  else if termeq e.1 (lit "signal") then
    if type.any fun term => ["sigtstp", "sigint", "sigterm", "sigquit"].any fun name =>
        termeq term (lit name) then pure ()
    else
      aside (console.assign (words ["-2"]))
      aside (console.echo (words ["caught", "unexpected", "signal:"] ++ type))
  else
    aside (console.assign (words ["-3"]))
    aside (console.echo (words ["uncaught", "exception:"] ++ e.1 :: e.2))

/-- The catcher: `throw retry` comes last. -/
def interactiveCatcher (e : Raised Closure) :
    Command (Locals Closure × State) Closure (Terms Closure) := do
  report console e
  throw (.str (lit "retry"), [])

/-- The `catch` of `%interactive-loop`. -/
def interactiveCatch : Command (Locals Closure × State) Closure (Terms Closure) :=
  catching (interactiveCatcher console) (primForever (fun _ => interactiveBody console) ())

/-- How a function ends that was defined with `fn`. -/
def returned : Except (Raised Closure) (Terms Closure) → Except (Raised Closure) (Terms Closure)
  | .ok result => .ok result
  | .error e => if termeq e.1 (lit "return") then .ok e.2 else .error e

/-- `fn-%interactive-loop`. -/
def fnInteractiveLoop : Command State Closure (Terms Closure) :=
  ExceptT.mk fun state =>
    ((interactiveCatch console).outcome (⟨ltrue, true⟩, state)).map fun (result, _, after) =>
      (returned result, after)

/-- A round of the loop of `$&batchloop`, given the variable `result`. -/
def batchBody : Command (Terms Closure × State) Closure Unit := do
  let cmd ← aside console.parse
  aside console.sigchk
  if cmd.isEmpty then pure ()
  else
    let result ← aside (console.dispatch cmd)
    setting fun _ => result
    aside console.sigchk

/-- What the handler of `$&batchloop` does. -/
def batchHandler (e : Raised Closure) : Command (Terms Closure × State) Closure (Terms Closure) :=
  if termeq e.1 (lit "eof") then getting else throw e

/-- The loop of `$&batchloop` and its handler. -/
def batchLoop : Command (Terms Closure × State) Closure (Terms Closure) := do
  match ← attempt (primForever (fun _ => batchBody console) ()) with
  | .ok value => pure value
  | .error e => batchHandler e

/-- `$&batchloop`. -/
def primBatchloop : Command State Closure (Terms Closure) := do
  console.sigchk
  ExceptT.mk fun state =>
    ((batchLoop console).outcome (ltrue, state)).map fun (result, _, after) => (result, after)

end

/-! ### One loop -/

/-- What becomes of an exception in the interactive loop. -/
def interactiveHandler (console : Console State Closure) (e : Raised Closure) :
    Command (Locals Closure × State) Closure (Unit ⊕ Terms Closure) := do
  match ← attempt (report console e) with
  | .ok () => pure (.inl ())
  | .error e => if termeq e.1 (lit "retry") then pure (.inl ()) else throw e

/-- A round of the interactive loop. -/
def interactiveRound (console : Console State Closure) (_ : Unit) :
    Command (Locals Closure × State) Closure (Unit ⊕ Terms Closure) := do
  match ← attempt (interactiveBody console) with
  | .ok () => pure (.inl ())
  | .error e => interactiveHandler console e

theorem outcome_interactiveHandler (console : Console State Closure) (e : Raised Closure)
    (state : Locals Closure × State) :
    (interactiveHandler console e).outcome state =
      ((report console e).outcome state).bind fun
        | (.ok (), after) => some (.ok (.inl ()), after)
        | (.error e, after) =>
          if termeq e.1 (lit "retry") then some (.ok (.inl ()), after)
          else some (.error e, after) := by
  rw [interactiveHandler, outcome_bind, outcome_attempt, Option.bind_map]
  congr 1
  funext ⟨result, after⟩
  cases result with
  | ok result => rfl
  | error e =>
    show Comp.outcome (if termeq e.1 (lit "retry") = true then _ else _) after =
      if termeq e.1 (lit "retry") = true then _ else _
    cases termeq e.1 (lit "retry") <;> rfl

/-- The catcher of the loop ends with `throw retry`, or it is left before. -/
theorem outcome_interactiveCatcher (console : Console State Closure) (e : Raised Closure)
    (state : Locals Closure × State) :
    (interactiveCatcher console e).outcome state =
      ((report console e).outcome state).map fun
        | (.ok (), after) => (.error (.str (lit "retry"), []), after)
        | (.error e, after) => (.error e, after) := by
  rw [interactiveCatcher, outcome_bind, Option.map_eq_bind]
  congr 1
  funext ⟨result, after⟩
  cases result <;> rfl

/-- A round of the `catch` is the `forever` with the handler. -/
theorem restarted_interactive (console : Console State Closure) :
    restarted (fun _ => Sum.inl <$> interactiveBody console) (interactiveHandler console) =
      catchRound (interactiveCatcher console)
        (primForever (fun _ => interactiveBody console) ()) := by
  funext u
  refine Comp.ext fun state => ?_
  rw [outcome_restarted, outcome_catchRound]
  congr 1
  funext ⟨result, after⟩
  cases result with
  | ok result => rfl
  | error e =>
    simp only [outcome_interactiveHandler, outcome_interactiveCatcher, Option.bind_map]
    congr 1
    funext ⟨result, last⟩
    cases result with
    | ok result => rfl
    | error e => rfl

/-- The interactive loop is one loop: a `forever` inside a `catch` that starts it again. -/
theorem interactiveCatch_eq (console : Console State Closure) :
    interactiveCatch console = iterate (interactiveRound console) () := by
  have rounds : handled (fun _ => Sum.inl <$> interactiveBody console)
      (interactiveHandler console) = interactiveRound console := by
    funext u
    refine Comp.ext fun state => ?_
    rw [outcome_handled, outcome_map, Option.bind_map, interactiveRound, outcome_bind,
      outcome_attempt, Option.bind_map]
    congr 1
    funext ⟨result, after⟩
    cases result <;> rfl
  rw [interactiveCatch, catching, ← restarted_interactive, iterate_attempt, rounds]

/-! ### What is typed -/

/-- What parsing gives: a command, or an exception. -/
abbrev Line (Closure : Type) := Except (Raised Closure) (Terms Closure)

/-- What the commands do in a world, where nothing the loop calls raises an exception but they. -/
structure Script (World Closure : Type) where
  prompting : World → World
  dispatch : Terms Closure → Command World Closure (Terms Closure)
  assign : Terms Closure → World → World
  echo : Terms Closure → World → World
  donotwait : World → World
  apids : World → Terms Closure

/-- A change of the world. -/
def quiet {Input : Type} (change : World → World) : Command (Input × World) Closure Unit :=
  ExceptT.mk fun (input, world) => some (.ok (), input, change world)

/-- The console where so many lines are typed. The exception behind the last one is `eof`. -/
def Script.console (script : Script World Closure) :
    Console (List (Line Closure) × World) Closure where
  prompting := quiet script.prompting
  parse := ExceptT.mk fun (lines, world) =>
    match lines with
    | [] => some (.error (.str (lit "eof"), []), [], world)
    | line :: lines => some (line, lines, world)
  dispatch code := aside (script.dispatch code)
  assign status := quiet (script.assign status)
  echo text := quiet (script.echo text)
  donotwait := quiet script.donotwait
  apids := ExceptT.mk fun (lines, world) => some (.ok (script.apids world), lines, world)
  sigchk := pure ()

/-- What becomes of the interactive loop at an exception: it goes on, or is left by another one. -/
def settle (script : Script World Closure) (e : Raised Closure) (locals : Locals Closure)
    (world : World) : Option (Except (Raised Closure) (Locals Closure) × World) :=
  let said (status text : Terms Closure) := script.echo text (script.assign status world)
  if termeq e.1 (lit "eof") then
    some (.error (.str (lit "return"), locals.result),
      said (words ["0"]) (words ["EOF:", "Exiting", "..."]))
  else if termeq e.1 (lit "exit") then
    if locals.exit2 then some (.error e, said (words ["0"]) (words ["Exiting", "..."]))
    else some (.ok { locals with exit2 := true },
      said (words ["0"]) (words ["You", "have", "background", "jobs."]))
  else if termeq e.1 (lit "error") then
    ((script.dispatch (words ["false"])).outcome (said (words ["-1"]) (e.2.drop 1))).map fun
      | (.ok _, world) => (.ok locals, world)
      | (.error e, world) =>
        (if termeq e.1 (lit "retry") then .ok locals else .error e, world)
  else if termeq e.1 (lit "signal") then
    if (e.2.take 1).any fun term => ["sigtstp", "sigint", "sigterm", "sigquit"].any fun name =>
        termeq term (lit name) then some (.ok locals, world)
    else some (.ok locals,
      said (words ["-2"]) (words ["caught", "unexpected", "signal:"] ++ e.2.take 1))
  else some (.ok locals, said (words ["-3"]) (words ["uncaught", "exception:"] ++ e.1 :: e.2))

/-- What the interactive loop does with the lines that are typed. -/
def session (script : Script World Closure) : List (Line Closure) → Locals Closure → World →
    Option (Except (Raised Closure) (Terms Closure) × List (Line Closure) × World)
  | [], locals, world =>
    some (.ok locals.result, [], script.echo (words ["EOF:", "Exiting", "..."])
      (script.assign (words ["0"]) (script.prompting world)))
  | .ok [] :: lines, locals, world =>
    session script lines locals (script.donotwait (script.prompting world))
  | .ok (word :: rest) :: lines, locals, world =>
    ((script.dispatch (word :: rest)).outcome (script.prompting world)).bind fun
      | (.ok result, world) =>
        let world := script.donotwait (script.assign result world)
        session script lines ⟨result, istrue (script.apids world)⟩ world
      | (.error e, world) =>
        (settle script e locals world).bind fun
          | (.ok locals, world) => session script lines locals world
          | (.error e, world) => some (returned (.error e), lines, world)
  | .error e :: lines, locals, world =>
    (settle script e locals (script.prompting world)).bind fun
      | (.ok locals, world) => session script lines locals world
      | (.error e, world) => some (returned (.error e), lines, world)

@[simp] theorem outcome_aside {Own Value : Type} (command : Command State Closure Value)
    (own : Own) (state : State) :
    (aside command).outcome (own, state) =
      (command.outcome state).map fun (result, after) => (result, own, after) := rfl

@[simp] theorem outcome_setting {Own : Type} (change : Own → Own) (own : Own) (state : State) :
    Comp.outcome (setting change : Command (Own × State) Closure Unit) (own, state) =
      some (.ok (), change own, state) := rfl

@[simp] theorem outcome_getting {Own : Type} (own : Own) (state : State) :
    Comp.outcome (getting : Command (Own × State) Closure Own) (own, state) =
      some (.ok own, own, state) := rfl

@[simp] theorem outcome_quiet {Input : Type} (change : World → World) (input : Input)
    (world : World) :
    Comp.outcome (quiet change : Command (Input × World) Closure Unit) (input, world) =
      some (.ok (), input, change world) := rfl

section

variable (script : Script World Closure) (lines : List (Line Closure)) (world : World)

@[simp] theorem outcome_prompting : script.console.prompting.outcome (lines, world) =
    some (.ok (), lines, script.prompting world) := rfl

@[simp] theorem outcome_dispatch (code : Terms Closure) :
    (script.console.dispatch code).outcome (lines, world) =
      ((script.dispatch code).outcome world).map fun (result, after) =>
        (result, lines, after) := rfl

@[simp] theorem outcome_assign (status : Terms Closure) :
    (script.console.assign status).outcome (lines, world) =
      some (.ok (), lines, script.assign status world) := rfl

@[simp] theorem outcome_echo (text : Terms Closure) :
    (script.console.echo text).outcome (lines, world) =
      some (.ok (), lines, script.echo text world) := rfl

@[simp] theorem outcome_donotwait : script.console.donotwait.outcome (lines, world) =
    some (.ok (), lines, script.donotwait world) := rfl

@[simp] theorem outcome_apids : script.console.apids.outcome (lines, world) =
    some (.ok (script.apids world), lines, world) := rfl

@[simp] theorem outcome_sigchk : script.console.sigchk.outcome (lines, world) =
    some (.ok (), lines, world) := rfl

@[simp] theorem outcome_parse_nil : script.console.parse.outcome ([], world) =
    some (.error (.str (lit "eof"), []), [], world) := rfl

@[simp] theorem outcome_parse_cons (line : Line Closure) :
    script.console.parse.outcome (line :: lines, world) = some (line, lines, world) := rfl

end

/-- A term is not two words. -/
theorem termeq_of_ne {term : StatusTerm Closure} {s t : Text} (eq : termeq term s = true)
    (ne : s ≠ t) : termeq term t = false := by
  cases term with
  | str text =>
    obtain rfl := eq_of_beq eq
    exact beq_eq_false_iff_ne.mpr ne
  | closure _ => rfl

/-- The handler of the loop, where nothing but a command raises an exception. -/
theorem outcome_interactiveHandler_console (script : Script World Closure) (e : Raised Closure)
    (locals : Locals Closure) (lines : List (Line Closure)) (world : World) :
    (interactiveHandler script.console e).outcome (locals, lines, world) =
      (settle script e locals world).map fun
        | (.ok locals, world) => (.ok (.inl ()), locals, lines, world)
        | (.error e, world) => (.error e, locals, lines, world) := by
  rw [outcome_interactiveHandler, report, settle]
  by_cases eof : termeq e.1 (lit "eof") = true
  · have other : termeq (.str (lit "return") : StatusTerm Closure) (lit "retry") = false := rfl
    simp [eof, outcome_bind, other]
  by_cases exit : termeq e.1 (lit "exit") = true
  · have other : termeq e.1 (lit "retry") = false := termeq_of_ne exit (by decide)
    cases exit2 : locals.exit2 with
    | true => simp [eof, exit, exit2, other, outcome_bind]
    | false => simp [eof, exit, exit2, outcome_bind]
  by_cases error : termeq e.1 (lit "error") = true
  · rcases ran : (script.dispatch (words ["false"])).outcome
      (script.echo e.2.tail (script.assign (words ["-1"]) world)) with _ | ⟨raised | result, after⟩
    · simp [eof, exit, error, outcome_bind, outcome_map, ran]
    · cases retry : termeq raised.1 (lit "retry") <;>
        simp [eof, exit, error, outcome_bind, outcome_map, ran, retry, Except.map]
    · simp [eof, exit, error, outcome_bind, outcome_map, ran, Except.map]
  by_cases signal : termeq e.1 (lit "signal") = true
  · by_cases known : ((e.2.take 1).any fun term =>
        ["sigtstp", "sigint", "sigterm", "sigquit"].any fun name => termeq term (lit name)) = true
    · simp only [eof, exit, error, signal, known]
      rfl
    · simp only [eof, exit, error, signal, known]
      rfl
  · simp [eof, exit, error, signal, outcome_bind]

theorem outcome_interactiveRound (console : Console State Closure) (u : Unit)
    (state : Locals Closure × State) :
    (interactiveRound console u).outcome state =
      ((interactiveBody console).outcome state).bind fun
        | (.ok (), after) => some (.ok (.inl ()), after)
        | (.error e, after) => (interactiveHandler console e).outcome after := by
  rw [interactiveRound, outcome_bind, outcome_attempt, Option.bind_map]
  congr 1
  funext ⟨result, after⟩
  cases result <;> rfl

/-- What comes of the interactive loop, where so many lines are left. -/
def outcomeOf (script : Script World Closure) (locals : Locals Closure)
    (lines : List (Line Closure)) (world : World) :
    Option (Except (Raised Closure) (Terms Closure) × List (Line Closure) × World) :=
  ((iterate (interactiveRound script.console) ()).outcome (locals, lines, world)).map
    fun (result, _, after) => (returned result, after)

theorem outcomeOf_ok {script : Script World Closure} {locals locals' : Locals Closure}
    {lines lines' : List (Line Closure)} {world world' : World}
    (went : (interactiveBody script.console).outcome (locals, lines, world) =
      some (.ok (), locals', lines', world')) :
    outcomeOf script locals lines world = outcomeOf script locals' lines' world' := by
  rw [outcomeOf, outcome_iterate, outcome_interactiveRound, went]
  rfl

theorem outcomeOf_error {script : Script World Closure} {locals locals' : Locals Closure}
    {lines lines' : List (Line Closure)} {world world' : World} {e : Raised Closure}
    (went : (interactiveBody script.console).outcome (locals, lines, world) =
      some (.error e, locals', lines', world')) :
    outcomeOf script locals lines world =
      (settle script e locals' world').bind fun
        | (.ok locals, world) => outcomeOf script locals lines' world
        | (.error e, world) => some (returned (.error e), lines', world) := by
  rw [outcomeOf, outcome_iterate, outcome_interactiveRound, went]
  simp only [Option.bind_some, outcome_interactiveHandler_console, Option.bind_map,
    Option.map_bind]
  congr 1
  funext came
  obtain ⟨result, after⟩ := came
  cases result <;> rfl

/-- The interactive loop on an input of so many lines is a function on the lines. -/
theorem outcomeOf_eq (script : Script World Closure) (lines : List (Line Closure))
    (locals : Locals Closure) (world : World) :
    outcomeOf script locals lines world = session script lines locals world := by
  induction lines generalizing locals world with
  | nil =>
    have went : (interactiveBody script.console).outcome (locals, [], world) =
        some (.error (.str (lit "eof"), []), locals, [], script.prompting world) := by
      simp [interactiveBody, outcome_bind]
    rw [outcomeOf_error went]
    rfl
  | cons line lines ih =>
    rcases line with e | _ | ⟨word, rest⟩
    · have went : (interactiveBody script.console).outcome (locals, .error e :: lines, world) =
          some (.error e, locals, lines, script.prompting world) := by
        simp [interactiveBody, outcome_bind]
      rw [outcomeOf_error went, session]
      simp only [ih]
    · have went : (interactiveBody script.console).outcome (locals, .ok [] :: lines, world) =
          some (.ok (), locals, lines, script.donotwait (script.prompting world)) := by
        simp [interactiveBody, outcome_bind]
      rw [outcomeOf_ok went, session, ih]
    · rw [session]
      rcases ran : (script.dispatch (word :: rest)).outcome (script.prompting world) with
        _ | ⟨e | result, after⟩
      · have went : (interactiveBody script.console).outcome
            (locals, .ok (word :: rest) :: lines, world) = none := by
          simp [interactiveBody, outcome_bind, ran]
        rw [outcomeOf, outcome_iterate, outcome_interactiveRound, went]
        rfl
      · have went : (interactiveBody script.console).outcome
            (locals, .ok (word :: rest) :: lines, world) =
              some (.error e, locals, lines, after) := by
          simp [interactiveBody, outcome_bind, ran]
        rw [outcomeOf_error went]
        simp only [ih, Option.bind_some]
      · have went : (interactiveBody script.console).outcome
            (locals, .ok (word :: rest) :: lines, world) =
              some (.ok (), ⟨result, istrue (script.apids (script.donotwait
                (script.assign result after)))⟩, lines,
                script.donotwait (script.assign result after)) := by
          simp [interactiveBody, outcome_bind, ran]
        rw [outcomeOf_ok went, ih]
        rfl

theorem outcome_fnInteractiveLoop (script : Script World Closure) (lines : List (Line Closure))
    (world : World) :
    (fnInteractiveLoop script.console).outcome (lines, world) =
      outcomeOf script ⟨ltrue, true⟩ lines world := by
  rw [outcomeOf, ← interactiveCatch_eq]
  rfl

/-- An exception that leaves the interactive loop. -/
def leaving (e : Raised Closure) : Bool := termeq e.1 (lit "eof") || termeq e.1 (lit "exit")

/-- Any other one does not, if the command `false` does not raise an exception itself. -/
theorem settle_of_not_leaving (script : Script World Closure) {e : Raised Closure}
    (stays : leaving e = false)
    (harmless : ∀ world, ∃ result after,
      (script.dispatch (words ["false"])).outcome world = some (.ok result, after))
    (locals : Locals Closure) (world : World) :
    ∃ after, settle script e locals world = some (.ok locals, after) := by
  obtain ⟨eof, exit⟩ := Bool.or_eq_false_iff.mp stays
  simp only [settle, eof, exit, Bool.false_eq_true, if_false]
  split
  · obtain ⟨result, after, ran⟩ := harmless
      (script.echo (e.2.drop 1) (script.assign (words ["-1"]) world))
    rw [ran]
    exact ⟨after, rfl⟩
  split
  · split
    · exact ⟨_, rfl⟩
    · exact ⟨_, rfl⟩
  · exact ⟨_, rfl⟩

/-- Every command raises an exception but `false`. -/
def failing : Script Nat Unit where
  prompting := id
  dispatch code := ExceptT.mk fun count =>
    if code.any fun term => termeq term (lit "false") then some (.ok lfalse, count)
    else some (.error (.str (lit "error"), code), count + 1)
  assign _ := id
  echo _ := id
  donotwait := id
  apids _ := []

/-- What `$&batchloop` does with the lines it reads. -/
def batch (script : Script World Closure) : List (Line Closure) → Terms Closure → World →
    Option (Except (Raised Closure) (Terms Closure) × List (Line Closure) × World)
  | [], result, world => some (.ok result, [], world)
  | .ok [] :: lines, result, world => batch script lines result world
  | .ok (word :: rest) :: lines, result, world =>
    ((script.dispatch (word :: rest)).outcome world).bind fun
      | (.ok result, world) => batch script lines result world
      | (.error e, world) =>
        some (if termeq e.1 (lit "eof") then .ok result else .error e, lines, world)
  | .error e :: lines, result, world =>
    some (if termeq e.1 (lit "eof") then .ok result else .error e, lines, world)

theorem outcome_batchLoop (console : Console State Closure) (state : Terms Closure × State) :
    (batchLoop console).outcome state =
      ((batchBody console).outcome state).bind fun
        | (.ok (), after) => (batchLoop console).outcome after
        | (.error e, after) => (batchHandler e).outcome after := by
  have unfolded : ∀ state, (batchLoop console).outcome state =
      ((primForever (fun _ => batchBody console) ()).outcome state).bind fun
        | (.ok value, after) => some (.ok value, after)
        | (.error e, after) => (batchHandler e).outcome after := by
    intro state
    rw [batchLoop, outcome_bind, outcome_attempt, Option.bind_map]
    congr 1
    funext ⟨result, after⟩
    cases result <;> rfl
  rw [unfolded, primForever, outcome_iterate, outcome_map, Option.bind_map, Option.bind_assoc]
  congr 1
  funext ⟨result, after⟩
  cases result with
  | ok u => exact (unfolded after).symm
  | error e => rfl

/-- The batch loop on an input of so many lines is a function on the lines. -/
theorem batchLoop_console (script : Script World Closure) (lines : List (Line Closure))
    (result : Terms Closure) (world : World) :
    ((batchLoop script.console).outcome (result, lines, world)).map
        (fun (result, _, after) => (result, after)) =
      batch script lines result world := by
  have handled : ∀ (e : Raised Closure) (result : Terms Closure) (lines : List (Line Closure))
      (world : World), ((batchHandler e).outcome (result, lines, world)).map
        (fun (result, _, after) => (result, after)) =
          some (if termeq e.1 (lit "eof") then .ok result else .error e, lines, world) := by
    intro e result lines world
    rw [batchHandler]
    cases termeq e.1 (lit "eof") <;> rfl
  induction lines generalizing result world with
  | nil =>
    have went : (batchBody script.console).outcome (result, [], world) =
        some (.error (.str (lit "eof"), []), result, [], world) := by
      simp [batchBody, outcome_bind]
    rw [outcome_batchLoop, went]
    rfl
  | cons line lines ih =>
    rcases line with e | _ | ⟨word, rest⟩
    · have went : (batchBody script.console).outcome (result, .error e :: lines, world) =
          some (.error e, result, lines, world) := by
        simp [batchBody, outcome_bind]
      rw [outcome_batchLoop, went]
      exact handled e result lines world
    · have went : (batchBody script.console).outcome (result, .ok [] :: lines, world) =
          some (.ok (), result, lines, world) := by
        simp [batchBody, outcome_bind]
      rw [outcome_batchLoop, went, batch]
      exact ih result world
    · rw [batch, outcome_batchLoop]
      rcases ran : (script.dispatch (word :: rest)).outcome world with _ | ⟨e | value, after⟩
      · have went : (batchBody script.console).outcome
            (result, .ok (word :: rest) :: lines, world) = none := by
          simp [batchBody, outcome_bind, ran]
        rw [went]
        rfl
      · have went : (batchBody script.console).outcome
            (result, .ok (word :: rest) :: lines, world) =
              some (.error e, result, lines, after) := by
          simp [batchBody, outcome_bind, ran]
        rw [went]
        exact handled e result lines after
      · have went : (batchBody script.console).outcome
            (result, .ok (word :: rest) :: lines, world) = some (.ok (), value, lines, after) := by
          simp [batchBody, outcome_bind, ran]
        rw [went]
        exact ih value after

/-- `$&batchloop` runs what it reads up to the first exception, and that ends it: an `eof` with the
value of the last command. -/
theorem primBatchloop_console (script : Script World Closure) (lines : List (Line Closure))
    (world : World) :
    (primBatchloop script.console).outcome (lines, world) = batch script lines ltrue world := by
  rw [← batchLoop_console]
  rfl

end Flow

end Desh
