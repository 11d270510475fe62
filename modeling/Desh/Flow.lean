/-
This file models the control flow of the language: the primitives `$&if`,
`$&throw`, `$&forever` and `$&catch` (`prim-ctl.c`), and the functions `%not`,
`while` and `unwind-protect` that `initial.es` builds from them.

It proves what the functions are for. A `while` is one loop, in which `break`
gives the value and `retry` starts over, although it is written as a loop inside
a handler that `$&catch` may run again. An `unwind-protect` runs its cleanup
whichever way the body ends.

What a command does is a parameter. The flag `-e`, the signals that are blocked
for a catcher and the limit on the depth of `eval` are left out.
-/

import Desh.Iteration
import Desh.Status

namespace Desh

namespace Flow

open Iteration

variable {State Closure : Type}

/-! ### The primitives -/

/-- An exception, a list that is not empty. -/
abbrev Raised (Closure : Type) := StatusTerm Closure × List (StatusTerm Closure)

/-- A list. -/
abbrev Terms (Closure : Type) := List (StatusTerm Closure)

/-- What a command or a part of one does. -/
abbrev Command (State Closure Value : Type) := Comp State (Raised Closure) Value

/-- `eval`, of a list without a binding. -/
structure Shell (State Closure : Type) where
  eval : Terms Closure → Command State Closure (Terms Closure)

/-- `ltrue` and `lfalse`. -/
def ltrue : Terms Closure := [.str (lit "0")]

def lfalse : Terms Closure := [.str (lit "1")]

/-- `termeq`. -/
def termeq : StatusTerm Closure → Text → Bool
  | .str s, t => s == t
  | .closure _, _ => false

/-- `fail`. -/
def fail {Value : Type} (source message : Text) : Command State Closure Value :=
  throw (.str (lit "error"), [.str source, .str message])

/-- `$&throw`. -/
def primThrow {Value : Type} : Terms Closure → Command State Closure Value
  | [] => fail (lit "$&throw") (lit "usage: throw exception [args ...]")
  | e :: rest => throw (e, rest)

/-- `$&if`, of commands. -/
def primIf : List (Command State Closure (Terms Closure)) → Command State Closure (Terms Closure)
  | [] => pure ltrue
  | [command] => command
  | cond :: body :: rest => do
    let cond ← cond
    if istrue cond then body else primIf rest

/-- `$&forever`, whose command may assign to a variable around it. -/
def primForever {Variable Value : Type} (body : Variable → Command State Closure Variable)
    (initial : Variable) : Command State Closure Value :=
  iterate (fun value => Sum.inl <$> body value) initial

/-- A round of the loop of `$&catch`. -/
def catchRound {Value : Type} (catcher : Raised Closure → Command State Closure Value)
    (body : Command State Closure Value) (_ : Unit) :
    Command State Closure (Unit ⊕ Value) := do
  match ← attempt body with
  | .ok result => pure (.inr result)
  | .error frombody =>
    match ← attempt (catcher frombody) with
    | .ok result => pure (.inr result)
    | .error fromcatcher =>
      if termeq fromcatcher.1 (lit "retry") then pure (.inl ()) else throw fromcatcher

/-- The loop of `$&catch`. -/
def catching {Value : Type} (catcher : Raised Closure → Command State Closure Value)
    (body : Command State Closure Value) : Command State Closure Value :=
  iterate (catchRound catcher body) ()

/-- `$&catch`. -/
def primCatch (shell : Shell State Closure) : Terms Closure → Command State Closure (Terms Closure)
  | [] => fail (lit "$&catch") (lit "usage: catch catcher body")
  | catcher :: body =>
    catching (fun frombody =>
        shell.eval (.str (lit "$&noreturn") :: catcher :: frombody.1 :: frombody.2))
      (shell.eval body)

/-! ### The functions of `initial.es` -/

/-- `fn-%not`. -/
def fnNot (cmd : Command State Closure (Terms Closure)) : Command State Closure (Terms Closure) :=
  primIf [cmd, pure lfalse, pure ltrue]

/-- The catcher of `fn-while`. A closure is not written as `break` either. -/
def whileCatcher (e : Raised Closure) : Command State Closure (Terms Closure) := do
  let _ ← primIf [fnNot (pure (if termeq e.1 (lit "break") then ltrue else lfalse)),
    primThrow (e.1 :: e.2)]
  pure e.2

/-- The command of the `forever` in `fn-while`, given the variable `result`. -/
def whileBody (cond body : Command State Closure (Terms Closure)) (result : Terms Closure) :
    Command State Closure (Terms Closure) :=
  primIf [fnNot cond, primThrow (.str (lit "break") :: result), body]

/-- `fn-while`, whose parameters are `cond` and `body`. -/
def fnWhile (shell : Shell State Closure) (args : Terms Closure) :
    Command State Closure (Terms Closure) :=
  catching whileCatcher
    (primForever (whileBody (shell.eval (args.take 1)) (shell.eval (args.drop 1))) ltrue)

/-- `fn-unwind-protect`, whose parameters are `body` and `cleanup`. The catcher gives the value
of its assignment, and the variable `exception`. -/
def fnUnwindProtect (shell : Shell State Closure) (args : Terms Closure) :
    Command State Closure (Terms Closure) := do
  let cleanup := args.drop 1
  if cleanup.length ≠ 1 then
    throw (.str (lit "error"),
      [.str (lit "unwind-protect"), .str (lit "unwind-protect body cleanup")])
  else
    let caught : StatusTerm Closure := .str (lit "caught")
    let (result, exception) ← catching
      (fun e => pure (caught :: e.1 :: e.2, caught :: e.1 :: e.2))
      (do
        let result ← shell.eval (args.take 1)
        pure (result, []))
    let _ ← shell.eval cleanup
    match exception with
    | first :: rest => if termeq first (lit "caught") then primThrow rest else pure result
    | [] => pure result

/-! ### What `while` does -/

/-- What becomes of an exception in a `while`. -/
def whileHandler (e : Raised Closure) : Command State Closure (Terms Closure ⊕ Terms Closure) :=
  if termeq e.1 (lit "break") then pure (.inr e.2)
  else if termeq e.1 (lit "retry") then pure (.inl ltrue)
  else throw e

/-- A round of a `while`, given the result so far. -/
def whileRound (cond body : Command State Closure (Terms Closure)) (result : Terms Closure) :
    Command State Closure (Terms Closure ⊕ Terms Closure) := do
  let cond ← attempt cond
  match cond with
  | .error e => whileHandler e
  | .ok cond =>
    if istrue cond then
      match ← attempt body with
      | .error e => whileHandler e
      | .ok result => pure (.inl result)
    else pure (.inr result)

/-- One loop. -/
def whileLoop (cond body : Command State Closure (Terms Closure)) :
    Command State Closure (Terms Closure) :=
  iterate (whileRound cond body) ltrue

/-- The catcher gives the value of a `break` and raises everything else again. -/
theorem whileCatcher_eq (e : Raised Closure) :
    (whileCatcher e : Command State Closure (Terms Closure)) =
      if termeq e.1 (lit "break") then pure e.2 else throw e := by
  unfold whileCatcher
  split
  · rfl
  · rfl

theorem outcome_catchRound {Value : Type} (catcher : Raised Closure → Command State Closure Value)
    (body : Command State Closure Value) (u : Unit) (state : State) :
    (catchRound catcher body u).outcome state =
      (body.outcome state).bind fun
        | (.ok result, after) => some (.ok (.inr result), after)
        | (.error frombody, after) =>
          ((catcher frombody).outcome after).bind fun
            | (.ok result, last) => some (.ok (.inr result), last)
            | (.error fromcatcher, last) =>
              if termeq fromcatcher.1 (lit "retry") then some (.ok (.inl ()), last)
              else some (.error fromcatcher, last) := by
  rw [catchRound, outcome_bind, outcome_attempt, Option.bind_map]
  congr 1
  funext ⟨result, after⟩
  cases result with
  | ok result => rfl
  | error frombody =>
    show Comp.outcome (attempt (catcher frombody) >>= _) after = _
    rw [outcome_bind, outcome_attempt, Option.bind_map]
    congr 1
    funext ⟨result, last⟩
    cases result with
    | ok result => rfl
    | error fromcatcher =>
      show Comp.outcome (if termeq fromcatcher.1 (lit "retry") = true then _ else _) last =
        if termeq fromcatcher.1 (lit "retry") = true then _ else _
      cases termeq fromcatcher.1 (lit "retry") <;> rfl

theorem outcome_whileHandler (e : Raised Closure) (state : State) :
    Comp.outcome (whileHandler e) state =
      if termeq e.1 (lit "break") then some (.ok (.inr e.2), state)
      else if termeq e.1 (lit "retry") then some (.ok (.inl ltrue), state)
      else some (.error e, state) := by
  unfold whileHandler
  split
  · rfl
  split
  · rfl
  · rfl

theorem outcome_map {Value Result : Type} (f : Value → Result)
    (command : Command State Closure Value) (state : State) :
    (f <$> command).outcome state =
      (command.outcome state).map fun (result, after) => (result.map f, after) := by
  rw [map_eq_pure_bind, outcome_bind, Option.map_eq_bind]
  congr 1
  funext ⟨result, after⟩
  cases result <;> rfl

/-- A round of `$&catch` with this catcher is the `forever` with the handler. -/
theorem catchRound_while (inner : Terms Closure → Command State Closure
      (Terms Closure ⊕ Terms Closure)) (u : Unit) :
    restarted inner whileHandler ltrue =
      Sum.map (fun _ => ltrue) id <$> catchRound whileCatcher (iterate inner ltrue) u := by
  refine Comp.ext fun state => ?_
  rw [outcome_restarted, outcome_map, outcome_catchRound, Option.map_bind]
  congr 1
  funext ⟨result, after⟩
  cases result with
  | ok result => rfl
  | error e =>
    simp only [outcome_whileHandler, whileCatcher_eq, Function.comp]
    split
    · rfl
    · rw [outcome_throw]
      simp only [Option.bind_some]
      split <;> rfl

/-- What the command of the `forever` does. -/
theorem outcome_whileBody (cond body : Command State Closure (Terms Closure))
    (result : Terms Closure) (state : State) :
    (whileBody cond body result).outcome state =
      (cond.outcome state).bind fun
        | (.ok cond, after) =>
          if istrue cond then body.outcome after
          else some (.error (.str (lit "break"), result), after)
        | (.error e, after) => some (.error e, after) := by
  have negated : (fnNot cond).outcome state =
      (cond.outcome state).map fun (result, after) =>
        (result.map fun cond => if istrue cond then lfalse else ltrue, after) := by
    rw [fnNot, primIf, outcome_bind, Option.map_eq_bind]
    congr 1
    funext ⟨result, after⟩
    cases result with
    | error e => rfl
    | ok cond =>
      show Comp.outcome (if istrue cond = true then _ else _) after =
        some (.ok (if istrue cond = true then _ else _), after)
      cases istrue cond <;> rfl
  rw [whileBody, primIf, outcome_bind, negated, Option.bind_map]
  congr 1
  funext ⟨result', after⟩
  cases result' with
  | error e => rfl
  | ok cond =>
    show Comp.outcome
      (if istrue (if istrue cond = true then lfalse else ltrue) = true then _ else _) after =
        if istrue cond = true then _ else _
    cases istrue cond <;> rfl

/-- A round of the `forever` with the handler around it. -/
theorem handled_while (cond body : Command State Closure (Terms Closure)) :
    handled (fun result => Sum.inl <$> whileBody cond body result) whileHandler =
      whileRound cond body := by
  funext result
  refine Comp.ext fun state => ?_
  rw [outcome_handled, outcome_map, outcome_whileBody, Option.bind_map, whileRound, outcome_bind,
    outcome_attempt, Option.bind_map, Option.bind_assoc]
  congr 1
  funext ⟨value, after⟩
  cases value with
  | error e => rfl
  | ok value =>
    show Option.bind (if istrue value = true then _ else _) _ =
      Comp.outcome (if istrue value = true then _ else _) after
    cases istrue value with
    | false => rfl
    | true =>
      show Option.bind (body.outcome after) _ = Comp.outcome (attempt body >>= _) after
      rw [outcome_bind, outcome_attempt, Option.bind_map]
      congr 1
      funext ⟨result, last⟩
      cases result <;> rfl

/-- A `while` is one loop: a `break` in the condition or in the body gives its value, and a `retry`
that reaches the `while` starts over. -/
theorem fnWhile_eq (shell : Shell State Closure) (args : Terms Closure) :
    fnWhile shell args = whileLoop (shell.eval (args.take 1)) (shell.eval (args.drop 1)) := by
  rw [whileLoop, ← handled_while, ← iterate_attempt]
  exact (iterate_map (fun _ => ltrue) (catchRound_while _) ()).symm

/-! ### The rule of `while` -/

/-- What has to hold where an exception comes out of the condition or the body of a `while`. -/
def Leaves (post : Terms Closure → State → Prop) (invariant : Terms Closure → State → Prop)
    (raised : Raised Closure → State → Prop) (e : Raised Closure) (state : State) : Prop :=
  if termeq e.1 (lit "break") then post e.2 state
  else if termeq e.1 (lit "retry") then invariant ltrue state
  else raised e state

/-- What a round leaves: the invariant for the next one, or the value of the loop. -/
def Turns (post : Terms Closure → State → Prop) (invariant : Terms Closure → State → Prop) :
    Terms Closure ⊕ Terms Closure → State → Prop
  | .inl result, state => invariant result state
  | .inr value, state => post value state

section

variable {cond body : Command State Closure (Terms Closure)} {pre ready : State → Prop}
  {invariant post : Terms Closure → State → Prop} {raised : Raised Closure → State → Prop}
  {result : Terms Closure}

theorem whileHandler_meets (e : Raised Closure) :
    Meets (Leaves post invariant raised e) (whileHandler e) (Turns post invariant) raised := by
  unfold whileHandler Leaves
  split
  · exact meets_pure _ fun _ => id
  split
  · exact meets_pure _ fun _ => id
  · exact meets_throw _ fun _ => id

theorem whileHandler_ends (e : Raised Closure) : Ends pre (whileHandler e) := by
  unfold whileHandler
  split
  · exact ends_pure _
  split
  · exact ends_pure _
  · exact ends_throw _

theorem whileRound_meets
    (condMeets : Meets pre cond
      (fun cond state => if istrue cond then ready state else post result state)
      (Leaves post invariant raised))
    (bodyMeets : Meets ready body invariant (Leaves post invariant raised)) :
    Meets pre (whileRound cond body result) (Turns post invariant) raised := by
  refine condMeets.attempt.bind fun cond => ?_
  cases cond with
  | error e => exact whileHandler_meets e
  | ok cond =>
    show Meets (fun state => if istrue cond = true then ready state else post result state)
      (if istrue cond = true then _ else _) _ _
    cases istrue cond with
    | false => exact meets_pure _ fun _ => id
    | true =>
      refine bodyMeets.attempt.bind fun result => ?_
      cases result with
      | error e => exact whileHandler_meets e
      | ok result => exact meets_pure _ fun _ => id

theorem whileRound_ends
    (condMeets : Meets pre cond
      (fun cond state => if istrue cond then ready state else post result state)
      (Leaves post invariant raised))
    (bodyMeets : Meets ready body invariant (Leaves post invariant raised))
    (condEnds : Ends pre cond) (bodyEnds : Ends ready body) :
    Ends pre (whileRound cond body result) := by
  refine condEnds.attempt.bind (@Meets.attempt _ _ _ _ _ _ cond _ raised condMeets) fun cond => ?_
  cases cond with
  | error e => exact whileHandler_ends e
  | ok cond =>
    show Ends (fun state => if istrue cond = true then ready state else post result state)
      (if istrue cond = true then _ else _)
    cases istrue cond with
    | false => exact ends_pure _
    | true =>
      refine bodyEnds.attempt.bind (@Meets.attempt _ _ _ _ _ _ body _ raised bodyMeets)
        fun result => ?_
      cases result with
      | error e => exact whileHandler_ends e
      | ok result => exact ends_pure _

end

/-- A state counts down. -/
def countdown : Shell Nat Unit where
  eval
    | [.str s] =>
      if s = lit "cond" then
        ExceptT.mk fun state => some (.ok (if state = 0 then lfalse else ltrue), state)
      else ExceptT.mk fun state => some (.ok ltrue, state - 1)
    | _ => pure ltrue

/-- A `$&catch` whose catcher only gives a value. -/
theorem catching_of_pure {Value : Type} (value : Raised Closure → Value)
    (body : Command State Closure Value) :
    catching (fun e => pure (value e)) body = (do
      match ← attempt body with
      | .ok result => pure result
      | .error e => pure (value e)) := by
  refine Comp.ext fun state => ?_
  rw [catching, outcome_iterate, outcome_catchRound, outcome_bind, outcome_attempt,
    Option.bind_map, Option.bind_assoc]
  congr 1
  funext ⟨result, after⟩
  cases result <;> rfl

/-- An `unwind-protect` runs its cleanup once, whichever way the body ends, and then ends as the
body did, unless the cleanup itself raises an exception. -/
theorem fnUnwindProtect_eq (shell : Shell State Closure) (body cleanup : StatusTerm Closure) :
    fnUnwindProtect shell [body, cleanup] = (do
      let result ← attempt (shell.eval [body])
      let _ ← shell.eval [cleanup]
      match result with
      | .ok result => pure result
      | .error e => throw e) := by
  refine Comp.ext fun state => ?_
  rw [fnUnwindProtect]
  simp only [List.take_succ_cons, List.take_zero, List.drop_succ_cons, List.drop_zero,
    List.length_singleton, ne_eq, not_true_eq_false, if_false, catching_of_pure]
  rw [outcome_bind, outcome_bind, outcome_bind, outcome_attempt, outcome_attempt, outcome_bind,
    Option.bind_map, Option.bind_map, Option.bind_assoc, Option.bind_assoc]
  congr 1
  funext ⟨result, after⟩
  cases result with
  | ok result => rfl
  | error e => rfl

end Flow

end Desh
