/-
This file models `$&whatis` (`prim-etc.cpp`), whose logic is that of the loop of
`eval` over again, and proves that the two agree: what a name is said to be is
what a command with that name is run as, arguments added, and where one of them
fails so does the other.
-/

import Desh.Eval

namespace Desh

namespace Services

variable {State Term Binding Exception : Type}

/-- `$&whatis`. -/
def primWhatis (services : Services State Term Binding Exception) (list : List Term)
    (binding : List Binding) : EStateM Exception State (List Term) :=
  match list with
  | [term] => do
      match ← services.getclosure term with
      | some _ => pure [term]
      | none => do
          let prog ← observing (services.getstr term)
          let fn ← services.varlookup2 (lit "fn-") prog binding
          if !fn.isEmpty then pure fn
          else if services.isabsolute prog then
            match ← services.checkexecutable prog with
            | some error => throw (services.fail (lit "$&whatis") (prog ++ lit ": " ++ error))
            | none => pure [term]
          else services.pathsearch term
  | _ => throw (services.fail (lit "$&whatis") (lit "usage: $&whatis program"))

/-! ### What a command is run as -/

/-- What becomes of a command in a round of `eval` if its head is said to be `words`: it is the name
of a program, or the path of one is found for it, or the words take the place of the head. A found
word may yet fail to be read. -/
inductive RunsAs (services : Services State Term Binding Exception) (term : Term)
    (next words : List Term) (state : State) :
    EStateM.Result Exception State (Round Term Binding) → Prop
  | program (name : Text) (same : words = [term]) (absolute : services.isabsolute name = true) :
      RunsAs services term next words state (.ok (.invoke (.program name)) state)
  | found {word : Term} {made : State} (same : words = [word])
      (plain : services.getclosure word state = .ok none made) :
      RunsAs services term next words state
        (.ok (.invoke (.program (services.getstr word made))) made)
  | replaced (funcname : Option Text) {made : State}
      (kept : made = state ∨ ∃ word closure, words = [word] ∧
        services.getclosure word state = .ok (some closure) made) :
      RunsAs services term next words state (.ok (.restart words (words ++ next) funcname) made)
  | unread {word : Term} {e : Exception} {made : State} (same : words = [word])
      (raised : services.getclosure word state = .error e made) :
      RunsAs services term next words state (.error e made)

section

variable {services : Services State Term Binding Exception} {binding : List Binding} {term : Term}
  {next : List Term} {funcname : Option Text} {state made : State}

theorem bind_of_error {α β : Type} {first : EStateM Exception State α}
    {second : α → EStateM Exception State β} {e : Exception} {later : State}
    (raised : first state = .error e later) : (first >>= second) state = .error e later := by
  change EStateM.bind first second state = _
  unfold EStateM.bind
  rw [raised]

/-- What is found is run, or takes the place of the head. -/
theorem searched_runsAs (words : List Term) :
    services.RunsAs term next words state (services.searched words next funcname state) := by
  unfold searched
  split
  next word =>
    rcases read : services.getclosure word state with ⟨_ | closure, made⟩ | ⟨e, made⟩
    · rw [bind_of_ok read]
      exact .found rfl read
    · rw [bind_of_ok read]
      exact .replaced funcname (.inr ⟨word, closure, rfl, read⟩)
    · rw [bind_of_error read]
      exact .unread rfl read
  next => exact .replaced funcname (.inl rfl)

/-- `$&whatis` and `eval` agree on what is not a closure. -/
theorem whatis_name (name : services.getclosure term state = .ok none made) :
    match services.primWhatis [term] binding state with
    | .error e after => services.round binding (term :: next) funcname state = .error e after
    | .ok words after => services.RunsAs term next words after
        (services.round binding (term :: next) funcname state) := by
  rw [primWhatis, round, bind_of_ok name, bind_of_ok name]
  simp only [callName]
  have read : ∀ {Value : Type} (go : Text → EStateM Exception State Value),
      (observing (services.getstr term) >>= go) made = go (services.getstr term made) made :=
    fun go => bind_of_ok rfl
  rw [read, read]
  rcases looked : services.varlookup2 (lit "fn-") (services.getstr term made) binding made with
    ⟨fn, found⟩ | ⟨e, found⟩
  · rw [bind_of_ok looked, bind_of_ok looked]
    cases empty : fn.isEmpty with
    | false => exact .replaced _ (.inl rfl)
    | true =>
      cases absolute : services.isabsolute (services.getstr term made) with
      | true =>
        simp only [Bool.not_true, Bool.false_eq_true, if_false, if_true]
        rcases checked : services.checkexecutable (services.getstr term made) found with
          ⟨error | error, later⟩ | ⟨e, later⟩
        · rw [bind_of_ok checked, bind_of_ok checked]
          exact .program _ rfl absolute
        · rw [bind_of_ok checked, bind_of_ok checked]
          rfl
        · rw [bind_of_error checked, bind_of_error checked]
      | false =>
        simp only [Bool.not_true, Bool.false_eq_true, if_false]
        rcases searched : services.pathsearch term found with ⟨words, later⟩ | ⟨e, later⟩
        · rw [bind_of_ok searched]
          exact searched_runsAs words
        · rw [bind_of_error searched]
  · rw [bind_of_error looked, bind_of_error looked]

end

end Services

end Desh
