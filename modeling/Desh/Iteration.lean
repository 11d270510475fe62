/-
This file has loops over computations with a state and exceptions, which may not
end. A loop is described by its rounds, one after another (`iterate_eq_some_iff`),
and everything else follows from that: a loop inside a handler that may start it
again is one loop (`iterate_attempt`), and a loop keeps an invariant and ends if
its rounds do (`Meets.iterate`, `Ends.iterate`).
-/

import Mathlib.Tactic

namespace Desh

namespace Iteration

variable {State Exception Other Seed Value Result : Type}

/-! ### Computations -/

/-- A computation with a state and exceptions. It may not end. -/
abbrev Comp (State Exception Value : Type) := ExceptT Exception (StateT State Option) Value

/-- What comes out of a computation in a state, if it ends. -/
def Comp.outcome (comp : Comp State Exception Value) (state : State) :
    Option (Except Exception Value × State) := comp state

theorem Comp.ext {comp other : Comp State Exception Value}
    (same : ∀ state, comp.outcome state = other.outcome state) : comp = other := funext same

theorem Comp.ext_some {comp other : Comp State Exception Value}
    (same : ∀ state outcome,
      comp.outcome state = some outcome ↔ other.outcome state = some outcome) : comp = other :=
  Comp.ext fun state => Option.ext fun outcome => same state outcome

@[simp] theorem outcome_pure (value : Value) (state : State) :
    Comp.outcome (pure value : Comp State Exception Value) state = some (.ok value, state) := rfl

@[simp] theorem outcome_throw (exception : Exception) (state : State) :
    Comp.outcome (throw exception : Comp State Exception Value) state =
      some (.error exception, state) := rfl

/-- A computation and what goes on with its value. -/
theorem outcome_bind (comp : Comp State Exception Value)
    (next : Value → Comp State Exception Result) (state : State) :
    Comp.outcome (comp >>= next) state =
      (comp.outcome state).bind fun
        | (.ok value, after) => (next value).outcome after
        | (.error exception, after) => some (.error exception, after) := by
  show Option.bind (comp state) _ = Option.bind (comp state) _
  congr 1
  funext ⟨result, after⟩
  cases result <;> rfl

/-- The outcome as a value: a handler around a computation. -/
def attempt (comp : Comp State Exception Value) : Comp State Other (Except Exception Value) :=
  ExceptT.mk fun state => (comp.outcome state).map fun (result, after) => (.ok result, after)

@[simp] theorem outcome_attempt (comp : Comp State Exception Value) (state : State) :
    Comp.outcome (attempt comp : Comp State Other (Except Exception Value)) state =
      (comp.outcome state).map fun (result, after) => (.ok result, after) := rfl

/-! ### Loops -/

/-- Rounds, one after another, until one gives a value, from a state. -/
def iterateFrom (round : Seed → Comp State Exception (Seed ⊕ Value)) (seed : Seed)
    (state : State) : Option (Except Exception Value × State) := do
  match ← (round seed).outcome state with
  -- `apply` leaves the place of the call in the file out of the equations of the fixed point.
  | (.ok (.inl next), after) => by apply iterateFrom; exacts [round, next, after]
  | (.ok (.inr value), after) => some (.ok value, after)
  | (.error exception, after) => some (.error exception, after)
partial_fixpoint

/-- A loop. -/
def iterate (round : Seed → Comp State Exception (Seed ⊕ Value)) (seed : Seed) :
    Comp State Exception Value :=
  ExceptT.mk (iterateFrom round seed)

/-- What a loop comes to, from a seed in a state. -/
inductive Iterates (round : Seed → Comp State Exception (Seed ⊕ Value)) :
    Seed → State → Except Exception Value × State → Prop
  | again {seed next : Seed} {state after : State} {outcome : Except Exception Value × State}
      (went : (round seed).outcome state = some (.ok (.inl next), after))
      (rest : Iterates round next after outcome) : Iterates round seed state outcome
  | done {seed : Seed} {value : Value} {state after : State}
      (went : (round seed).outcome state = some (.ok (.inr value), after)) :
      Iterates round seed state (.ok value, after)
  | raised {seed : Seed} {exception : Exception} {state after : State}
      (went : (round seed).outcome state = some (.error exception, after)) :
      Iterates round seed state (.error exception, after)

/-- A loop is a round and what is left of it. -/
theorem outcome_iterate (round : Seed → Comp State Exception (Seed ⊕ Value)) (seed : Seed)
    (state : State) :
    (iterate round seed).outcome state =
      ((round seed).outcome state).bind fun
        | (.ok (.inl next), after) => (iterate round next).outcome after
        | (.ok (.inr value), after) => some (.ok value, after)
        | (.error exception, after) => some (.error exception, after) := by
  show iterateFrom round seed state = _
  rw [iterateFrom]
  rfl

theorem Iterates.outcome {round : Seed → Comp State Exception (Seed ⊕ Value)} {seed : Seed}
    {state : State} {outcome : Except Exception Value × State}
    (iterates : Iterates round seed state outcome) :
    (iterate round seed).outcome state = some outcome := by
  induction iterates with
  | again went _ ih => rw [outcome_iterate, went]; exact ih
  | done went => rw [outcome_iterate, went]; rfl
  | raised went => rw [outcome_iterate, went]; rfl

theorem iterates_of_outcome {round : Seed → Comp State Exception (Seed ⊕ Value)} {seed : Seed}
    {state : State} {outcome : Except Exception Value × State}
    (ends : (iterate round seed).outcome state = some outcome) :
    Iterates round seed state outcome := by
  refine iterateFrom.partial_correctness round (Iterates round) ?_ seed state outcome ends
  intro loop ih seed state outcome ends
  obtain ⟨⟨result, after⟩, went, rest⟩ := Option.bind_eq_some_iff.mp ends
  rcases result with exception | next | value
  · cases rest
    exact .raised went
  · exact .again went (ih next after outcome rest)
  · cases rest
    exact .done went

theorem iterate_eq_some_iff {round : Seed → Comp State Exception (Seed ⊕ Value)} {seed : Seed}
    {state : State} {outcome : Except Exception Value × State} :
    (iterate round seed).outcome state = some outcome ↔ Iterates round seed state outcome :=
  ⟨iterates_of_outcome, Iterates.outcome⟩

/-- What a loop comes to once a round has ended in some way. -/
def Proceeds (round : Seed → Comp State Exception (Seed ⊕ Value))
    (outcome : Except Exception Value × State) : Except Exception (Seed ⊕ Value) × State → Prop
  | (.ok (.inl next), after) => Iterates round next after outcome
  | (.ok (.inr value), after) => outcome = (.ok value, after)
  | (.error exception, after) => outcome = (.error exception, after)

theorem iterates_iff {round : Seed → Comp State Exception (Seed ⊕ Value)} {seed : Seed}
    {state : State} {outcome : Except Exception Value × State} :
    Iterates round seed state outcome ↔
      ∃ went, (round seed).outcome state = some went ∧ Proceeds round outcome went := by
  constructor
  · intro iterates
    cases iterates with
    | again went rest => exact ⟨_, went, rest⟩
    | done went => exact ⟨_, went, rfl⟩
    | raised went => exact ⟨_, went, rfl⟩
  · rintro ⟨⟨result, after⟩, went, rest⟩
    rcases result with exception | next | value
    · obtain rfl := rest
      exact .raised went
    · exact .again went rest
    · obtain rfl := rest
      exact .done went

/-- Two loops are the same if the rounds of one are the rounds of the other, seeds renamed. -/
theorem iterate_map {Seed' : Type} {round : Seed → Comp State Exception (Seed ⊕ Value)}
    {round' : Seed' → Comp State Exception (Seed' ⊕ Value)} (rename : Seed' → Seed)
    (same : ∀ seed, round (rename seed) = Sum.map rename id <$> round' seed) (seed : Seed') :
    iterate round (rename seed) = iterate round' seed := by
  have rounds : ∀ seed state, (round (rename seed)).outcome state =
      ((round' seed).outcome state).map fun (result, after) =>
        (result.map (Sum.map rename id), after) := by
    intro seed state
    rw [same, map_eq_pure_bind, outcome_bind, Option.map_eq_bind]
    congr 1
    funext ⟨result, after⟩
    cases result <;> rfl
  refine Comp.ext_some fun state outcome => ?_
  rw [iterate_eq_some_iff, iterate_eq_some_iff]
  constructor
  · intro iterates
    generalize eq : rename seed = renamed at iterates
    induction iterates generalizing seed with
    | again went rest ih =>
      subst eq
      rw [rounds] at went
      obtain ⟨⟨result, after⟩, inner, went⟩ := Option.map_eq_some_iff.mp went
      rcases result with exception | next | value
      · cases went
      · cases went
        exact .again inner (ih next rfl)
      · cases went
    | done went =>
      subst eq
      rw [rounds] at went
      obtain ⟨⟨result, after⟩, inner, went⟩ := Option.map_eq_some_iff.mp went
      rcases result with exception | next | value
      · cases went
      · cases went
      · cases went
        exact .done inner
    | raised went =>
      subst eq
      rw [rounds] at went
      obtain ⟨⟨result, after⟩, inner, went⟩ := Option.map_eq_some_iff.mp went
      rcases result with exception | next | value
      · cases went
        exact .raised inner
      · cases went
      · cases went
  · intro iterates
    induction iterates with
    | again went _ ih =>
      refine .again ?_ ih
      rw [rounds, went]
      rfl
    | done went =>
      refine .done ?_
      rw [rounds, went]
      rfl
    | raised went =>
      refine .raised ?_
      rw [rounds, went]
      rfl

/-! ### A loop inside a handler -/

/-- A round of a loop whose handler may start it again. -/
def handled (round : Seed → Comp State Exception (Seed ⊕ Value))
    (handler : Exception → Comp State Other (Seed ⊕ Value)) (seed : Seed) :
    Comp State Other (Seed ⊕ Value) := do
  match ← attempt (round seed) with
  | .ok next => pure next
  | .error exception => handler exception

/-- A whole loop, with a handler that may start it again. -/
def restarted (round : Seed → Comp State Exception (Seed ⊕ Value))
    (handler : Exception → Comp State Other (Seed ⊕ Value)) (seed : Seed) :
    Comp State Other (Seed ⊕ Value) := do
  match ← attempt (iterate round seed) with
  | .ok value => pure (.inr value)
  | .error exception => handler exception

theorem outcome_handled (round : Seed → Comp State Exception (Seed ⊕ Value))
    (handler : Exception → Comp State Other (Seed ⊕ Value)) (seed : Seed) (state : State) :
    (handled round handler seed).outcome state =
      ((round seed).outcome state).bind fun
        | (.ok next, after) => some (.ok next, after)
        | (.error exception, after) => (handler exception).outcome after := by
  rw [handled, outcome_bind, outcome_attempt, Option.bind_map]
  congr 1
  funext ⟨result, after⟩
  cases result <;> rfl

theorem outcome_restarted (round : Seed → Comp State Exception (Seed ⊕ Value))
    (handler : Exception → Comp State Other (Seed ⊕ Value)) (seed : Seed) (state : State) :
    (restarted round handler seed).outcome state =
      ((iterate round seed).outcome state).bind fun
        | (.ok value, after) => some (.ok (.inr value), after)
        | (.error exception, after) => (handler exception).outcome after := by
  rw [restarted, outcome_bind, outcome_attempt, Option.bind_map]
  congr 1
  funext ⟨result, after⟩
  cases result <;> rfl

section

variable {round : Seed → Comp State Exception (Seed ⊕ Value)}
  {handler : Exception → Comp State Other (Seed ⊕ Value)}

/-- The rounds of an inner loop that comes to a value are rounds of the one loop. -/
theorem iterates_handled_of_ok {seed : Seed} {state after : State} {value : Value}
    (iterates : Iterates round seed state (.ok value, after)) :
    Iterates (handled round handler) seed state (.ok value, after) := by
  generalize ends : (Except.ok value, after) = inner at iterates
  induction iterates with
  | again went _ ih =>
    refine .again ?_ (ih ends)
    rw [outcome_handled, went]
    rfl
  | done went =>
    cases ends
    refine .done ?_
    rw [outcome_handled, went]
    rfl
  | raised went => cases ends

/-- So are those of one that is left by an exception, and then the handler has its say. -/
theorem iterates_handled_of_error {seed : Seed} {state after : State} {exception : Exception}
    (iterates : Iterates round seed state (.error exception, after))
    {caught : Except Other (Seed ⊕ Value) × State}
    (handles : (handler exception).outcome after = some caught)
    {outcome : Except Other Value × State}
    (rest : Proceeds (handled round handler) outcome caught) :
    Iterates (handled round handler) seed state outcome := by
  generalize ends : (Except.error exception, after) = inner at iterates
  induction iterates with
  | again went _ ih =>
    refine .again ?_ (ih ends)
    rw [outcome_handled, went]
    rfl
  | done went => cases ends
  | raised went =>
    cases ends
    refine iterates_iff.mpr ⟨caught, ?_, rest⟩
    rw [outcome_handled, went]
    exact handles

/-- A round that goes on belongs to the inner loop. -/
theorem outcome_restarted_next {seed next : Seed} {state after : State}
    (went : (round seed).outcome state = some (.ok (.inl next), after)) :
    (restarted round handler seed).outcome state =
      (restarted round handler next).outcome after := by
  rw [outcome_restarted, outcome_restarted, outcome_iterate, went]
  rfl

/-- A value of a round is that of the inner loop. -/
theorem outcome_restarted_value {seed : Seed} {value : Value} {state after : State}
    (went : (round seed).outcome state = some (.ok (.inr value), after)) :
    (restarted round handler seed).outcome state = some (.ok (.inr value), after) := by
  rw [outcome_restarted, outcome_iterate, went]
  rfl

/-- An exception of a round goes to the handler. -/
theorem outcome_restarted_error {seed : Seed} {state after : State} {exception : Exception}
    (went : (round seed).outcome state = some (.error exception, after)) :
    (restarted round handler seed).outcome state = (handler exception).outcome after := by
  rw [outcome_restarted, outcome_iterate, went]
  rfl

end

/-- A loop inside a handler that may start it again is one loop, whose rounds have the handler
around them. -/
theorem iterate_attempt (round : Seed → Comp State Exception (Seed ⊕ Value))
    (handler : Exception → Comp State Other (Seed ⊕ Value)) (seed : Seed) :
    iterate (restarted round handler) seed = iterate (handled round handler) seed := by
  refine Comp.ext_some fun state outcome => ?_
  rw [iterate_eq_some_iff, iterate_eq_some_iff]
  -- a restart is a round of the outer loop on one side, and a round like the others on the other
  have step : ∀ {seed : Seed} {state : State} {caught : Except Other (Seed ⊕ Value) × State},
      (restarted round handler seed).outcome state = some caught →
      Proceeds (handled round handler) outcome caught →
      Iterates (handled round handler) seed state outcome := by
    intro seed state caught went rest
    rw [outcome_restarted] at went
    obtain ⟨⟨result, mid⟩, inner, went⟩ := Option.bind_eq_some_iff.mp went
    have iterates := iterate_eq_some_iff.mp inner
    cases result with
    | ok value =>
      cases went
      obtain rfl := rest
      exact iterates_handled_of_ok iterates
    | error exception => exact iterates_handled_of_error iterates went rest
  constructor
  · intro iterates
    induction iterates with
    | again went _ ih => exact step went (ih @step)
    | done went => exact step went rfl
    | raised went => exact step went rfl
  · intro iterates
    induction iterates with
    | again went _ ih =>
      rw [outcome_handled] at went
      obtain ⟨⟨result, mid⟩, inner, went⟩ := Option.bind_eq_some_iff.mp went
      cases result with
      | ok next =>
        cases went
        obtain ⟨caught, rest, left⟩ := iterates_iff.mp (ih step)
        exact iterates_iff.mpr ⟨caught, (outcome_restarted_next inner).trans rest, left⟩
      | error exception => exact .again ((outcome_restarted_error inner).trans went) (ih step)
    | done went =>
      rw [outcome_handled] at went
      obtain ⟨⟨result, mid⟩, inner, went⟩ := Option.bind_eq_some_iff.mp went
      cases result with
      | ok next =>
        cases went
        exact .done (outcome_restarted_value inner)
      | error exception => exact .done ((outcome_restarted_error inner).trans went)
    | raised went =>
      rw [outcome_handled] at went
      obtain ⟨⟨result, mid⟩, inner, went⟩ := Option.bind_eq_some_iff.mp went
      cases result with
      | ok next => cases went
      | error exception => exact .raised ((outcome_restarted_error inner).trans went)

/-! ### What is required and what is ensured -/

/-- If the computation ends from a state where `pre` holds, then with a value and `post`, or with an
exception and `raised`. -/
def Meets (pre : State → Prop) (comp : Comp State Exception Value) (post : Value → State → Prop)
    (raised : Exception → State → Prop) : Prop :=
  ∀ state, pre state → ∀ result after, comp.outcome state = some (result, after) →
    match result with
    | .ok value => post value after
    | .error exception => raised exception after

/-- The computation ends from every state where `pre` holds. -/
def Ends (pre : State → Prop) (comp : Comp State Exception Value) : Prop :=
  ∀ state, pre state → (comp.outcome state).isSome

variable {pre : State → Prop} {raised : Exception → State → Prop}

theorem Meets.mono {comp : Comp State Exception Value} {post post' : Value → State → Prop}
    {raised' : Exception → State → Prop} {pre' : State → Prop} (meets : Meets pre comp post raised)
    (stronger : ∀ state, pre' state → pre state)
    (weaker : ∀ value state, post value state → post' value state)
    (weakerRaised : ∀ exception state, raised exception state → raised' exception state) :
    Meets pre' comp post' raised' := by
  intro state holds result after ends
  have met := meets state (stronger state holds) result after ends
  cases result with
  | ok value => exact weaker value after met
  | error exception => exact weakerRaised exception after met

theorem meets_pure {post : Value → State → Prop} (value : Value)
    (holds : ∀ state, pre state → post value state) :
    Meets pre (pure value : Comp State Exception Value) post raised := by
  intro state held result after ends
  cases ends
  exact holds state held

theorem meets_throw {post : Value → State → Prop} (exception : Exception)
    (holds : ∀ state, pre state → raised exception state) :
    Meets pre (throw exception : Comp State Exception Value) post raised := by
  intro state held result after ends
  cases ends
  exact holds state held

/-- One computation after another. -/
theorem Meets.bind {comp : Comp State Exception Value} {mid : Value → State → Prop}
    {next : Value → Comp State Exception Result} {post : Result → State → Prop}
    (first : Meets pre comp mid raised)
    (second : ∀ value, Meets (mid value) (next value) post raised) :
    Meets pre (comp >>= next) post raised := by
  intro state holds result after ends
  rw [outcome_bind] at ends
  obtain ⟨⟨value, between⟩, went, rest⟩ := Option.bind_eq_some_iff.mp ends
  have met := first state holds value between went
  cases value with
  | ok value => exact second value between met result after rest
  | error exception =>
    cases rest
    exact met

/-- A handler sees what the computation ensures either way. -/
theorem Meets.attempt {comp : Comp State Exception Value} {post : Value → State → Prop}
    {raised' : Other → State → Prop} (meets : Meets pre comp post raised) :
    Meets pre (attempt comp)
      (fun result state =>
        match result with
        | .ok value => post value state
        | .error exception => raised exception state) raised' := by
  intro state holds result after ends
  rw [outcome_attempt] at ends
  obtain ⟨⟨inner, last⟩, went, eq⟩ := Option.map_eq_some_iff.mp ends
  cases eq
  exact meets state holds inner after went

theorem ends_pure (value : Value) : Ends pre (pure value : Comp State Exception Value) :=
  fun _ _ => rfl

theorem ends_throw (exception : Exception) :
    Ends pre (throw exception : Comp State Exception Value) :=
  fun _ _ => rfl

theorem Ends.attempt {comp : Comp State Exception Value} (ends : Ends pre comp) :
    Ends pre (attempt comp : Comp State Other (Except Exception Value)) := by
  intro state holds
  rw [outcome_attempt, Option.isSome_map]
  exact ends state holds

theorem Ends.bind {comp : Comp State Exception Value} {mid : Value → State → Prop}
    {next : Value → Comp State Exception Result} (first : Ends pre comp)
    (meets : Meets pre comp mid raised) (second : ∀ value, Ends (mid value) (next value)) :
    Ends pre (comp >>= next) := by
  intro state holds
  obtain ⟨⟨value, between⟩, went⟩ := Option.isSome_iff_exists.mp (first state holds)
  have met := meets state holds value between went
  rw [outcome_bind, went]
  cases value with
  | ok value => exact second value between met
  | error exception => rfl

/-- A loop keeps what every round keeps. -/
theorem Meets.iterate {round : Seed → Comp State Exception (Seed ⊕ Value)}
    {invariant : Seed → State → Prop} {post : Value → State → Prop}
    (kept : ∀ seed, Meets (invariant seed) (round seed)
      (fun next state =>
        match next with
        | .inl seed => invariant seed state
        | .inr value => post value state) raised) (seed : Seed) :
    Meets (invariant seed) (iterate round seed) post raised := by
  intro state holds result after ends
  have iterates := iterate_eq_some_iff.mp ends
  clear ends
  generalize eq : (result, after) = outcome at iterates
  induction iterates with
  | again went _ ih => exact ih (kept _ _ holds _ _ went) eq
  | done went =>
    cases eq
    exact kept _ _ holds _ _ went
  | raised went =>
    cases eq
    exact kept _ _ holds _ _ went

/-- A loop ends if every round does, and makes something smaller when it goes on. -/
theorem Ends.iterate {round : Seed → Comp State Exception (Seed ⊕ Value)}
    {invariant : Seed → State → Prop} (measure : Seed → State → Nat)
    (ends : ∀ seed, Ends (invariant seed) (round seed))
    (smaller : ∀ seed state next after, invariant seed state →
      (round seed).outcome state = some (.ok (.inl next), after) →
      invariant next after ∧ measure next after < measure seed state) (seed : Seed) :
    Ends (invariant seed) (iterate round seed) := by
  intro state holds
  induction size : measure seed state using Nat.strong_induction_on generalizing seed state with
  | h size ih =>
    rw [outcome_iterate]
    obtain ⟨⟨result, after⟩, went⟩ := Option.isSome_iff_exists.mp (ends seed state holds)
    rw [went]
    rcases result with exception | next | value
    · rfl
    · have ⟨held, less⟩ := smaller seed state next after holds went
      exact ih _ (size ▸ less) next after held rfl
    · rfl

end Iteration

end Desh
