/-
This file compares two computations with state and exceptions: they agree when
from every state they end in the same state, with the same exception or with
related results.

Nothing here depends on the shell.
-/

import Mathlib.Tactic

namespace Desh

variable {State Exception α β γ δ : Type}

/-- Two outcomes agree: equal states, and equal exceptions or related results. -/
inductive OutcomesAgree (related : α → β → Prop) :
    EStateM.Result Exception State α → EStateM.Result Exception State β → Prop where
  | ok {a : α} {b : β} (state : State) (results : related a b) :
      OutcomesAgree related (.ok a state) (.ok b state)
  | error (exception : Exception) (state : State) :
      OutcomesAgree related (.error exception state) (.error exception state)

/-- Two computations agree from every state. -/
def Agree (related : α → β → Prop) (x : EStateM Exception State α) (y : EStateM Exception State β) :
    Prop :=
  ∀ state, OutcomesAgree related (x state) (y state)

/-- A value read off the state. -/
def observing (read : State → α) : EStateM Exception State α := fun state => .ok (read state) state

theorem agree_pure {related : α → β → Prop} {a : α} {b : β} (results : related a b) :
    Agree related (pure a : EStateM Exception State α) (pure b) :=
  fun state => .ok state results

theorem agree_throw {related : α → β → Prop} (exception : Exception) :
    Agree related (throw exception : EStateM Exception State α) (throw exception) :=
  fun state => .error exception state

theorem agree_observing {related : α → β → Prop} {f : State → α} {g : State → β}
    (results : ∀ state, related (f state) (g state)) :
    Agree related (observing f : EStateM Exception State α) (observing g) :=
  fun state => .ok state (results state)

/-- Agreeing computations followed by agreeing ones agree. -/
theorem agree_bind {before : α → β → Prop} {after : γ → δ → Prop}
    {x : EStateM Exception State α} {y : EStateM Exception State β}
    {f : α → EStateM Exception State γ} {g : β → EStateM Exception State δ}
    (first : Agree before x y) (next : ∀ a b, before a b → Agree after (f a) (g b)) :
    Agree after (x >>= f) (y >>= g) := by
  intro state
  have outcome := first state
  change OutcomesAgree after (EStateM.bind x f state) (EStateM.bind y g state)
  unfold EStateM.bind
  cases left : x state with
  | ok a state' =>
    cases right : y state with
    | ok b state'' =>
      rw [left, right] at outcome
      obtain ⟨-, results⟩ := outcome
      exact next a b results state'
    | error exception state'' =>
      rw [left, right] at outcome
      cases outcome
  | error exception state' =>
    cases right : y state with
    | ok b state'' =>
      rw [left, right] at outcome
      cases outcome
    | error exception' state'' =>
      rw [left, right] at outcome
      obtain ⟨⟩ := outcome
      exact .error exception state'

theorem agree_refl (x : EStateM Exception State α) : Agree Eq x x := by
  intro state
  cases x state with
  | ok a state' => exact .ok state' rfl
  | error exception state' => exact .error exception state'

/-- A computation agrees with itself followed by a change of its result. -/
theorem agree_bind_pure {related : α → β → Prop} {f : α → β} (results : ∀ a, related a (f a))
    (x : EStateM Exception State α) : Agree related x (x >>= fun a => pure (f a)) := by
  have same : x = x >>= pure := (bind_pure x).symm
  conv =>
    arg 2
    rw [same]
  refine agree_bind (agree_refl x) ?_
  rintro a _ rfl
  exact agree_pure (results a)

/-- What is known of the results of a computation that agrees with another. -/
theorem related_of_agree {related : α → β → Prop} {x : EStateM Exception State α}
    {y : EStateM Exception State β} (agree : Agree related x y) {state later : State} {a : α}
    (ran : x state = .ok a later) : ∃ b, related a b := by
  have outcome := agree state
  rw [ran] at outcome
  generalize y state = other at outcome
  cases outcome with
  | @ok _ b _ results => exact ⟨b, results⟩

/-- Two computations that agree with a third agree. -/
theorem Agree.join {first : α → γ → Prop} {second : β → γ → Prop} {both : α → β → Prop}
    {x : EStateM Exception State α} {y : EStateM Exception State β}
    {z : EStateM Exception State γ} (left : Agree first x z) (right : Agree second y z)
    (related : ∀ a b c, first a c → second b c → both a b) : Agree both x y := by
  intro state
  have leftOutcome := left state
  have rightOutcome := right state
  generalize x state = l, y state = r, z state = m at leftOutcome rightOutcome ⊢
  cases leftOutcome with
  | ok state' results =>
    obtain ⟨-, results'⟩ := rightOutcome
    exact .ok state' (related _ _ _ results results')
  | error exception state' =>
    obtain ⟨⟩ := rightOutcome
    exact .error exception state'

/-- Two ways to go on are equal if they are after every value there can be. -/
theorem bind_congr_of_ok {x : EStateM Exception State α} {f g : α → EStateM Exception State β}
    (same : ∀ state a later, x state = .ok a later → f a = g a) : x >>= f = x >>= g := by
  funext state
  change EStateM.bind x f state = EStateM.bind x g state
  unfold EStateM.bind
  cases ran : x state with
  | ok a later => exact congrFun (same state a later ran) later
  | error exception later => rfl

end Desh
