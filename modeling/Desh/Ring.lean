/-
This file is about searching a ring of slots from a starting point on, as open
addressing does: the first slot that stops the search, counting round the ring.

Nothing here depends on the shell.
-/

import Mathlib.Data.Nat.Periodic
import Mathlib.Tactic

namespace Desh

/-- The first position from `n` on that stops the search, looked for at `fuel` positions. -/
def scan (stop : Nat → Bool) : Nat → Nat → Option Nat
  | 0, _ => none
  | fuel + 1, n => if stop n then some n else scan stop fuel (n + 1)

/-- What a search finds is a stop, and everything before it is none. -/
theorem scan_spec {stop : Nat → Bool} {fuel n found : Nat}
    (result : scan stop fuel n = some found) :
    n ≤ found ∧ stop found = true ∧ ∀ k, n ≤ k → k < found → stop k = false := by
  induction fuel generalizing n with
  | zero => cases result
  | succ fuel inductionHypothesis =>
    rw [scan] at result
    by_cases here : stop n = true
    · rw [if_pos here] at result
      obtain rfl := Option.some.inj result
      exact ⟨le_refl n, here, fun k above below => absurd below (Nat.not_lt.mpr above)⟩
    · rw [if_neg here] at result
      obtain ⟨above, stops, before⟩ := inductionHypothesis result
      refine ⟨Nat.le_of_succ_le above, stops, fun k from' below => ?_⟩
      rcases Nat.eq_or_lt_of_le from' with rfl | later
      · exact Bool.eq_false_iff.mpr here
      · exact before k later below

theorem exists_scan_of_stop {stop : Nat → Bool} {fuel n k : Nat} (stops : stop (n + k) = true)
    (inside : k < fuel) : ∃ found, scan stop fuel n = some found := by
  induction fuel generalizing n k with
  | zero => exact absurd inside (Nat.not_lt_zero k)
  | succ fuel inductionHypothesis =>
    rw [scan]
    by_cases here : stop n = true
    · exact ⟨n, if_pos here⟩
    · rw [if_neg here]
      cases k with
      | zero => exact absurd stops here
      | succ k =>
        have onward : stop (n + 1 + k) = true := by
          rwa [Nat.add_assoc, Nat.add_comm 1 k]
        exact inductionHypothesis onward (Nat.lt_of_succ_lt_succ inside)

/-- Every position of a ring is met within one round from any starting point. -/
theorem exists_add_modEq (size n m : Nat) (positive : 0 < size) :
    ∃ k < size, (n + k) % size = m % size := by
  refine ⟨(m + (size - n % size)) % size, Nat.mod_lt _ positive, ?_⟩
  have split : n + (m + (size - n % size)) = m + size * (n / size + 1) := by
    have whole := Nat.div_add_mod n size
    have less := Nat.mod_lt n positive
    rw [Nat.mul_add, Nat.mul_one]
    omega
  rw [Nat.add_mod_mod, split, Nat.add_mul_mod_self_left]

/-- A search round a ring that has a stop somewhere ends. -/
theorem exists_scan {stop : Nat → Bool} {size : Nat} (periodic : Function.Periodic stop size)
    (positive : 0 < size) {m : Nat} (stops : stop m = true) (n : Nat) :
    ∃ found, scan stop size n = some found := by
  obtain ⟨k, inside, same⟩ := exists_add_modEq size n m positive
  refine exists_scan_of_stop ?_ inside
  rw [← periodic.map_mod_nat, same, periodic.map_mod_nat, stops]

end Desh
