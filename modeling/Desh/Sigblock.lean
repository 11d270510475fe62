/-
This file models the stack of signal masks of `signal.c`. Its three pointers are
byte addresses, `NULL` being 0. The kernel stores the old mask where it is told
to, unless that is `NULL`; a pointer to memory that is no part of the stack makes
the call fail.
-/

import Mathlib.Tactic

namespace Desh

/-! ### Blocking and unblocking -/

/-- A set of signals. -/
abbrev Sigset := Finset Nat

/-- `sizeof (sigset_t)`. -/
@[irreducible] def sigsetSize : Nat := 128

/-- `sizeof (sigset_t *)`, the size `block` multiplies by. -/
def sigbsSize : Nat := 8

/-- The pointers `sigbs`, `sigbs_tos` and `sigbs_end`, the allocated bytes at `sigbs`, the sets in
memory, the mask of the process, and the number of allocations so far. -/
structure Sigbs where
  sigbs : Nat
  tos : Nat
  limit : Nat
  allocated : Nat
  slots : Nat → Sigset
  mask : Sigset
  allocations : Nat

namespace Sigbs

/-- All three pointers are `NULL`. -/
def initial (mask : Sigset) : Sigbs := ⟨0, 0, 0, 0, fun _ => ∅, mask, 0⟩

/-- Is there a whole set inside the allocated stack at an address? -/
def inside (state : Sigbs) (address : Nat) : Bool :=
  address ≠ 0 && state.sigbs ≤ address && address + sigsetSize ≤ state.sigbs + state.allocated

/-- The beginning of `block`: the stack is reallocated at the address of the next allocation. -/
def grow (alloc : Nat → Nat) (state : Sigbs) : Sigbs :=
  if state.tos = state.limit then
    let sz := (state.limit - state.sigbs) / sigsetSize
    let sigbs := alloc state.allocations
    { state with
      sigbs
      limit := sigbs + (sz + 10) * sigsetSize
      allocated := (sz + 10) * sigbsSize
      slots := fun address =>
        if sigbs ≤ address then state.slots (state.sigbs + (address - sigbs))
        else state.slots address
      allocations := state.allocations + 1 }
  else state

/-- `block`. -/
def block (alloc : Nat → Nat) (sig : Nat) (state : Sigbs) : Sigbs :=
  let state := state.grow alloc
  { state with
    slots := if state.inside state.tos then Function.update state.slots state.tos state.mask
      else state.slots
    mask := insert sig state.mask
    tos := state.tos + sigsetSize }

/-- Does `block` store the old mask inside the stack? -/
def stores (alloc : Nat → Nat) (state : Sigbs) : Bool :=
  (state.grow alloc).inside (state.grow alloc).tos

/-- The assertion of `unblock`, a difference of pointers to sets. -/
def assertion (state : Sigbs) : Bool :=
  0 < Int.tdiv ((state.sigbs : Int) - state.tos) sigsetSize

/-- `unblock`. -/
def unblock (state : Sigbs) : Sigbs :=
  let tos := state.tos - sigsetSize
  { state with
    mask := if state.inside tos then state.slots tos else state.mask
    tos }

end Sigbs

/-! ### Sequences of calls -/

/-- A call. -/
inductive SigCall where
  | block (sig : Nat)
  | unblock (sig : Nat)

/-- Every `unblock` has a `block` before it, `open` of which are not undone yet. -/
def Nested : Nat → List SigCall → Prop
  | _, [] => True
  | depth, .block _ :: calls => Nested (depth + 1) calls
  | 0, .unblock _ :: _ => False
  | depth + 1, .unblock _ :: calls => Nested depth calls

def SigCall.run (alloc : Nat → Nat) (call : SigCall) (state : Sigbs) : Sigbs :=
  match call with
  | .block sig => state.block alloc sig
  | .unblock _ => state.unblock

def runCalls (alloc : Nat → Nat) (calls : List SigCall) (state : Sigbs) : Sigbs :=
  calls.foldl (fun state call => call.run alloc state) state

/-- Every mask is stored inside the stack, every assertion holds, and every `unblock` installs the
mask there was before its `block`; `before` are those of the calls not undone yet. -/
def Restores (alloc : Nat → Nat) : Sigbs → List SigCall → List Sigset → Prop
  | _, [], _ => True
  | state, .block sig :: calls, before =>
      state.stores alloc = true ∧
        Restores alloc (state.block alloc sig) calls (state.mask :: before)
  | _, .unblock _ :: _, [] => True
  | state, .unblock _ :: calls, mask :: before =>
      state.assertion = true ∧ state.unblock.mask = mask ∧
        Restores alloc state.unblock calls before

theorem grow_tos (alloc : Nat → Nat) (state : Sigbs) : (state.grow alloc).tos = state.tos := by
  rw [Sigbs.grow]
  split
  · rfl
  · rfl

/-- The first mask is stored nowhere: the pointer is still `NULL`. -/
theorem not_stores_initial (alloc : Nat → Nat) (mask : Sigset) :
    (Sigbs.initial mask).stores alloc = false := by
  rw [Sigbs.stores, grow_tos]
  rfl

/-- Masks are restored only where none is changed. -/
theorem restores_iff (alloc : Nat → Nat) (mask : Sigset) (calls : List SigCall)
    (nested : Nested 0 calls) : Restores alloc (.initial mask) calls [] ↔ calls = [] := by
  cases calls with
  | nil => exact iff_of_true trivial rfl
  | cons call calls =>
    refine iff_of_false (fun restores => ?_) nofun
    cases call with
    | block sig => exact absurd (restores.1.symm.trans (not_stores_initial alloc mask)) nofun
    | unblock sig => exact nested

theorem restores_iff_pair :
    Restores (fun _ => 4096) (.initial ∅) [.block 22, .unblock 22] [] ↔
      [SigCall.block 22, .unblock 22] = [] :=
  restores_iff _ _ _ trivial

/-- The only use of the two functions: nothing is stored, the assertion holds, and the signal stays
blocked. -/
theorem block_unblock_initial :
    (Sigbs.initial ∅).stores (fun _ => 4096) = false ∧
      ((Sigbs.initial ∅).block (fun _ => 4096) 22).assertion = true ∧
      ((Sigbs.initial ∅).block (fun _ => 4096) 22).unblock.mask = {22} := by
  refine ⟨not_stores_initial _ _, ?_, ?_⟩
  · decide +kernel
  · decide +kernel

/-! ### What the calls do -/

/-- The stack is allocated, and the pointer to its top is still below it, one set for each call
that is not undone; there is room for as many calls as are to come. -/
structure Misplaced (depth room : Nat) (state : Sigbs) : Prop where
  tos : state.tos = sigsetSize * depth
  far : sigsetSize * (depth + room + 1) ≤ state.sigbs
  limit : state.sigbs < state.limit

section Misplaced

variable {depth room : Nat} {state : Sigbs}

theorem Misplaced.not_inside (misplaced : Misplaced depth room state) {count : Nat}
    (near : count ≤ depth) : state.inside (sigsetSize * count) = false := by
  have far := misplaced.far
  have below : ¬state.sigbs ≤ sigsetSize * count := by
    rw [sigsetSize] at far ⊢
    omega
  rw [Sigbs.inside, decide_eq_false below, Bool.and_false, Bool.false_and]

/-- A call of `block` only adds the signal to the mask. -/
theorem Misplaced.block (alloc : Nat → Nat) (misplaced : Misplaced depth (room + 1) state)
    (sig : Nat) :
    Misplaced (depth + 1) room (state.block alloc sig) ∧
      (state.block alloc sig).mask = insert sig state.mask := by
  have far := misplaced.far
  have limit := misplaced.limit
  have tos := misplaced.tos
  have same : state.grow alloc = state := by
    rw [Sigbs.grow, if_neg]
    rw [sigsetSize] at far tos
    omega
  rw [Sigbs.block, same]
  refine ⟨⟨?_, ?_, limit⟩, rfl⟩
  · show state.tos + sigsetSize = sigsetSize * (depth + 1)
    rw [tos, Nat.mul_succ]
  · show sigsetSize * (depth + 1 + room + 1) ≤ state.sigbs
    rw [Nat.add_right_comm depth 1 room]
    exact far

/-- A call of `unblock` passes its assertion and changes no mask. -/
theorem Misplaced.unblock (misplaced : Misplaced (depth + 1) (room + 1) state) :
    Misplaced depth room state.unblock ∧ state.unblock.mask = state.mask := by
  have far := misplaced.far
  have less : state.tos - sigsetSize = sigsetSize * depth := by
    rw [misplaced.tos, Nat.mul_succ, Nat.add_sub_cancel]
  refine ⟨⟨less, ?_, misplaced.limit⟩, ?_⟩
  · show sigsetSize * (depth + room + 1) ≤ state.sigbs
    rw [sigsetSize] at far ⊢
    omega
  · rw [Sigbs.unblock]
    dsimp only
    rw [less, misplaced.not_inside (Nat.le_succ depth), if_neg Bool.false_ne_true]

/-- Its assertion holds. -/
theorem Misplaced.assertion (misplaced : Misplaced (depth + 1) (room + 1) state) :
    state.assertion = true := by
  have far := misplaced.far
  have tos := misplaced.tos
  rw [sigsetSize] at far tos
  refine decide_eq_true ?_
  rw [sigsetSize, Int.tdiv_eq_ediv_of_nonneg (by omega)]
  omega

end Misplaced

/-- The signals that a sequence of calls blocks. -/
def blocked : List SigCall → Sigset
  | [] => ∅
  | .block sig :: calls => insert sig (blocked calls)
  | .unblock _ :: calls => blocked calls

/-- No mask is ever restored: the signals that were blocked once stay blocked. -/
theorem Misplaced.run_mask {alloc : Nat → Nat} {calls : List SigCall} {depth : Nat} {state : Sigbs}
    (misplaced : Misplaced depth calls.length state) (nested : Nested depth calls) :
    (runCalls alloc calls state).mask =
      state.mask ∪ blocked calls := by
  induction calls generalizing depth state with
  | nil => exact (Finset.union_empty _).symm
  | cons call calls ih =>
    cases call with
    | block sig =>
      obtain ⟨next, mask⟩ := Misplaced.block alloc misplaced sig
      rw [runCalls, List.foldl_cons]
      refine (ih next nested).trans ?_
      rw [mask, blocked, Finset.insert_union, Finset.union_insert]
    | unblock sig =>
      cases depth with
      | zero => exact nested.elim
      | succ depth =>
        obtain ⟨next, mask⟩ := misplaced.unblock
        rw [runCalls, List.foldl_cons]
        refine (ih next nested).trans ?_
        rw [mask, blocked]

/-- From the start on, when the stack is not allocated at the lowest addresses, the signals that
were blocked once stay blocked. -/
theorem run_mask {alloc : Nat → Nat} {calls : List SigCall} (nested : Nested 0 calls)
    (far : sigsetSize * (calls.length + 1) ≤ alloc 0) (mask : Sigset) :
    (runCalls alloc calls (.initial mask)).mask =
      mask ∪ blocked calls := by
  cases calls with
  | nil => exact (Finset.union_empty _).symm
  | cons call calls =>
    cases call with
    | unblock sig => exact nested.elim
    | block sig =>
      have grown : (Sigbs.initial mask).grow alloc =
          { Sigbs.initial mask with
            sigbs := alloc 0
            limit := alloc 0 + (0 / sigsetSize + 10) * sigsetSize
            allocated := (0 / sigsetSize + 10) * sigbsSize
            slots := ((Sigbs.initial mask).grow alloc).slots
            allocations := 1 } := by
        rw [Sigbs.grow,
          if_pos (show (Sigbs.initial mask).tos = (Sigbs.initial mask).limit from rfl)]
        rfl
      have misplaced : Misplaced 1 calls.length ((Sigbs.initial mask).block alloc sig) := by
        rw [Sigbs.block, grown]
        refine ⟨?_, ?_, ?_⟩
        · show 0 + sigsetSize = sigsetSize * 1
          rw [Nat.zero_add, Nat.mul_one]
        · rw [Nat.add_comm 1]
          exact far
        · show alloc 0 < alloc 0 + (0 / sigsetSize + 10) * sigsetSize
          rw [sigsetSize]
          omega
      have first : ((Sigbs.initial mask).block alloc sig).mask = insert sig mask := by
        rw [Sigbs.block, grown]
        rfl
      rw [runCalls, List.foldl_cons]
      refine (misplaced.run_mask nested).trans ?_
      rw [first, blocked, Finset.insert_union, Finset.union_insert]

end Desh
