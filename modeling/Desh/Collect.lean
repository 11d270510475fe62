/-
This file proves when a collection preserves the heap. `scanspace` goes through
the spaces newest first, and what it copies goes to the newest space. While it
is at the newest one it meets the new copies there too; while it is at an older
one, the copies go behind its back. Unless the newest space fills up there is no
further pass, and there is none over that space in any case: a copy that lands
there keeps its pointers into the old space, which is then freed.

A slot is passed when no later step of the collection comes to it. The invariant
is that of a copying collector, with its state read off the spaces; the step
lemma says that passed slots stay free of pointers into the old space in exactly
the steps that leave no such copy behind.
-/

import Desh.Gc

namespace Desh

variable {Data : Type}

/-! ### Reading and writing spaces -/

namespace Spaces

variable {spaces : Spaces Data}

theorem get_eq_some_iff (spaces : Spaces Data) (a : Addr) (object : Object Data) :
    spaces.get a = some object ↔ spaces.base ≤ a.space ∧
      ∃ space, spaces.list[a.space - spaces.base]? = some space ∧
        space.objects[a.index]? = some object := by
  rw [get]
  split
  case isTrue above => simp [above, Option.bind_eq_some_iff]
  case isFalse below => simp [below]

theorem isinspace_iff (spaces : Spaces Data) (a : Addr) :
    spaces.isinspace a = true ↔
      spaces.base ≤ a.space ∧ a.space < spaces.base + spaces.list.length := by
  rw [isinspace, Bool.and_eq_true, decide_eq_true_eq, decide_eq_true_eq]
  exact Iff.rfl

theorem isinspace_of_get {a : Addr} {object : Object Data} (found : spaces.get a = some object) :
    spaces.isinspace a = true := by
  obtain ⟨above, space, here, -⟩ := (spaces.get_eq_some_iff a object).mp found
  obtain ⟨below, -⟩ := List.getElem?_eq_some_iff.mp here
  rw [isinspace_iff]
  omega

/-- Objects lie one after the other. -/
theorem get_of_le {s i j : Nat} (le : i ≤ j) (present : (spaces.get ⟨s, j⟩).isSome) :
    (spaces.get ⟨s, i⟩).isSome := by
  obtain ⟨object, found⟩ := Option.isSome_iff_exists.mp present
  obtain ⟨above, space, here, there⟩ := (spaces.get_eq_some_iff _ _).mp found
  obtain ⟨bound, -⟩ := List.getElem?_eq_some_iff.mp there
  have bound' : i < space.objects.length := lt_of_le_of_lt le bound
  refine Option.isSome_iff_exists.mpr ⟨space.objects[i], ?_⟩
  exact (spaces.get_eq_some_iff _ _).mpr ⟨above, space, here, List.getElem?_eq_getElem bound'⟩

theorem length_modify (spaces : Spaces Data) (a : Addr) (f : Object Data → Object Data) :
    (spaces.modify a f).list.length = spaces.list.length := by
  simp [modify]

theorem get_modify {a : Addr} (present : (spaces.get a).isSome) (f : Object Data → Object Data)
    (b : Addr) :
    (spaces.modify a f).get b = if b = a then (spaces.get a).map f else spaces.get b := by
  obtain ⟨object, found⟩ := Option.isSome_iff_exists.mp present
  obtain ⟨above, space, here, there⟩ := (spaces.get_eq_some_iff _ _).mp found
  simp only [get, modify]
  by_cases above' : spaces.base ≤ b.space
  · by_cases sameSpace : b.space = a.space
    · by_cases sameIndex : b.index = a.index
      · have same : b = a := by
          cases a
          cases b
          simp_all
        subst same
        simp [above', here, there]
      · have other : b ≠ a := fun same => sameIndex (same ▸ rfl)
        simp [sameSpace, here, other, Ne.symm sameIndex]
    · have other : b ≠ a := fun same => sameSpace (same ▸ rfl)
      have position : a.space - spaces.base ≠ b.space - spaces.base := by omega
      simp [above', other, position]
  · have other : b ≠ a := fun same => above' (same ▸ above)
    simp [above', other]

theorem get_newspace (spaces : Spaces Data) (minspace : Nat) (a : Addr) :
    (spaces.newspace minspace).get a = spaces.get a := by
  simp only [get, newspace]
  congr 1
  rcases Nat.lt_trichotomy (a.space - spaces.base) spaces.list.length with less | same | greater
  · rw [List.getElem?_append_left less]
  · rw [same, List.getElem?_concat_length, List.getElem?_eq_none (le_refl _)]
    rfl
  · rw [List.getElem?_eq_none (by simp; omega), List.getElem?_eq_none (by omega)]

theorem get_current (spaces : Spaces Data) : spaces.get spaces.current = none := by
  have position : spaces.limit - 1 - spaces.base = spaces.list.length - 1 := by
    simp only [limit]
    omega
  simp only [get, current, position, ← List.getLast?_eq_getElem?]
  cases spaces.list.getLast? with
  | none => simp
  | some last => simp

theorem get_push {spaces : Spaces Data} (nonempty : spaces.list ≠ []) (object : Object Data)
    (a : Addr) :
    (spaces.push object).get a = if a = spaces.current then some object else spaces.get a := by
  have positive : 0 < spaces.list.length := List.length_pos_iff.mpr nonempty
  obtain ⟨last, isLast⟩ : ∃ last, spaces.list[spaces.list.length - 1]? = some last :=
    ⟨_, List.getElem?_eq_getElem (by omega)⟩
  have current_eq : spaces.current = ⟨spaces.limit - 1, last.objects.length⟩ := by
    rw [current, List.getLast?_eq_getElem?, isLast]
    rfl
  have pushed : (spaces.push object).list[spaces.list.length - 1]? =
      some { last with objects := last.objects ++ [object] } := by
    simp [push, isLast]
  obtain ⟨s, i⟩ := a
  by_cases above : spaces.base ≤ s
  case neg =>
    have other : (⟨s, i⟩ : Addr) ≠ spaces.current := by
      rw [current_eq]
      rintro ⟨rfl, -⟩
      simp only [limit] at above
      omega
    rw [if_neg other]
    simp [get, push, above]
  have isBase : (spaces.push object).base = spaces.base := rfl
  by_cases sameSpace : s - spaces.base = spaces.list.length - 1
  · simp only [get, isBase, above, if_true, sameSpace, pushed, isLast, Option.bind_some]
    have isSpace : s = spaces.limit - 1 := by
      simp only [limit]
      omega
    rcases Nat.lt_trichotomy i last.objects.length with less | same | greater
    · have other : (⟨s, i⟩ : Addr) ≠ spaces.current := by
        rw [current_eq]
        rintro ⟨-, rfl⟩
        exact Nat.lt_irrefl _ less
      rw [if_neg other, List.getElem?_append_left less]
    · rw [if_pos (by rw [current_eq, isSpace, same]), same, List.getElem?_concat_length]
    · have other : (⟨s, i⟩ : Addr) ≠ spaces.current := by
        rw [current_eq]
        rintro ⟨-, rfl⟩
        exact Nat.lt_irrefl _ greater
      rw [if_neg other, List.getElem?_eq_none (by simp; omega),
        List.getElem?_eq_none (by omega)]
  · have other : (⟨s, i⟩ : Addr) ≠ spaces.current := by
      rw [current_eq]
      rintro ⟨rfl, -⟩
      simp only [limit] at sameSpace
      omega
    rw [if_neg other]
    simp [get, push, above, Ne.symm sameSpace]

/-- What an allocation does: the object is put at a new place at the end of the newest space,
which is the one it was before if the object fits. -/
structure Allocates (object : Object Data) (spaces spaces' : Spaces Data) (b : Addr) : Prop where
  base : spaces'.base = spaces.base
  length : spaces.list.length ≤ spaces'.list.length
  fits : spaces'.list.length = spaces.list.length ↔ spaces.fits object.nbytes = true
  fresh : spaces.get b = none
  get : ∀ a, spaces'.get a = if a = b then some object else spaces.get a
  last : b.space + 1 = spaces'.limit
  above : ∀ i, (spaces.get ⟨b.space, i⟩).isSome → i < b.index

theorem limit_pos_of_ne_nil (nonempty : spaces.list ≠ []) : 0 < spaces.limit := by
  have positive : 0 < spaces.list.length := List.length_pos_iff.mpr nonempty
  simp only [limit]
  omega

theorem push_allocates (nonempty : spaces.list ≠ []) (object : Object Data)
    (fits : spaces.fits object.nbytes = true) :
    Allocates object spaces (spaces.push object) spaces.current where
  base := rfl
  length := by simp [push]
  fits := by simp [push, fits]
  fresh := spaces.get_current
  get := get_push nonempty object
  last := by
    have positive := limit_pos_of_ne_nil nonempty
    have same : (spaces.push object).limit = spaces.limit := by simp [push, limit]
    rw [same, current]
    exact Nat.sub_add_cancel positive
  above i present := by
    by_contra notLess
    have absent := spaces.get_current
    have := get_of_le (Nat.le_of_not_lt notLess) present
    rw [show (⟨spaces.current.space, spaces.current.index⟩ : Addr) = spaces.current from rfl,
      absent] at this
    cases this

theorem gcalloc_spec {object : Object Data} {fuel minspace minspace' : Nat}
    {spaces spaces' : Spaces Data} {b : Addr} (nonempty : spaces.list ≠ [])
    (run : spaces.gcalloc object fuel minspace = some (b, minspace', spaces')) :
    Allocates object spaces spaces' b := by
  induction fuel generalizing minspace spaces with
  | zero => cases run
  | succ fuel inductionHypothesis =>
    rw [gcalloc] at run
    split at run
    case isTrue fits =>
      cases run
      exact push_allocates nonempty object fits
    case isFalse unfit =>
      have grown := inductionHypothesis (by simp [newspace]) run
      have longer : (spaces.newspace (if minspace < object.nbytes then object.nbytes + wordSize
          else minspace)).list.length = spaces.list.length + 1 := by simp [newspace]
      have length := grown.length
      refine ⟨grown.base, by omega, ?_, ?_, ?_, grown.last, ?_⟩
      · constructor
        · intro same
          omega
        · intro fits
          exact absurd fits unfit
      · exact (get_newspace ..).symm.trans grown.fresh
      · intro a
        rw [grown.get, get_newspace]
      · intro i present
        exact grown.above i (by rwa [get_newspace])

end Spaces

/-! ### The collector as a copying collector -/

/-- What an object holds. -/
def Object.node (object : Object Data) : Node Addr (Nat × Data) :=
  ⟨(object.nbytes, object.data), object.fields⟩

/-- The object graph. -/
def GcHeap.graph (heap : GcHeap Data) : Graph Addr (Nat × Data) :=
  ⟨fun a => (heap.spaces.get a).map Object.node, heap.roots⟩

namespace Collector

/-- What has been copied and redirected so far. -/
def copy (collector : Collector Data) : Copy Addr (Nat × Data) where
  forwarded a := (collector.old.get a).bind Object.forward
  get b := (collector.new.get b).map Object.node
  roots := collector.roots

/-- Writing to the slot of a pointer. -/
def put (collector : Collector Data) (slot : Slot Addr) (q : Pointer Addr) : Collector Data :=
  match slot with
  | .root i => { collector with roots := collector.roots.set i q }
  | .field b i =>
      { collector with
        new := collector.new.modify b fun object =>
          { object with fields := object.fields.set i q } }

theorem copy_put {collector : Collector Data} {slot : Slot Addr} {p : Pointer Addr}
    (read : collector.copy.read slot = some p) (q : Pointer Addr) :
    (collector.put slot q).copy = collector.copy.write slot q := by
  cases slot with
  | root i => rfl
  | field b i =>
    obtain ⟨node, found, -⟩ := Option.bind_eq_some_iff.mp read
    obtain ⟨object, present, rfl⟩ := Option.map_eq_some_iff.mp found
    simp only [copy, put, Copy.write, Copy.mk.injEq, true_and, and_true]
    funext c
    rw [Spaces.get_modify (by rw [present]; rfl), Function.update_apply]
    split
    · rw [present]
      rfl
    · rfl

/-- What `forward` does. -/
theorem forward_cases {fuel : Nat} {p q : Pointer Addr} {collector collector' : Collector Data}
    (run : collector.forward fuel p = some (q, collector')) :
    ((∀ a, p = .heap a → collector.old.isinspace a = false) ∧ q = p ∧ collector' = collector) ∨
    (∃ a object np, p = .heap a ∧ collector.old.get a = some object ∧
      object.forward = some np ∧ q = .heap np ∧ collector' = collector) ∨
    ∃ a object np minspace new, p = .heap a ∧ collector.old.get a = some object ∧
      object.forward = none ∧
      collector.new.gcalloc object fuel collector.minspace = some (np, minspace, new) ∧
      q = .heap np ∧ collector' = { collector with
        new
        minspace
        old := collector.old.modify a fun object => { object with forward := some np } } := by
  cases p with
  | other n =>
    cases run
    exact .inl ⟨nofun, rfl, rfl⟩
  | heap a =>
    rw [forward] at run
    split at run
    case isTrue outside =>
      cases run
      refine .inl ⟨?_, rfl, rfl⟩
      rintro a' same
      obtain rfl := Pointer.heap.inj same
      simpa using outside
    case isFalse =>
      split at run
      case h_1 => cases run
      case h_2 object found =>
        split at run
        case h_1 np isForwarded =>
          cases run
          exact .inr (.inl ⟨a, object, np, rfl, found, isForwarded, rfl, rfl⟩)
        case h_2 unforwarded =>
          obtain ⟨⟨np, minspace, new⟩, allocation, result⟩ := Option.bind_eq_some_iff.mp run
          cases result
          exact .inr (.inr ⟨a, object, np, minspace, new, rfl, found, unforwarded, allocation, rfl,
            rfl⟩)

/-- The slot whose pointer the next step forwards. -/
def slot (collector : Collector Data) : Option (Slot Addr) :=
  match collector.phase with
  | .scanroots i => some (.root i)
  | .scanspace scanned _ sp scan field =>
      if sp = scanned then none else some (.field (collector.scanned sp scan) field)
  | .done => none

/-- The phase after that. -/
def next : Phase → Phase
  | .scanroots i => .scanroots (i + 1)
  | .scanspace scanned front sp scan field => .scanspace scanned front sp scan (field + 1)
  | .done => .done

/-- What a step does when there is nothing to forward. -/
inductive Moves (collector : Collector Data) : Phase → Prop where
  | begin {i : Nat} (phase : collector.phase = .scanroots i)
      (absent : collector.roots[i]? = none) :
      Moves collector
        (.scanspace 0 collector.new.list.length collector.new.list.length 0 0)
  | finish {front sp scan field : Nat} (phase : collector.phase = .scanspace sp front sp scan field)
      (same : collector.new.list.length = front) : Moves collector .done
  | pass {front sp scan field : Nat} (phase : collector.phase = .scanspace sp front sp scan field)
      (different : collector.new.list.length ≠ front) :
      Moves collector
        (.scanspace front collector.new.list.length collector.new.list.length 0 0)
  | space {scanned front sp scan field : Nat}
      (phase : collector.phase = .scanspace scanned front sp scan field) (more : sp ≠ scanned)
      (absent : collector.new.get (collector.scanned sp scan) = none) :
      Moves collector (.scanspace scanned front (sp - 1) 0 0)
  | object {scanned front sp scan field : Nat} {object : Object Data}
      (phase : collector.phase = .scanspace scanned front sp scan field) (more : sp ≠ scanned)
      (found : collector.new.get (collector.scanned sp scan) = some object)
      (absent : object.fields[field]? = none) :
      Moves collector (.scanspace scanned front sp (scan + 1) 0)

/-- A step moves on, or forwards the pointer of one slot. -/
theorem step_cases {fuel : Nat} {collector collector' : Collector Data}
    (step : collector.step fuel = some collector') :
    (∃ phase, Moves collector phase ∧ collector' = { collector with phase }) ∨
    ∃ slot p q middle, collector.slot = some slot ∧ collector.copy.read slot = some p ∧
      collector.forward fuel p = some (q, middle) ∧
      collector' = { middle.put slot q with phase := next collector.phase } := by
  unfold Collector.step at step
  split at step
  case h_1 i phase =>
    split at step
    case h_1 p here =>
      obtain ⟨⟨q, middle⟩, run, result⟩ := Option.bind_eq_some_iff.mp step
      cases result
      refine .inr ⟨.root i, p, q, middle, by rw [slot, phase], here, run, ?_⟩
      rw [phase]
      rfl
    case h_2 absent =>
      cases step
      exact .inl ⟨_, .begin phase absent, rfl⟩
  case h_2 scanned front sp scan field phase =>
    dsimp only at step
    split at step
    case isTrue atEnd =>
      subst atEnd
      split at step
      case isTrue same =>
        cases step
        exact .inl ⟨_, .finish phase same, rfl⟩
      case isFalse different =>
        cases step
        exact .inl ⟨_, .pass phase different, rfl⟩
    case isFalse more =>
      split at step
      case h_1 absent =>
        cases step
        exact .inl ⟨_, .space phase more absent, rfl⟩
      case h_2 object found =>
        split at step
        case h_1 absent =>
          cases step
          exact .inl ⟨_, .object phase more found absent, rfl⟩
        case h_2 p here =>
          obtain ⟨⟨q, middle⟩, run, result⟩ := Option.bind_eq_some_iff.mp step
          cases result
          refine .inr ⟨.field (collector.scanned sp scan) field, p, q, middle, ?_, ?_, run, ?_⟩
          · rw [slot, phase]
            exact if_neg more
          · simp only [Copy.read, copy, found, Option.map_some, Option.bind_some]
            exact here
          · rw [phase]
            rfl
  case h_3 => cases step

/-! ### Passed slots -/

/-- No later step comes to the slot, given the number of the oldest new space. -/
def Passed (base : Nat) : Phase → Slot Addr → Prop
  | .scanroots i, .root j => j < i
  | .scanroots _, .field _ _ => False
  | .scanspace _ _ _ _ _, .root _ => True
  | .scanspace scanned front sp scan field, .field b i =>
      b.space < base + scanned ∨ (base + sp ≤ b.space ∧ b.space < base + front) ∨
        (b.space + 1 = base + sp ∧ (b.index < scan ∨ (b.index = scan ∧ i < field)))
  | .done, _ => True

/-- How the counts of `scanspace` lie. -/
def Shape (count : Nat) : Phase → Prop
  | .scanspace scanned front sp _ _ =>
      scanned ≤ sp ∧ sp ≤ front ∧ front ≤ count ∧ scanned < front
  | _ => True

theorem present_of_read {collector : Collector Data} {b : Addr} {i : Nat} {p : Pointer Addr}
    (read : collector.copy.read (.field b i) = some p) :
    ∃ object, collector.new.get b = some object ∧ object.fields[i]? = some p := by
  obtain ⟨node, found, field⟩ := Option.bind_eq_some_iff.mp read
  obtain ⟨object, present, rfl⟩ := Option.map_eq_some_iff.mp found
  exact ⟨object, present, field⟩

/-- Moving on passes the slots that are there and leaves none of them out. -/
theorem Moves.passed_iff {collector : Collector Data} {phase : Phase}
    (moves : Moves collector phase) (shape : Shape collector.new.list.length collector.phase)
    {slot : Slot Addr} {p : Pointer Addr} (read : collector.copy.read slot = some p) :
    Passed collector.new.base phase slot ↔
      Passed collector.new.base collector.phase slot := by
  cases slot with
  | root j =>
    cases moves with
    | begin isPhase absent =>
      have inside : j < collector.roots.length := (List.getElem?_eq_some_iff.mp read).1
      rw [isPhase]
      simp only [Passed, true_iff]
      exact lt_of_lt_of_le inside (List.getElem?_eq_none_iff.mp absent)
    | finish isPhase | pass isPhase | space isPhase | object isPhase =>
      rw [isPhase]
      exact Iff.rfl
  | field b i =>
    obtain ⟨object, present, here⟩ := present_of_read read
    have inside := (collector.new.isinspace_iff b).mp (Spaces.isinspace_of_get present)
    cases moves with
    | begin isPhase absent =>
      rw [isPhase]
      simp only [Passed, iff_false, Nat.not_lt_zero, and_false, or_false]
      omega
    | @finish front sp scan field isPhase same =>
      rw [isPhase] at shape ⊢
      simp only [Passed, Shape, true_iff] at shape ⊢
      rcases Nat.lt_or_ge b.space (collector.new.base + sp) with less | le
      · exact .inl less
      · exact .inr (.inl ⟨le, same ▸ inside.2⟩)
    | @pass front sp scan field isPhase different =>
      rw [isPhase] at shape ⊢
      simp only [Passed, Shape] at shape ⊢
      omega
    | @space scanned front sp scan field isPhase more absent =>
      rw [isPhase] at shape ⊢
      simp only [Passed, Shape] at shape ⊢
      have before : b.space + 1 = collector.new.base + sp → b.index < scan := by
        intro sameSpace
        by_contra notBefore
        have isSpace : b.space = collector.new.base + sp - 1 := by omega
        have found := Spaces.get_of_le (s := b.space) (Nat.le_of_not_lt notBefore)
          (by rw [show (⟨b.space, b.index⟩ : Addr) = b from rfl, present]; rfl)
        rw [isSpace, show (⟨collector.new.base + sp - 1, scan⟩ : Addr) =
          collector.scanned sp scan from rfl, absent] at found
        cases found
      omega
    | @object scanned front sp scan field object' isPhase more found absent =>
      rw [isPhase] at shape ⊢
      simp only [Passed, Shape] at shape ⊢
      have before : b.space + 1 = collector.new.base + sp → b.index = scan → i < field := by
        intro sameSpace sameIndex
        have same : b = collector.scanned sp scan := by
          obtain ⟨s, j⟩ := b
          simp only [Collector.scanned, Addr.mk.injEq] at sameSpace sameIndex ⊢
          omega
        rw [same, found] at present
        obtain rfl := Option.some.inj present
        exact lt_of_lt_of_le (List.getElem?_eq_some_iff.mp here).1
          (List.getElem?_eq_none_iff.mp absent)
      omega

theorem Moves.shape {collector : Collector Data} {phase : Phase}
    (moves : Moves collector phase) (nonempty : collector.new.list ≠ [])
    (shape : Shape collector.new.list.length collector.phase) :
    Shape collector.new.list.length phase := by
  have positive : 0 < collector.new.list.length := List.length_pos_iff.mpr nonempty
  cases moves with
  | begin => exact ⟨Nat.zero_le _, le_rfl, le_rfl, positive⟩
  | finish => trivial
  | pass isPhase different =>
    rw [isPhase] at shape
    simp only [Shape] at shape ⊢
    omega
  | space isPhase more =>
    rw [isPhase] at shape
    simp only [Shape] at shape ⊢
    omega
  | object isPhase =>
    rw [isPhase] at shape
    exact shape

/-- The slot of a step is the only one it passes. -/
theorem passed_next {collector : Collector Data} {slot : Slot Addr}
    (shape : Shape collector.new.list.length collector.phase)
    (isSlot : collector.slot = some slot) (other : Slot Addr) :
    Passed collector.new.base (next collector.phase) other ↔
      Passed collector.new.base collector.phase other ∨ other = slot := by
  unfold Collector.slot at isSlot
  split at isSlot
  case h_1 i isPhase =>
    cases isSlot
    rw [isPhase]
    cases other with
    | root j => simp only [next, Passed, Slot.root.injEq, Nat.lt_succ_iff_lt_or_eq]
    | field b j => simp [next, Passed]
  case h_2 scanned front sp scan field isPhase =>
    split at isSlot
    case isTrue => cases isSlot
    case isFalse more =>
      cases isSlot
      rw [isPhase] at shape ⊢
      cases other with
      | root j => simp [next, Passed]
      | field b j =>
        obtain ⟨s, k⟩ := b
        simp only [next, Passed, Shape, Slot.field.injEq, Collector.scanned, Addr.mk.injEq]
          at shape ⊢
        omega
  case h_3 => cases isSlot

theorem not_passed_slot {collector : Collector Data} {slot : Slot Addr}
    (shape : Shape collector.new.list.length collector.phase)
    (isSlot : collector.slot = some slot) :
    ¬ Passed collector.new.base collector.phase slot := by
  unfold Collector.slot at isSlot
  split at isSlot
  case h_1 i isPhase =>
    cases isSlot
    rw [isPhase]
    exact Nat.lt_irrefl i
  case h_2 scanned front sp scan field isPhase =>
    split at isSlot
    case isTrue => cases isSlot
    case isFalse more =>
      cases isSlot
      rw [isPhase] at shape ⊢
      simp only [Passed, Shape, Collector.scanned] at shape ⊢
      omega
  case h_3 => cases isSlot

/-! ### The invariant -/

/-- What holds all through a collection of `heap`. -/
structure Inv (heap : GcHeap Data) (collector : Collector Data) : Prop where
  oldBase : collector.old.base = heap.spaces.base
  oldLength : collector.old.list.length = heap.spaces.list.length
  newBase : collector.new.base = heap.spaces.limit
  nonempty : collector.new.list ≠ []
  source : ∀ a, (collector.old.get a).map Object.node = (heap.spaces.get a).map Object.node
  untagged : ∀ b object, collector.new.get b = some object → object.forward = none
  copying : Copy.Copying heap.graph (fun a => heap.spaces.isinspace a = true) collector.copy
  linked : Copy.Linked collector.copy
  shape : Shape collector.new.list.length collector.phase

variable {heap : GcHeap Data} {collector collector' : Collector Data}

theorem Inv.isinspace (inv : Inv heap collector) (a : Addr) :
    collector.old.isinspace a = heap.spaces.isinspace a := by
  rw [Bool.eq_iff_iff, Spaces.isinspace_iff, Spaces.isinspace_iff, inv.oldBase, inv.oldLength]

/-- An address in the old spaces has no object in the new ones. -/
theorem Inv.get_old (inv : Inv heap collector) {a : Addr}
    (isOld : heap.spaces.isinspace a = true) : collector.copy.get a = none := by
  cases found : collector.copy.get a with
  | none => rfl
  | some node => exact absurd isOld (inv.copying.apart a (by rw [found]; rfl))

/-- Copying an object, as a step of a copying collector. -/
theorem copy_allocated (collector : Collector Data) {a np : Addr} {object : Object Data}
    {new : Spaces Data} {minspace : Nat} (found : collector.old.get a = some object)
    (allocates : Spaces.Allocates object collector.new new np) :
    copy { collector with
      new
      minspace
      old := collector.old.modify a fun object => { object with forward := some np } } =
      collector.copy.move a np object.node := by
  simp only [copy, Copy.move, Copy.mk.injEq, and_true]
  refine ⟨?_, ?_⟩
  · funext b
    rw [Spaces.get_modify (by rw [found]; rfl), Function.update_apply, found]
    split
    · rfl
    · rfl
  · funext b
    rw [allocates.get, Function.update_apply]
    split
    · rfl
    · rfl

/-- The state after `forward`, before the pointer is stored. -/
theorem Inv.forwarded (inv : Inv heap collector) {fuel : Nat} {slot : Slot Addr}
    {p q : Pointer Addr} {middle : Collector Data} (read : collector.copy.read slot = some p)
    (run : collector.forward fuel p = some (q, middle)) :
    Copy.Copying heap.graph (fun a => heap.spaces.isinspace a = true)
        (middle.copy.write slot q) ∧
      Copy.Linked (middle.copy.write slot q) ∧ middle.copy.read slot = some p ∧
      ∀ a, q = .heap a → heap.spaces.isinspace a = false := by
  rcases forward_cases run with ⟨outside, rfl, rfl⟩ |
      ⟨a, object, np, rfl, found, isForwarded, rfl, rfl⟩ |
      ⟨a, object, np, minspace, new, rfl, found, unforwarded, allocation, rfl, rfl⟩
  · rw [Copy.write_self read]
    exact ⟨inv.copying, inv.linked, read, fun a same => inv.isinspace a ▸ outside a same⟩
  all_goals
    have isOld : heap.spaces.isinspace a = true :=
      inv.isinspace a ▸ Spaces.isinspace_of_get found
  · have isForwarded : middle.copy.forwarded a = some np := by
      simp only [copy, found, Option.bind_some, isForwarded]
    refine ⟨inv.copying.write read isOld isForwarded, inv.linked.write read (inv.get_old isOld) _,
      read, ?_⟩
    rintro b same
    obtain rfl := Pointer.heap.inj same
    obtain ⟨-, copied, -, present, -⟩ := inv.copying.node a np isForwarded
    exact Bool.eq_false_iff.mpr (inv.copying.apart np (by rw [present]; rfl))
  · have allocates := Spaces.gcalloc_spec inv.nonempty allocation
    rw [copy_allocated collector found allocates]
    have fresh : collector.copy.get np = none := by
      simp only [copy, allocates.fresh, Option.map_none]
    have isNew : heap.spaces.isinspace np = false := by
      rw [Bool.eq_false_iff, ne_eq, Spaces.isinspace_iff]
      have last := allocates.last
      have base := allocates.base
      have newBase := inv.newBase
      have positive := List.length_pos_iff.mpr inv.nonempty
      have longer := allocates.length
      simp only [Spaces.limit] at last newBase
      omega
    have isNode : heap.graph.get a = some object.node := by
      refine (inv.source a).symm.trans ?_
      rw [found]
      rfl
    have unforwarded : collector.copy.forwarded a = none := by
      simp only [copy, found, Option.bind_some, unforwarded]
    have moved := inv.copying.move (inv.copying.reachable_of_read read isOld) isNode unforwarded
      fresh (by rw [isNew]; exact Bool.false_ne_true)
    have readMoved := Copy.read_move read object.node fresh (a := a)
    refine ⟨moved.write readMoved isOld (Copy.forwarded_move_self ..), ?_, readMoved, ?_⟩
    · refine inv.linked.move_write read (inv.get_old isOld) fresh ?_
      rintro rfl
      rw [isNew] at isOld
      cases isOld
    · rintro b same
      obtain rfl := Pointer.heap.inj same
      exact isNew

/-- The object a step copies, and where it is put. -/
structure Copies (collector middle : Collector Data) (p : Pointer Addr) (object : Object Data)
    (b : Addr) : Prop where
  source : ∃ a, p = .heap a ∧ collector.old.get a = some object
  unforwarded : object.forward = none
  allocates : Spaces.Allocates object collector.new middle.new b

/-- What `forward` leaves alone. -/
structure Frame (collector middle : Collector Data) : Prop where
  phase : middle.phase = collector.phase
  oldBase : middle.old.base = collector.old.base
  oldLength : middle.old.list.length = collector.old.list.length
  newBase : middle.new.base = collector.new.base
  newLength : collector.new.list.length ≤ middle.new.list.length
  source : ∀ a, (middle.old.get a).map Object.node = (collector.old.get a).map Object.node

theorem Frame.refl (collector : Collector Data) : Frame collector collector where
  phase := rfl
  oldBase := rfl
  oldLength := rfl
  newBase := rfl
  newLength := le_rfl
  source _ := rfl

/-- `forward` leaves the new spaces as they are, or copies one object into them. -/
theorem forward_frame {fuel : Nat} {p q : Pointer Addr} {middle : Collector Data}
    (nonempty : collector.new.list ≠ [])
    (run : collector.forward fuel p = some (q, middle)) :
    Frame collector middle ∧
      (middle.new = collector.new ∧
          (∀ a object, p = .heap a → collector.old.get a = some object → object.forward ≠ none) ∨
        ∃ object b, Copies collector middle p object b) := by
  rcases forward_cases run with ⟨outside, rfl, rfl⟩ |
      ⟨a, object, np, rfl, found, isForwarded, rfl, rfl⟩ |
      ⟨a, object, np, minspace, new, rfl, found, unforwarded, allocation, rfl, rfl⟩
  · refine ⟨.refl _, .inl ⟨rfl, ?_⟩⟩
    intro a object same found
    have inside := Spaces.isinspace_of_get found
    rw [outside a same] at inside
    cases inside
  · refine ⟨.refl _, .inl ⟨rfl, ?_⟩⟩
    intro a' object' same found'
    obtain rfl := Pointer.heap.inj same
    obtain rfl := Option.some.inj (found.symm.trans found')
    rw [isForwarded]
    nofun
  · have allocates := Spaces.gcalloc_spec nonempty allocation
    refine ⟨⟨rfl, rfl, Spaces.length_modify .., allocates.base, allocates.length, ?_⟩,
      .inr ⟨object, np, ⟨a, rfl, found⟩, unforwarded, allocates⟩⟩
    intro b
    rw [Spaces.get_modify (by rw [found]; rfl), found]
    split
    case isTrue same =>
      rw [same, found]
      rfl
    case isFalse => rfl

theorem Shape.mono {count count' : Nat} {phase : Phase} (shape : Shape count phase)
    (more : count ≤ count') : Shape count' phase := by
  cases phase with
  | scanspace scanned front sp scan field =>
    exact ⟨shape.1, shape.2.1, shape.2.2.1.trans more, shape.2.2.2⟩
  | _ => trivial

theorem Shape.next {count : Nat} {phase : Phase} (shape : Shape count phase) :
    Shape count (next phase) := by
  cases phase <;> exact shape

theorem put_new (collector : Collector Data) (slot : Slot Addr) (q : Pointer Addr) :
    (collector.put slot q).new.base = collector.new.base ∧
      (collector.put slot q).new.list.length = collector.new.list.length := by
  cases slot with
  | root i => exact ⟨rfl, rfl⟩
  | field b i => exact ⟨rfl, Spaces.length_modify ..⟩

theorem put_old (collector : Collector Data) (slot : Slot Addr) (q : Pointer Addr) :
    (collector.put slot q).old = collector.old := by
  cases slot <;> rfl

/-- One step keeps the invariant. -/
theorem Inv.step (inv : Inv heap collector) {fuel : Nat}
    (step : collector.step fuel = some collector') : Inv heap collector' := by
  rcases step_cases step with ⟨phase, moves, rfl⟩ | ⟨slot, p, q, middle, isSlot, read, run, rfl⟩
  · exact ⟨inv.oldBase, inv.oldLength, inv.newBase, inv.nonempty, inv.source, inv.untagged,
      inv.copying, inv.linked, moves.shape inv.nonempty inv.shape⟩
  obtain ⟨copying, linked, readMiddle, -⟩ := inv.forwarded read run
  obtain ⟨frame, copies⟩ := forward_frame inv.nonempty run
  have isCopy := copy_put readMiddle q
  obtain ⟨sameBase, sameLength⟩ := middle.put_new slot q
  have untagged : ∀ b object, middle.new.get b = some object → object.forward = none := by
    intro b object found
    rcases copies with ⟨same, -⟩ | ⟨copied, np, copies⟩
    · exact inv.untagged b object (same ▸ found)
    · rw [copies.allocates.get] at found
      split at found
      · obtain rfl := Option.some.inj found
        exact copies.unforwarded
      · exact inv.untagged b object found
  refine ⟨?_, ?_, ?_, ?_, ?_, ?_, ?_, ?_, ?_⟩
  · exact (congrArg Spaces.base (middle.put_old slot q)).trans (frame.oldBase.trans inv.oldBase)
  · exact (congrArg (fun spaces => spaces.list.length) (middle.put_old slot q)).trans
      (frame.oldLength.trans inv.oldLength)
  · exact sameBase.trans (frame.newBase.trans inv.newBase)
  · rw [← List.length_pos_iff]
    exact lt_of_lt_of_le (List.length_pos_iff.mpr inv.nonempty)
      (frame.newLength.trans (le_of_eq sameLength.symm))
  · intro a
    refine Eq.trans ?_ ((frame.source a).trans (inv.source a))
    rw [show Collector.old { middle.put slot q with phase := next collector.phase } =
      (middle.put slot q).old from rfl, put_old]
  · intro b object found
    cases slot with
    | root i => exact untagged b object found
    | field c i =>
      obtain ⟨written, present, -⟩ := present_of_read readMiddle
      have found : (middle.new.modify c fun object =>
        { object with fields := object.fields.set i q }).get b = some object := found
      rw [Spaces.get_modify (by rw [present]; rfl)] at found
      split at found
      · obtain ⟨before, isBefore, rfl⟩ := Option.map_eq_some_iff.mp found
        exact untagged c before isBefore
      · exact untagged b object found
  · exact isCopy ▸ copying
  · exact isCopy ▸ linked
  · have longer := frame.newLength.trans (le_of_eq sameLength.symm)
    exact (inv.shape.mono longer).next

/-! ### Copies that are left behind -/

/-- The passed slots have no pointers into the old spaces. -/
def Swept (collector : Collector Data) : Prop :=
  ∀ slot a, collector.copy.read slot = some (.heap a) →
    Passed collector.new.base collector.phase slot → collector.old.isinspace a = false

/-- If the next step of `scanspace` copies an object into the newest space, and the pass has
finished with that space and is at an older one, the object has no pointers into the old spaces. -/
def Harmless (collector : Collector Data) : Prop :=
  ∀ scanned front sp scan field a object,
    collector.phase = .scanspace scanned front sp scan field → sp ≠ scanned →
    collector.copy.read (.field (collector.scanned sp scan) field) = some (.heap a) →
    collector.old.get a = some object → object.forward = none →
    collector.new.fits object.nbytes = true →
    sp < front → collector.new.list.length = front →
    ∀ b, .heap b ∈ object.fields → collector.old.isinspace b = false

/-- A copy is put where the pass has been already exactly when the pass is at an older space than
the newest one and has not made the newest one itself, and the object fits. -/
theorem passed_allocated {middle : Collector Data} {slot : Slot Addr} {p : Pointer Addr}
    {object : Object Data} {b : Addr}
    (shape : Shape collector.new.list.length collector.phase)
    (isSlot : collector.slot = some slot) (read : collector.copy.read slot = some p)
    (allocates : Spaces.Allocates object collector.new middle.new b) (i : Nat) :
    Passed collector.new.base collector.phase (.field b i) ↔
      ∃ scanned front sp scan field, collector.phase = .scanspace scanned front sp scan field ∧
        collector.new.fits object.nbytes = true ∧ sp < front ∧
          collector.new.list.length = front := by
  have last := allocates.last
  have longer := allocates.length
  have sameBase := allocates.base
  unfold Collector.slot at isSlot
  split at isSlot
  case h_1 j isPhase => simp [isPhase, Passed]
  case h_3 => cases isSlot
  case h_2 scanned front sp scan field isPhase =>
    split at isSlot
    case isTrue => cases isSlot
    case isFalse more =>
      obtain rfl := Option.some.inj isSlot
      obtain ⟨current, present, -⟩ := present_of_read read
      have after : b.space + 1 = collector.new.base + sp → scan < b.index := by
        intro sameSpace
        have isSpace : b.space = collector.new.base + sp - 1 := by omega
        refine allocates.above scan ?_
        rw [isSpace, show (⟨collector.new.base + sp - 1, scan⟩ : Addr) =
          collector.scanned sp scan from rfl, present]
        rfl
      rw [isPhase] at shape ⊢
      simp only [Shape, Spaces.limit] at shape last
      constructor
      · intro passed
        simp only [Passed] at passed
        refine ⟨_, _, _, _, _, rfl, allocates.fits.mp ?_, ?_, ?_⟩ <;> omega
      · rintro ⟨scanned', front', sp', scan', field', same, fits, older, newest⟩
        cases same
        have kept := allocates.fits.mpr fits
        simp only [Passed]
        omega

/-- The pointers of a state after `forward`: those from before, and those of the copy. -/
theorem read_forward {middle : Collector Data} {p : Pointer Addr}
    (copies : middle.new = collector.new ∧
          (∀ a object, p = .heap a → collector.old.get a = some object → object.forward ≠ none) ∨
        ∃ object b, Copies collector middle p object b)
    (sameRoots : middle.roots = collector.roots) (slot : Slot Addr) (r : Pointer Addr) :
    middle.copy.read slot = some r ↔ collector.copy.read slot = some r ∨
      ∃ object b i, Copies collector middle p object b ∧ slot = .field b i ∧
        object.fields[i]? = some r := by
  rcases copies with ⟨same, uncopied⟩ | ⟨object, b, copies⟩
  · have unchanged : middle.copy.read slot = collector.copy.read slot := by
      cases slot with
      | root i => simp only [Copy.read, copy, sameRoots]
      | field b i => simp only [Copy.read, copy, same]
    rw [unchanged]
    refine ⟨.inl, fun either => either.resolve_right ?_⟩
    rintro ⟨object, b, i, copies, -⟩
    obtain ⟨a, isHeap, found⟩ := copies.source
    exact uncopied a object isHeap found copies.unforwarded
  · cases slot with
    | root i =>
      simp only [Copy.read, copy, sameRoots]
      refine ⟨.inl, fun either => either.resolve_right ?_⟩
      rintro ⟨object', b', j, -, isField, -⟩
      cases isField
    | field c i =>
      simp only [Copy.read, copy, copies.allocates.get]
      by_cases same : c = b
      · subst same
        rw [if_pos rfl, copies.allocates.fresh]
        simp only [Option.map_some, Option.bind_some, Option.map_none, Option.bind_none]
        constructor
        · intro here
          exact .inr ⟨object, c, i, copies, rfl, here⟩
        · rintro (contradiction | ⟨object', b', i', copies', isSlot, here⟩)
          · cases contradiction
          · cases isSlot
            obtain ⟨a, isHeap, found⟩ := copies.source
            obtain ⟨a', isHeap', found'⟩ := copies'.source
            obtain rfl := Pointer.heap.inj (isHeap.symm.trans isHeap')
            obtain rfl := Option.some.inj (found.symm.trans found')
            exact here
      · rw [if_neg same]
        refine ⟨.inl, fun either => either.resolve_right ?_⟩
        rintro ⟨object', b', i', copies', isSlot, -⟩
        cases isSlot
        have present := copies'.allocates.get c
        rw [copies.allocates.get, if_neg same, if_pos rfl, copies'.allocates.fresh] at present
        cases present

theorem roots_forward {fuel : Nat} {p q : Pointer Addr} {middle : Collector Data}
    (run : collector.forward fuel p = some (q, middle)) : middle.roots = collector.roots := by
  rcases forward_cases run with ⟨-, -, rfl⟩ | ⟨-, -, -, -, -, -, -, rfl⟩ |
      ⟨-, -, -, -, -, -, -, -, -, -, rfl⟩ <;> rfl

/-- What a step of `scanspace` forwards. -/
theorem slot_of_phase {scanned front sp scan field : Nat} {slot : Slot Addr}
    (isPhase : collector.phase = .scanspace scanned front sp scan field) :
    collector.slot = some slot ↔
      sp ≠ scanned ∧ slot = .field (collector.scanned sp scan) field := by
  rw [Collector.slot, isPhase]
  by_cases atEnd : sp = scanned
  · simp [atEnd]
  · simp [atEnd, eq_comm]

/-- When there is nothing to forward there is nothing to copy. -/
theorem Moves.harmless {phase : Phase} (moves : Moves collector phase) : Harmless collector := by
  intro scanned front sp scan field a object isPhase more read
  obtain ⟨object', present, here⟩ := present_of_read read
  cases moves with
  | begin isPhase' => cases isPhase.symm.trans isPhase'
  | finish isPhase' =>
    cases isPhase.symm.trans isPhase'
    exact absurd rfl more
  | pass isPhase' =>
    cases isPhase.symm.trans isPhase'
    exact absurd rfl more
  | space isPhase' _ absent =>
    cases isPhase.symm.trans isPhase'
    cases present.symm.trans absent
  | object isPhase' _ found absent =>
    cases isPhase.symm.trans isPhase'
    cases present.symm.trans found
    cases here.symm.trans absent

/-- Passed slots stay free of pointers into the old spaces in the steps that are harmless, and in
no others. -/
theorem Inv.swept_step (inv : Inv heap collector) {fuel : Nat}
    (step : collector.step fuel = some collector') :
    Swept collector' ↔ Swept collector ∧ Harmless collector := by
  have inv' := inv.step step
  rcases step_cases step with ⟨phase, moves, rfl⟩ | ⟨slot, p, q, middle, isSlot, read, run, rfl⟩
  · have same : ∀ slot a, collector.copy.read slot = some (.heap a) →
        (Passed collector.new.base phase slot ↔
          Passed collector.new.base collector.phase slot) :=
      fun slot a read => moves.passed_iff inv.shape read
    constructor
    · intro swept
      refine ⟨fun slot a read passed => ?_, moves.harmless⟩
      exact swept slot a read ((same slot a read).mpr passed)
    · rintro ⟨swept, -⟩ slot a read passed
      exact swept slot a read ((same slot a read).mp passed)
  obtain ⟨-, -, readMiddle, redirected⟩ := inv.forwarded read run
  obtain ⟨frame, copies⟩ := forward_frame inv.nonempty run
  have isCopy := copy_put readMiddle q
  have sameBase := (middle.put_new slot q).1.trans frame.newBase
  have reads := read_forward copies (roots_forward run)
  have passes := passed_next inv.shape isSlot
  set last : Collector Data := { middle.put slot q with phase := next collector.phase }
  have readLast : ∀ other, other ≠ slot → last.copy.read other = middle.copy.read other := by
    intro other different
    rw [show last.copy = middle.copy.write slot q from isCopy]
    exact Copy.read_write_of_ne different q
  have passedLast : ∀ other, Passed last.new.base last.phase other ↔
      Passed collector.new.base collector.phase other ∨ other = slot := by
    intro other
    rw [show last.new.base = collector.new.base from sameBase]
    exact passes other
  constructor
  · intro swept
    refine ⟨fun other a readOther passed => ?_, ?_⟩
    · have different : other ≠ slot := by
        rintro rfl
        exact not_passed_slot inv.shape isSlot passed
      rw [inv.isinspace, ← inv'.isinspace]
      refine swept other a ?_ ((passedLast other).mpr (.inl passed))
      rw [readLast other different, reads]
      exact .inl readOther
    · intro scanned front sp scan field a object isPhase more readA found unforwarded fits older
        newest b member
      obtain ⟨-, rfl⟩ := (slot_of_phase isPhase).mp isSlot
      obtain rfl := Option.some.inj (read.symm.trans readA)
      rcases copies with ⟨-, uncopied⟩ | ⟨object', np, copies⟩
      · exact absurd unforwarded (uncopied a object rfl found)
      obtain ⟨a', isHeap, found'⟩ := copies.source
      obtain rfl := Pointer.heap.inj isHeap
      obtain rfl := Option.some.inj (found.symm.trans found')
      obtain ⟨i, here⟩ := List.mem_iff_getElem?.mp member
      have different : Slot.field np i ≠ .field (collector.scanned sp scan) field := by
        intro same
        obtain ⟨current, present, -⟩ := present_of_read read
        rw [← (Slot.field.inj same).1, copies.allocates.fresh] at present
        cases present
      rw [inv.isinspace, ← inv'.isinspace]
      refine swept (.field np i) b ?_ ((passedLast _).mpr (.inl ?_))
      · rw [readLast _ different, reads]
        exact .inr ⟨object, np, i, copies, rfl, here⟩
      · rw [passed_allocated inv.shape isSlot read copies.allocates]
        exact ⟨_, _, _, _, _, isPhase, fits, older, newest⟩
  · rintro ⟨swept, harmless⟩ other a readOther passed
    rw [inv'.isinspace, ← inv.isinspace]
    by_cases same : other = slot
    · subst same
      rw [show last.copy = middle.copy.write other q from isCopy,
        Copy.read_write readMiddle] at readOther
      rw [inv.isinspace]
      exact redirected a (Option.some.inj readOther)
    rw [readLast other same, reads] at readOther
    have passed := ((passedLast other).mp passed).resolve_right same
    rcases readOther with before | ⟨object, np, i, copies, rfl, here⟩
    · exact swept other a before passed
    · obtain ⟨scanned, front, sp, scan, field, isPhase, fits, older, newest⟩ :=
        (passed_allocated inv.shape isSlot read copies.allocates i).mp passed
      obtain ⟨more, rfl⟩ := (slot_of_phase isPhase).mp isSlot
      obtain ⟨source, rfl, found⟩ := copies.source
      exact harmless scanned front sp scan field source object isPhase more read found
        copies.unforwarded fits older newest a (List.mem_of_getElem? here)

/-! ### One collection -/

/-- The steps of a collection. -/
def Steps (fuel : Nat) (collector collector' : Collector Data) : Prop :=
  collector.step fuel = some collector'

/-- At the end, passed slots are free of pointers into the old spaces if every step was harmless,
and not otherwise. -/
theorem Inv.run (inv : Inv heap collector) {fuel count : Nat}
    (result : collector.run fuel count = some collector') :
    Inv heap collector' ∧ collector'.phase = .done ∧ (Swept collector' ↔ Swept collector ∧
      ∀ state, Relation.ReflTransGen (Steps fuel) collector state → Harmless state) := by
  induction count generalizing collector with
  | zero => cases result
  | succ count inductionHypothesis =>
    rw [Collector.run] at result
    split at result
    case isTrue done =>
      obtain rfl := Option.some.inj result
      refine ⟨inv, done, ?_⟩
      have harmless : ∀ state, Relation.ReflTransGen (Steps fuel) collector state →
          Harmless state := by
        intro state reached
        rcases Relation.ReflTransGen.cases_head reached with rfl | ⟨next, step, -⟩
        · intro scanned front sp scan field a object isPhase
          cases done.symm.trans isPhase
        · rw [Steps, Collector.step, done] at step
          cases step
      exact ⟨fun swept => ⟨swept, harmless⟩, And.left⟩
    case isFalse =>
      obtain ⟨next, step, rest⟩ := Option.bind_eq_some_iff.mp result
      obtain ⟨inv', done, swept⟩ := inductionHypothesis (inv.step step) rest
      refine ⟨inv', done, ?_⟩
      rw [swept, inv.swept_step step]
      constructor
      · rintro ⟨⟨before, harmless⟩, later⟩
        refine ⟨before, fun state reached => ?_⟩
        rcases Relation.ReflTransGen.cases_head reached with rfl | ⟨next', step', rest'⟩
        · exact harmless
        · obtain rfl := Option.some.inj (step.symm.trans step')
          exact later state rest'
      · rintro ⟨before, all⟩
        exact ⟨⟨before, all collector .refl⟩, fun state reached => all state (.head step reached)⟩

end Collector

namespace GcHeap

variable {heap heap' : GcHeap Data}

/-- No object has been forwarded. -/
def Untagged (heap : GcHeap Data) : Prop :=
  ∀ a object, heap.spaces.get a = some object → object.forward = none

/-- What a collection may start from: no tag has been overwritten, and every pointer that can be
reached leads to an object. -/
structure WellFormed (heap : GcHeap Data) : Prop where
  untagged : heap.Untagged
  closed : heap.graph.Closed

/-- No pointer leads to a space that is still to be made. -/
def Bounded (heap : GcHeap Data) : Prop :=
  ∀ a, heap.graph.Reachable a → a.space < heap.spaces.limit

theorem isinspace_of_get (heap : GcHeap Data) {a : Addr} (present : (heap.graph.get a).isSome) :
    heap.spaces.isinspace a = true := by
  obtain ⟨node, found⟩ := Option.isSome_iff_exists.mp present
  obtain ⟨object, isObject, -⟩ := Option.map_eq_some_iff.mp found
  exact Spaces.isinspace_of_get isObject

theorem WellFormed.bounded (wellFormed : heap.WellFormed) : heap.Bounded := by
  intro a reachable
  exact ((heap.spaces.isinspace_iff a).mp
    (heap.isinspace_of_get (wellFormed.closed a reachable))).2

/-- Does a pointer lead to an object, if it is one of the heap? -/
def pointsIn (heap : GcHeap Data) : Pointer Addr → Bool
  | .heap a => (heap.spaces.get a).isSome
  | .other _ => true

/-- Are the tags of a space untouched, and do all pointers of its objects lead to objects? -/
def soundSpace (heap : GcHeap Data) (space : Space Data) : Bool :=
  space.objects.all fun object => object.forward.isNone && object.fields.all heap.pointsIn

theorem wellFormed_of_sound {heap : GcHeap Data} (roots : heap.roots.all heap.pointsIn = true)
    (spaces : heap.spaces.list.all heap.soundSpace = true) : heap.WellFormed := by
  rw [List.all_eq_true] at roots spaces
  have sound : ∀ a object, heap.spaces.get a = some object →
      object.forward = none ∧ ∀ p ∈ object.fields, heap.pointsIn p = true := by
    intro a object found
    obtain ⟨-, space, here, there⟩ := (heap.spaces.get_eq_some_iff a object).mp found
    have all := List.all_eq_true.mp (spaces space (List.mem_of_getElem? here)) object
      (List.mem_of_getElem? there)
    rw [Bool.and_eq_true, Option.isNone_iff_eq_none, List.all_eq_true] at all
    exact all
  have closed : ∀ {p : Pointer Addr} {a : Addr}, heap.pointsIn p = true → p = .heap a →
      (heap.graph.get a).isSome := by
    rintro p a points rfl
    simp only [graph, Option.isSome_map]
    exact points
  refine ⟨fun a object found => (sound a object found).1, fun a reachable => ?_⟩
  induction reachable with
  | root member => exact closed (roots _ member) rfl
  | field _ isNode member _ =>
    obtain ⟨object, found, rfl⟩ := Option.map_eq_some_iff.mp isNode
    exact closed ((sound _ object found).2 _ member) rfl

theorem inv_start (heap : GcHeap Data) (untagged : heap.Untagged) :
    Collector.Inv heap heap.start := by
  have absent : ∀ a, heap.start.new.get a = none := by
    intro a
    rw [start, Spaces.get_newspace]
    simp [Spaces.get]
  have isCopy : heap.start.copy = ⟨fun _ => none, fun _ => none, heap.graph.roots⟩ := by
    simp only [Collector.copy, Copy.mk.injEq]
    refine ⟨?_, ?_, rfl⟩
    · funext a
      cases found : heap.start.old.get a with
      | none => rfl
      | some object => exact untagged a object found
    · funext b
      rw [absent]
      rfl
  refine ⟨rfl, rfl, rfl, by simp [start, Spaces.newspace], fun _ => rfl, ?_, ?_, ?_, trivial⟩
  · intro b object found
    rw [absent] at found
    cases found
  · rw [isCopy]
    exact Copy.copying_start _ _
  · rw [isCopy]
    intro b present
    cases present

/-- No step of the collection leaves a copy behind. -/
def NothingLeft (fuel : Nat) (heap : GcHeap Data) : Prop :=
  ∀ state, Relation.ReflTransGen (Collector.Steps fuel) heap.start state → state.Harmless

/-- One collection: if the graph was closed and no copy is left behind, the new spaces hold the
graph; otherwise something reachable is missing. -/
theorem collect_spec {fuel : Nat} (untagged : heap.Untagged) (bounded : heap.Bounded)
    (run : heap.collect fuel = some heap') :
    heap'.Untagged ∧ heap'.Bounded ∧ heap'.spaces.base = heap.spaces.limit ∧
      (heap.graph.Closed → heap.NothingLeft fuel →
        ∃ f, Relocated heap.graph heap'.graph f) ∧
      (heap'.graph.Closed → heap.graph.Closed ∧ heap.NothingLeft fuel) := by
  obtain ⟨collector, result, rfl⟩ := Option.map_eq_some_iff.mp run
  obtain ⟨inv, done, swept⟩ := (inv_start heap untagged).run result
  have sweptStart : heap.start.Swept := by
    intro slot a _ passed
    cases slot with
    | root j => exact absurd passed (Nat.not_lt_zero j)
    | field b i => exact passed.elim
  have isSwept : (∀ slot a, collector.copy.read slot = some (.heap a) →
      ¬ heap.spaces.isinspace a = true) ↔ heap.NothingLeft fuel := by
    have left : collector.Swept ↔ heap.NothingLeft fuel :=
      swept.trans ⟨And.right, fun all => ⟨sweptStart, all⟩⟩
    rw [← left]
    constructor
    · intro clean slot a read _
      rw [inv.isinspace]
      exact Bool.eq_false_iff.mpr (clean slot a read)
    · intro swept slot a read
      rw [← inv.isinspace]
      exact Bool.eq_false_iff.mp (swept slot a read (by rw [done]; trivial))
  have inside : ∀ a, (heap.graph.get a).isSome → heap.spaces.isinspace a = true :=
    fun a => heap.isinspace_of_get
  have newSpace : ∀ b, (collector.copy.get b).isSome →
      heap.spaces.limit ≤ b.space ∧ b.space < collector.new.limit := by
    intro b present
    have isIn := (collector.new.isinspace_iff b).mp
      ((finish collector).isinspace_of_get present)
    exact ⟨inv.newBase ▸ isIn.1, isIn.2⟩
  have far : ∀ a, heap.graph.Reachable a → heap.graph.get a = none →
      collector.copy.get a = none := by
    intro a reachable _
    by_contra present
    have above := (newSpace a (Option.isSome_iff_ne_none.mpr present)).1
    exact absurd (bounded a reachable) (Nat.not_lt.mpr above)
  refine ⟨inv.untagged, ?_, inv.newBase, ?_, ?_⟩
  · intro a reachable
    rcases inv.copying.reachable_or_present reachable with before | present
    · have positive := List.length_pos_iff.mpr inv.nonempty
      have below := bounded a before
      have base := inv.newBase
      show a.space < collector.new.base + collector.new.list.length
      omega
    · exact (newSpace a present).2
  · intro closed left
    exact ⟨_, inv.copying.relocated inside closed (isSwept.mpr left)⟩
  · intro closed
    refine ⟨inv.copying.closed inv.linked inside far closed, isSwept.mp ?_⟩
    intro slot a read
    refine inv.copying.apart a (closed a ?_)
    refine Copy.reachable_of_slot ?_ read
    rintro c i rfl
    obtain ⟨object, present, -⟩ := Collector.present_of_read read
    refine inv.linked c ?_
    simp only [Collector.copy, present, Option.map_some, Option.isSome_some]

/-! ### The whole of `gc` -/

/-- A collection after which the loop of `gc` goes on. -/
def Again (fuel : Nat) (heap heap' : GcHeap Data) : Prop :=
  heap.collect fuel = some heap' ∧ heap'.spaces.list.length ≠ 1

/-- The heap is preserved: the reachable graph is found again in the new spaces, each object once,
and what is reachable now are objects there, none in the old spaces. -/
structure Preserves (heap heap' : GcHeap Data) : Prop where
  relocated : ∃ f, Relocated heap.graph heap'.graph f
  closed : heap'.graph.Closed
  freed : ∀ a, heap'.graph.Reachable a → heap.spaces.isinspace a = false

theorem gc_spec {fuel count : Nat} (untagged : heap.Untagged) (bounded : heap.Bounded)
    (run : heap.gc fuel count = some heap') :
    heap.spaces.limit ≤ heap'.spaces.base ∧
      (heap.graph.Closed →
        (∀ state, Relation.ReflTransGen (Again fuel) heap state → state.NothingLeft fuel) →
        heap'.graph.Closed ∧ ∃ f, Relocated heap.graph heap'.graph f) ∧
      (heap'.graph.Closed → heap.graph.Closed ∧
        ∀ state, Relation.ReflTransGen (Again fuel) heap state → state.NothingLeft fuel) := by
  induction count generalizing heap with
  | zero => cases run
  | succ count inductionHypothesis =>
    obtain ⟨next, collected, rest⟩ := Option.bind_eq_some_iff.mp run
    obtain ⟨untagged', bounded', base, moved, unmoved⟩ := collect_spec untagged bounded collected
    split at rest
    case isTrue single =>
      obtain rfl := Option.some.inj rest
      refine ⟨le_of_eq base.symm, ?_, ?_⟩
      · intro closed left
        obtain ⟨f, relocated⟩ := moved closed (left heap .refl)
        exact ⟨relocated.closed closed, f, relocated⟩
      · intro closed
        refine ⟨(unmoved closed).1, fun state reached => ?_⟩
        rcases Relation.ReflTransGen.cases_head reached with rfl | ⟨other, again, -⟩
        · exact (unmoved closed).2
        · obtain rfl := Option.some.inj (collected.symm.trans again.1)
          exact absurd single again.2
    case isFalse more =>
      obtain ⟨limit, preserved, unpreserved⟩ := inductionHypothesis untagged' bounded' rest
      have longer : next.spaces.base ≤ next.spaces.limit := Nat.le_add_right _ _
      refine ⟨by omega, ?_, ?_⟩
      · intro closed left
        obtain ⟨f, relocated⟩ := moved closed (left heap .refl)
        obtain ⟨closed', g, relocated'⟩ := preserved (relocated.closed closed)
          fun state reached => left state (.head ⟨collected, more⟩ reached)
        exact ⟨closed', g ∘ f, relocated.trans relocated' closed⟩
      · intro closed
        obtain ⟨closed', left⟩ := unpreserved closed
        refine ⟨(unmoved closed').1, fun state reached => ?_⟩
        rcases Relation.ReflTransGen.cases_head reached with rfl | ⟨other, again, rest⟩
        · exact (unmoved closed').2
        · obtain rfl := Option.some.inj (collected.symm.trans again.1)
          exact left state rest

/-- When `gc` returns it has preserved the heap exactly if none of its steps left a copy behind
that still pointed into the old spaces. -/
theorem gc_preserves_iff {fuel count : Nat} (wellFormed : heap.WellFormed)
    (run : heap.gc fuel count = some heap') :
    heap.Preserves heap' ↔
      ∀ state, Relation.ReflTransGen (Again fuel) heap state → state.NothingLeft fuel := by
  obtain ⟨limit, preserved, unpreserved⟩ := gc_spec wellFormed.untagged wellFormed.bounded run
  constructor
  · intro preserves
    exact (unpreserved preserves.closed).2
  · intro left
    obtain ⟨closed, relocated⟩ := preserved wellFormed.closed left
    refine ⟨relocated, closed, fun a reachable => ?_⟩
    have isNew := (heap'.spaces.isinspace_iff a).mp
      (heap'.isinspace_of_get (closed a reachable))
    rw [Bool.eq_false_iff, ne_eq, Spaces.isinspace_iff]
    simp only [Spaces.limit] at limit
    omega

/-- The heap of one string that a variable holds is preserved. -/
theorem gc_preserves_oneString :
    GcHeap.Preserves (⟨⟨0, [⟨10000, [⟨none, 2, (), []⟩]⟩]⟩, [.heap ⟨0, 0⟩], 10000⟩ : GcHeap Unit)
        ⟨⟨1, [⟨10000, [⟨none, 2, (), []⟩]⟩]⟩, [.heap ⟨1, 0⟩], 10000⟩ ↔
      ∀ state, Relation.ReflTransGen (Again 10)
        (⟨⟨0, [⟨10000, [⟨none, 2, (), []⟩]⟩]⟩, [.heap ⟨0, 0⟩], 10000⟩ : GcHeap Unit) state →
        state.NothingLeft 10 :=
  @gc_preserves_iff _ _ _ 10 1 (wellFormed_of_sound (by decide) (by decide)) (by decide +kernel)

/-! ### A heap that is not preserved -/

/-- A list cell and the closure it points to, whose string is the last of the first space; large
strings before the cell and in a second space. -/
def leavesBehind : GcHeap Unit where
  spaces := ⟨0, [
    ⟨10000, [⟨none, 5000, (), []⟩, ⟨none, 16, (), [.heap ⟨0, 2⟩, .other 0]⟩,
      ⟨none, 16, (), [.heap ⟨0, 3⟩, .other 0]⟩, ⟨none, 2, (), []⟩]⟩,
    ⟨10000, [⟨none, 5000, (), []⟩]⟩]⟩
  roots := [.heap ⟨0, 0⟩, .heap ⟨0, 1⟩, .heap ⟨1, 0⟩]
  minspace := 10000

/-- The closure is copied to the newest space while the older one is scanned. -/
def leftBehind : GcHeap Unit where
  spaces := ⟨4, [
    ⟨40256, [⟨none, 5000, (), []⟩, ⟨none, 16, (), [.heap ⟨4, 3⟩, .other 0]⟩,
      ⟨none, 5000, (), []⟩, ⟨none, 16, (), [.heap ⟨0, 3⟩, .other 0]⟩]⟩]⟩
  roots := [.heap ⟨4, 0⟩, .heap ⟨4, 1⟩, .heap ⟨4, 2⟩]
  minspace := 40256

set_option maxRecDepth 10000 in
theorem gc_leavesBehind : leavesBehind.gc 40 3 = some leftBehind := by decide +kernel

/-- The string of the closure is freed although it is reachable. -/
theorem not_preserves_leavesBehind :
    leavesBehind.WellFormed ∧ leavesBehind.gc 40 3 = some leftBehind ∧
      leftBehind.graph.Reachable ⟨0, 3⟩ ∧ ¬leavesBehind.Preserves leftBehind := by
  have cell : leftBehind.graph.Reachable ⟨4, 1⟩ := .root (by decide)
  have closure : leftBehind.graph.Reachable ⟨4, 3⟩ := .field cell rfl (by decide)
  have string : leftBehind.graph.Reachable ⟨0, 3⟩ := .field closure rfl (by decide)
  refine ⟨wellFormed_of_sound (by decide) (by decide), gc_leavesBehind, string, fun preserves => ?_⟩
  have freed := preserves.closed _ string
  rw [show leftBehind.graph.get ⟨0, 3⟩ = none from rfl] at freed
  cases freed

end GcHeap

end Desh
