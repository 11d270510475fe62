/-
A library about graphs of objects that point at each other, and about moving
them: what it means that a graph is a copy of another one at new addresses, and
the state of a copying collector between the two, in which some objects have
been copied and some pointers redirected. Addresses and contents are arbitrary.
-/

import Mathlib.Tactic
import Mathlib.Data.List.Forall2

namespace Desh

/-! ### Graphs of objects -/

/-- A pointer to an object of the graph, or one that leads out of it. -/
inductive Pointer (Addr : Type) where
  | heap (a : Addr)
  | other (n : Nat)
  deriving DecidableEq

/-- What an object holds. -/
structure Node (Addr Data : Type) where
  data : Data
  fields : List (Pointer Addr)

structure Graph (Addr Data : Type) where
  get : Addr → Option (Node Addr Data)
  roots : List (Pointer Addr)

variable {Addr Data : Type}

namespace Graph

/-- The addresses a root or a field of a reachable object points at. -/
inductive Reachable (graph : Graph Addr Data) : Addr → Prop where
  | root {a : Addr} (member : .heap a ∈ graph.roots) : Reachable graph a
  | field {a b : Addr} {node : Node Addr Data} (reachable : Reachable graph a)
      (found : graph.get a = some node) (member : .heap b ∈ node.fields) : Reachable graph b

/-- Every reachable address has an object. -/
def Closed (graph : Graph Addr Data) : Prop := ∀ a, graph.Reachable a → (graph.get a).isSome

/-- A set that has the roots and is closed under the fields has everything reachable. -/
theorem Reachable.mem_of_closed {graph : Graph Addr Data} {inside : Addr → Prop}
    (roots : ∀ a, .heap a ∈ graph.roots → inside a)
    (fields : ∀ a node b, inside a → graph.get a = some node → .heap b ∈ node.fields → inside b)
    {a : Addr} (reachable : graph.Reachable a) : inside a := by
  induction reachable with
  | root member => exact roots _ member
  | field _ found member inductionHypothesis => exact fields _ _ _ inductionHypothesis found member

end Graph

/-! ### Copies of a graph -/

/-- A pointer after the objects have moved. -/
def Pointer.relocate (f : Addr → Addr) : Pointer Addr → Pointer Addr
  | heap a => heap (f a)
  | other n => other n

/-- The reachable part of the first graph is found again in the second, each object once and with
its contents, at the addresses `f` gives, and nothing else is there. -/
structure Relocated (graph graph' : Graph Addr Data) (f : Addr → Addr) : Prop where
  roots : graph'.roots = graph.roots.map (Pointer.relocate f)
  nodes : ∀ a node, graph.Reachable a → graph.get a = some node →
    graph'.get (f a) = some ⟨node.data, node.fields.map (Pointer.relocate f)⟩
  injective : ∀ a b, graph.Reachable a → graph.Reachable b → f a = f b → a = b
  onto : ∀ b, (graph'.get b).isSome → ∃ a, graph.Reachable a ∧ f a = b

namespace Relocated

variable {graph graph' graph'' : Graph Addr Data} {f g : Addr → Addr}

theorem mem_map_relocate {list : List (Pointer Addr)} {b : Addr} :
    .heap b ∈ list.map (Pointer.relocate f) ↔ ∃ a, .heap a ∈ list ∧ f a = b := by
  rw [List.mem_map]
  constructor
  · rintro ⟨p, member, same⟩
    cases p with
    | heap a =>
      obtain rfl : f a = b := Pointer.heap.inj same
      exact ⟨a, member, rfl⟩
    | other n => cases same
  · rintro ⟨a, member, rfl⟩
    exact ⟨.heap a, member, rfl⟩

theorem reachable (moved : Relocated graph graph' f) {a : Addr}
    (isReachable : graph.Reachable a) : graph'.Reachable (f a) := by
  induction isReachable with
  | root member =>
    refine .root ?_
    rw [moved.roots, mem_map_relocate]
    exact ⟨_, member, rfl⟩
  | field isReachable found member inductionHypothesis =>
    exact .field inductionHypothesis (moved.nodes _ _ isReachable found)
      (mem_map_relocate.mpr ⟨_, member, rfl⟩)

theorem exists_reachable (moved : Relocated graph graph' f) (closed : graph.Closed) {b : Addr}
    (isReachable : graph'.Reachable b) : ∃ a, graph.Reachable a ∧ f a = b := by
  induction isReachable with
  | root member =>
    rw [moved.roots, mem_map_relocate] at member
    obtain ⟨a, member, same⟩ := member
    exact ⟨a, .root member, same⟩
  | field isReachable found member inductionHypothesis =>
    obtain ⟨a, reachable, rfl⟩ := inductionHypothesis
    obtain ⟨node, isNode⟩ := Option.isSome_iff_exists.mp (closed a reachable)
    rw [moved.nodes a node reachable isNode] at found
    obtain rfl := Option.some.inj found
    obtain ⟨b, member, same⟩ := mem_map_relocate.mp member
    exact ⟨b, .field reachable isNode member, same⟩

theorem closed (moved : Relocated graph graph' f) (closed : graph.Closed) : graph'.Closed := by
  intro b isReachable
  obtain ⟨a, wasReachable, rfl⟩ := moved.exists_reachable closed isReachable
  obtain ⟨node, isNode⟩ := Option.isSome_iff_exists.mp (closed a wasReachable)
  rw [moved.nodes a node wasReachable isNode]
  rfl

theorem relocate_comp (p : Pointer Addr) :
    (p.relocate f).relocate g = p.relocate (g ∘ f) := by
  cases p <;> rfl

theorem trans (first : Relocated graph graph' f) (second : Relocated graph' graph'' g)
    (closed : graph.Closed) : Relocated graph graph'' (g ∘ f) where
  roots := by
    rw [second.roots, first.roots, List.map_map]
    exact List.map_congr_left fun p _ => relocate_comp p
  nodes a node isReachable found := by
    have middle := first.nodes a node isReachable found
    rw [Function.comp_apply, second.nodes _ _ (first.reachable isReachable) middle,
      List.map_map]
    congr 2
    exact List.map_congr_left fun p _ => relocate_comp p
  injective a b reachableA reachableB same :=
    first.injective a b reachableA reachableB
      (second.injective _ _ (first.reachable reachableA) (first.reachable reachableB)
        same)
  onto c present := by
    obtain ⟨b, middle, rfl⟩ := second.onto c present
    obtain ⟨a, isReachable, rfl⟩ := first.exists_reachable closed middle
    exact ⟨a, isReachable, rfl⟩

end Relocated

/-! ### Copying -/

/-- The state of a copying collector: where objects have been copied to, the copies, and the
roots. -/
structure Copy (Addr Data : Type) where
  forwarded : Addr → Option Addr
  get : Addr → Option (Node Addr Data)
  roots : List (Pointer Addr)

/-- The place of a pointer: a root, or a field of a copy. -/
inductive Slot (Addr : Type) where
  | root (i : Nat)
  | field (b : Addr) (i : Nat)

namespace Copy

/-- The graph of the copies. -/
def graph (copy : Copy Addr Data) : Graph Addr Data := ⟨copy.get, copy.roots⟩

/-- The pointer in a slot. -/
def read (copy : Copy Addr Data) : Slot Addr → Option (Pointer Addr)
  | .root i => copy.roots[i]?
  | .field b i => (copy.get b).bind fun node => node.fields[i]?

/-- A pointer is as it was, or leads to the copy. -/
def Translates (forwarded : Addr → Option Addr) (p q : Pointer Addr) : Prop :=
  q = p ∨ ∃ a b, p = .heap a ∧ forwarded a = some b ∧ q = .heap b

/-- What holds all the time while `graph` is copied out of the addresses in `old`. -/
structure Copying (graph : Graph Addr Data) (old : Addr → Prop) (copy : Copy Addr Data) :
    Prop where
  node : ∀ a b, copy.forwarded a = some b → ∃ node copied, graph.get a = some node ∧
    copy.get b = some copied ∧ copied.data = node.data ∧
    List.Forall₂ (Translates copy.forwarded) node.fields copied.fields
  reachable : ∀ a b, copy.forwarded a = some b → graph.Reachable a
  injective : ∀ a a' b, copy.forwarded a = some b → copy.forwarded a' = some b → a = a'
  onto : ∀ b, (copy.get b).isSome → ∃ a, copy.forwarded a = some b
  apart : ∀ b, (copy.get b).isSome → ¬ old b
  roots : List.Forall₂ (Translates copy.forwarded) graph.roots copy.roots

/-- Every copy is reachable among the copies. -/
def Linked (copy : Copy Addr Data) : Prop :=
  ∀ b, (copy.get b).isSome → copy.graph.Reachable b

variable {graph : Graph Addr Data} {old : Addr → Prop} {copy : Copy Addr Data}

/-- Nothing has been copied yet. -/
theorem copying_start (graph : Graph Addr Data) (old : Addr → Prop) :
    Copying graph old ⟨fun _ => none, fun _ => none, graph.roots⟩ where
  node _ _ := nofun
  reachable _ _ := nofun
  injective _ _ _ := nofun
  onto _ := nofun
  apart _ := nofun
  roots := List.forall₂_same.mpr fun _ _ => .inl rfl

theorem Translates.mono {forwarded forwarded' : Addr → Option Addr} {p q : Pointer Addr}
    (translates : Translates forwarded p q)
    (more : ∀ a b, forwarded a = some b → forwarded' a = some b) : Translates forwarded' p q := by
  rcases translates with same | ⟨a, b, isOld, isForwarded, isNew⟩
  · exact .inl same
  · exact .inr ⟨a, b, isOld, more a b isForwarded, isNew⟩

/-- A pointer into the addresses being copied from has not been redirected. -/
theorem Copying.eq_of_translates (copying : Copying graph old copy) {p : Pointer Addr} {a : Addr}
    (translates : Translates copy.forwarded p (.heap a)) (isOld : old a) : p = .heap a := by
  rcases translates with same | ⟨a', b, -, isForwarded, isNew⟩
  · exact same.symm
  · obtain rfl := Pointer.heap.inj isNew
    obtain ⟨-, copied, -, found, -⟩ := copying.node a' a isForwarded
    exact absurd isOld (copying.apart a (by rw [found]; rfl))

theorem getElem?_translates {forwarded : Addr → Option Addr} {list list' : List (Pointer Addr)}
    (translates : List.Forall₂ (Translates forwarded) list list') {i : Nat} {q : Pointer Addr}
    (here : list'[i]? = some q) : ∃ p, list[i]? = some p ∧ Translates forwarded p q := by
  obtain ⟨bound', isHere⟩ := List.getElem?_eq_some_iff.mp here
  have bound := translates.length_eq ▸ bound'
  have translates := (List.forall₂_iff_get.mp translates).2 i bound bound'
  rw [List.get_eq_getElem, List.get_eq_getElem, isHere] at translates
  exact ⟨list[i], List.getElem?_eq_getElem bound, translates⟩

/-- What is still to be redirected is reachable. -/
theorem Copying.reachable_of_read (copying : Copying graph old copy) {slot : Slot Addr} {a : Addr}
    (read : copy.read slot = some (.heap a)) (isOld : old a) : graph.Reachable a := by
  cases slot with
  | root i =>
    obtain ⟨p, here, translates⟩ := getElem?_translates copying.roots read
    rw [copying.eq_of_translates translates isOld] at here
    exact .root (List.mem_of_getElem? here)
  | field b i =>
    obtain ⟨copied, found, field⟩ := Option.bind_eq_some_iff.mp read
    obtain ⟨a', isForwarded⟩ := copying.onto b (by rw [found]; rfl)
    obtain ⟨node, copied', isNode, found', -, fields⟩ := copying.node a' b isForwarded
    obtain rfl := Option.some.inj (found.symm.trans found')
    obtain ⟨p, here, translates⟩ := getElem?_translates fields field
    rw [copying.eq_of_translates translates isOld] at here
    exact .field (copying.reachable a' b isForwarded) isNode (List.mem_of_getElem? here)

/-- What is reachable among the copies is a copy, or was reachable before. -/
theorem Copying.reachable_or_present (copying : Copying graph old copy) {a : Addr}
    (reachable : copy.graph.Reachable a) : graph.Reachable a ∨ (copy.get a).isSome := by
  have cases : ∀ p, Translates copy.forwarded p (.heap a) → p = .heap a ∨ (copy.get a).isSome := by
    rintro p (same | ⟨a', b, -, isForwarded, isNew⟩)
    · exact .inl same.symm
    · obtain rfl := Pointer.heap.inj isNew
      obtain ⟨-, copied, -, found, -⟩ := copying.node a' a isForwarded
      exact .inr (by rw [found]; rfl)
  cases reachable with
  | root member =>
    obtain ⟨i, here⟩ := List.mem_iff_getElem?.mp member
    obtain ⟨p, there, translates⟩ := getElem?_translates copying.roots here
    refine (cases p translates).imp_left fun same => .root ?_
    exact same ▸ List.mem_of_getElem? there
  | @field b _ copied _ found member =>
    have found : copy.get b = some copied := found
    obtain ⟨a', isForwarded⟩ := copying.onto b (by rw [found]; rfl)
    obtain ⟨node, copied', isNode, found', -, fields⟩ := copying.node a' b isForwarded
    obtain rfl := Option.some.inj (found.symm.trans found')
    obtain ⟨i, here⟩ := List.mem_iff_getElem?.mp member
    obtain ⟨p, there, translates⟩ := getElem?_translates fields here
    refine (cases p translates).imp_left fun same => ?_
    exact .field (copying.reachable a' b isForwarded) isNode
      (same ▸ List.mem_of_getElem? there)

/-! ### The steps of a collector -/

section

variable [DecidableEq Addr]

/-- Redirect the pointer in a slot. -/
def write (copy : Copy Addr Data) (slot : Slot Addr) (q : Pointer Addr) : Copy Addr Data :=
  match slot with
  | .root i => { copy with roots := copy.roots.set i q }
  | .field b i =>
      { copy with
        get := Function.update copy.get b
          ((copy.get b).map fun node => { node with fields := node.fields.set i q }) }

/-- Copy an object. -/
def move (copy : Copy Addr Data) (a b : Addr) (node : Node Addr Data) : Copy Addr Data :=
  { copy with
    forwarded := Function.update copy.forwarded a (some b)
    get := Function.update copy.get b (some node) }

theorem get_write (copy : Copy Addr Data) (slot : Slot Addr) (q : Pointer Addr) (c : Addr) :
    (copy.write slot q).get c = copy.get c ∨ ∃ i, slot = .field c i ∧
      (copy.write slot q).get c =
        (copy.get c).map fun node => { node with fields := node.fields.set i q } := by
  cases slot with
  | root i => exact .inl rfl
  | field b i =>
    by_cases same : c = b
    · subst same
      exact .inr ⟨i, rfl, Function.update_self ..⟩
    · exact .inl (Function.update_of_ne same ..)

theorem isSome_get_write (copy : Copy Addr Data) (slot : Slot Addr) (q : Pointer Addr) (c : Addr) :
    ((copy.write slot q).get c).isSome = (copy.get c).isSome := by
  rcases copy.get_write slot q c with same | ⟨i, -, changed⟩
  · rw [same]
  · rw [changed, Option.isSome_map]

@[simp] theorem forwarded_write (copy : Copy Addr Data) (slot : Slot Addr) (q : Pointer Addr) :
    (copy.write slot q).forwarded = copy.forwarded := by
  cases slot <;> rfl

@[simp] theorem forwarded_move_self (copy : Copy Addr Data) (a b : Addr) (node : Node Addr Data) :
    (copy.move a b node).forwarded a = some b :=
  Function.update_self ..

theorem forwarded_move_of_ne (copy : Copy Addr Data) {a c : Addr} (other : c ≠ a) (b : Addr)
    (node : Node Addr Data) : (copy.move a b node).forwarded c = copy.forwarded c :=
  Function.update_of_ne other ..

@[simp] theorem get_move_self (copy : Copy Addr Data) (a b : Addr) (node : Node Addr Data) :
    (copy.move a b node).get b = some node :=
  Function.update_self ..

theorem get_move_of_ne (copy : Copy Addr Data) {b c : Addr} (other : c ≠ b) (a : Addr)
    (node : Node Addr Data) : (copy.move a b node).get c = copy.get c :=
  Function.update_of_ne other ..

theorem forall₂_set {α β : Type} {related : α → β → Prop} {list : List α} {list' : List β}
    (each : List.Forall₂ related list list') {i : Nat} {b : β}
    (here : ∀ a, list[i]? = some a → related a b) :
    List.Forall₂ related list (list'.set i b) := by
  rw [List.forall₂_iff_get] at each ⊢
  refine ⟨by rw [List.length_set]; exact each.1, fun j bound bound' => ?_⟩
  rw [List.get_eq_getElem, List.get_eq_getElem, List.getElem_set]
  split
  case isTrue same =>
    subst same
    exact here _ (List.getElem?_eq_getElem bound)
  case isFalse => exact each.2 j bound (by simpa using bound')

/-- Objects stay reachable when a pointer that leads to no copy is redirected. -/
theorem reachable_write {slot : Slot Addr} {a : Addr} (read : copy.read slot = some (.heap a))
    (absent : copy.get a = none) (q : Pointer Addr) {c : Addr}
    (reachable : copy.graph.Reachable c) (present : (copy.get c).isSome) :
    (copy.write slot q).graph.Reachable c := by
  -- A pointer to a copy is not the one that is redirected.
  have kept : ∀ list : List (Pointer Addr), ∀ i, list[i]? = some (.heap a) → ∀ c,
      (copy.get c).isSome → .heap c ∈ list → .heap c ∈ list.set i q := by
    intro list i here c present member
    obtain ⟨j, there⟩ := List.mem_iff_getElem?.mp member
    refine List.mem_iff_getElem?.mpr ⟨j, ?_⟩
    rw [List.getElem?_set_ne, there]
    rintro rfl
    obtain rfl : a = c := Pointer.heap.inj (Option.some.inj (here.symm.trans there))
    rw [absent] at present
    cases present
  induction reachable with
  | @root c member =>
    refine .root ?_
    cases slot with
    | root i => exact kept _ i read c present member
    | field b i => exact member
  | @field b c node reachable found member inductionHypothesis =>
    have parent := inductionHypothesis (by
      rw [show copy.get b = some node from found]
      rfl)
    rcases copy.get_write slot q b with same | ⟨i, rfl, changed⟩
    · exact .field parent (same.trans found) member
    · have found : copy.get b = some node := found
      rw [found] at changed
      refine .field parent changed ?_
      rw [Copy.read, found] at read
      exact kept _ i read c present member

omit [DecidableEq Addr] in
/-- A slot that leads to an object makes it reachable. -/
theorem reachable_of_slot {slot : Slot Addr} {b : Addr}
    (linked : ∀ c i, slot = .field c i → copy.graph.Reachable c)
    (read : copy.read slot = some (.heap b)) : copy.graph.Reachable b := by
  cases slot with
  | root i => exact .root (List.mem_of_getElem? read)
  | field c i =>
    obtain ⟨node, found, field⟩ := Option.bind_eq_some_iff.mp read
    exact .field (linked c i rfl) found (List.mem_of_getElem? field)

theorem read_write {slot : Slot Addr} {p : Pointer Addr} (read : copy.read slot = some p)
    (q : Pointer Addr) : (copy.write slot q).read slot = some q := by
  cases slot with
  | root i =>
    exact List.getElem?_set_self (List.getElem?_eq_some_iff.mp read).1
  | field b i =>
    obtain ⟨node, found, field⟩ := Option.bind_eq_some_iff.mp read
    simp only [Copy.read, write, Function.update_self, found, Option.map_some, Option.bind_some]
    exact List.getElem?_set_self (List.getElem?_eq_some_iff.mp field).1

/-- The other slots keep their pointers. -/
theorem read_write_of_ne {slot other : Slot Addr} (different : other ≠ slot) (q : Pointer Addr) :
    (copy.write slot q).read other = copy.read other := by
  cases slot with
  | root i =>
    cases other with
    | root j =>
      have apart : i ≠ j := fun same => different (same ▸ rfl)
      exact List.getElem?_set_ne apart
    | field c j => rfl
  | field b i =>
    cases other with
    | root j => rfl
    | field c j =>
      rcases copy.get_write (.field b i) q c with same | ⟨i', isSlot, changed⟩
      · rw [Copy.read, same]
        rfl
      · cases isSlot
        have apart : i ≠ j := fun same => different (same ▸ rfl)
        rw [Copy.read, changed, Copy.read]
        cases copy.get b with
        | none => rfl
        | some node => exact List.getElem?_set_ne apart

theorem write_self {slot : Slot Addr} {p : Pointer Addr} (read : copy.read slot = some p) :
    copy.write slot p = copy := by
  have same : ∀ {list : List (Pointer Addr)} {i : Nat},
      list[i]? = some p → list.set i p = list := by
    intro list i here
    obtain ⟨bound, rfl⟩ := List.getElem?_eq_some_iff.mp here
    exact List.set_getElem_self bound
  cases slot with
  | root i => rw [write, same read]
  | field b i =>
    obtain ⟨node, found, field⟩ := Option.bind_eq_some_iff.mp read
    rw [write, found, Option.map_some, same field, ← found, Function.update_eq_self]

/-- Redirecting a pointer to the copy of its object. -/
theorem Copying.write (copying : Copying graph old copy) {slot : Slot Addr} {a b : Addr}
    (read : copy.read slot = some (.heap a)) (isOld : old a)
    (isForwarded : copy.forwarded a = some b) :
    Copying graph old (copy.write slot (.heap b)) := by
  have redirected : ∀ p, Translates copy.forwarded p (.heap a) →
      Translates copy.forwarded p (.heap b) := by
    intro p translates
    exact .inr ⟨a, b, copying.eq_of_translates translates isOld, isForwarded, rfl⟩
  have step : ∀ {list list' : List (Pointer Addr)} {i : Nat},
      List.Forall₂ (Translates copy.forwarded) list list' → list'[i]? = some (.heap a) →
        List.Forall₂ (Translates copy.forwarded) list (list'.set i (.heap b)) := by
    intro list list' i each here
    refine forall₂_set each fun p there => redirected p ?_
    obtain ⟨p', there', translates⟩ := getElem?_translates each here
    obtain rfl := Option.some.inj (there'.symm.trans there)
    exact translates
  refine ⟨?_, ?_, ?_, ?_, ?_, ?_⟩
  · intro a' b' forwarded'
    rw [forwarded_write] at forwarded' ⊢
    obtain ⟨node, copied, isNode, found, data, fields⟩ := copying.node a' b' forwarded'
    rcases copy.get_write slot (.heap b) b' with same | ⟨i, rfl, changed⟩
    · exact ⟨node, copied, isNode, same.trans found, data, fields⟩
    · rw [found] at changed
      rw [Copy.read, found] at read
      exact ⟨node, _, isNode, changed, data, step fields read⟩
  · intro a' b'
    rw [forwarded_write]
    exact copying.reachable a' b'
  · intro a' a'' b'
    rw [forwarded_write]
    exact copying.injective a' a'' b'
  · intro b' present
    rw [forwarded_write]
    exact copying.onto b' (by rwa [isSome_get_write] at present)
  · intro b' present
    exact copying.apart b' (by rwa [isSome_get_write] at present)
  · rw [forwarded_write]
    cases slot with
    | root i => exact step copying.roots read
    | field c i => exact copying.roots

/-- Copying an object that has no copy yet. -/
theorem Copying.move (copying : Copying graph old copy) {a b : Addr} {node : Node Addr Data}
    (reachable : graph.Reachable a) (isNode : graph.get a = some node)
    (unforwarded : copy.forwarded a = none) (fresh : copy.get b = none) (isNew : ¬ old b) :
    Copying graph old (copy.move a b node) := by
  have more : ∀ a' b', copy.forwarded a' = some b' →
      (copy.move a b node).forwarded a' = some b' := by
    intro a' b' isForwarded
    have other : a' ≠ a := by
      rintro rfl
      rw [unforwarded] at isForwarded
      cases isForwarded
    exact (copy.forwarded_move_of_ne other b node).trans isForwarded
  have cases : ∀ a' b', (copy.move a b node).forwarded a' = some b' →
      (a' = a ∧ b' = b) ∨ copy.forwarded a' = some b' := by
    intro a' b' isForwarded
    by_cases same : a' = a
    · subst same
      rw [forwarded_move_self] at isForwarded
      exact .inl ⟨rfl, (Option.some.inj isForwarded).symm⟩
    · rw [forwarded_move_of_ne copy same] at isForwarded
      exact .inr isForwarded
  have used : ∀ a' b', copy.forwarded a' = some b' → b' ≠ b := by
    rintro a' b' isForwarded rfl
    obtain ⟨-, copied, -, found, -⟩ := copying.node a' b' isForwarded
    rw [fresh] at found
    cases found
  refine ⟨?_, ?_, ?_, ?_, ?_, ?_⟩
  · intro a' b' isForwarded
    rcases cases a' b' isForwarded with ⟨rfl, rfl⟩ | before
    · refine ⟨node, node, isNode, get_move_self .., rfl, ?_⟩
      exact List.forall₂_same.mpr fun _ _ => .inl rfl
    · obtain ⟨node', copied, isNode', found, data, fields⟩ := copying.node a' b' before
      exact ⟨node', copied, isNode',
        (copy.get_move_of_ne (used a' b' before) a node).trans found, data,
        fields.imp fun _ _ translates => translates.mono more⟩
  · intro a' b' isForwarded
    rcases cases a' b' isForwarded with ⟨rfl, rfl⟩ | before
    · exact reachable
    · exact copying.reachable a' b' before
  · intro a' a'' b' first second
    rcases cases a' b' first with ⟨rfl, rfl⟩ | before
    · rcases cases a'' _ second with ⟨rfl, -⟩ | before'
      · rfl
      · exact absurd rfl (used a'' _ before')
    · rcases cases a'' b' second with ⟨rfl, rfl⟩ | before'
      · exact absurd rfl (used a' _ before)
      · exact copying.injective a' a'' b' before before'
  · intro b' present
    by_cases same : b' = b
    · subst same
      exact ⟨a, forwarded_move_self ..⟩
    · have before : (copy.get b').isSome := by
        rwa [get_move_of_ne copy same] at present
      obtain ⟨a', isForwarded⟩ := copying.onto b' before
      exact ⟨a', more a' b' isForwarded⟩
  · intro b' present
    by_cases same : b' = b
    · exact same ▸ isNew
    · refine copying.apart b' ?_
      rwa [get_move_of_ne copy same] at present
  · exact copying.roots.imp fun _ _ translates => translates.mono more

theorem Linked.write (linked : Linked copy) {slot : Slot Addr} {a : Addr}
    (read : copy.read slot = some (.heap a)) (absent : copy.get a = none) (q : Pointer Addr) :
    Linked (copy.write slot q) := by
  intro b present
  rw [isSome_get_write] at present
  exact reachable_write read absent q (linked b present) present

theorem read_move {slot : Slot Addr} {p : Pointer Addr} (read : copy.read slot = some p)
    {a b : Addr} (node : Node Addr Data) (fresh : copy.get b = none) :
    (copy.move a b node).read slot = some p := by
  cases slot with
  | root i => exact read
  | field c i =>
    have other : c ≠ b := by
      rintro rfl
      rw [Copy.read, fresh] at read
      cases read
    rw [Copy.read, get_move_of_ne copy other]
    exact read

/-- Copying an object and redirecting the pointer that led to it. -/
theorem Linked.move_write (linked : Linked copy) {slot : Slot Addr} {a b : Addr}
    {node : Node Addr Data} (read : copy.read slot = some (.heap a)) (absent : copy.get a = none)
    (fresh : copy.get b = none) (other : a ≠ b) :
    Linked ((copy.move a b node).write slot (.heap b)) := by
  have more : ∀ c, copy.graph.Reachable c → (copy.move a b node).graph.Reachable c := by
    intro c reachable
    induction reachable with
    | root member => exact .root member
    | @field c d node' _ found member inductionHypothesis =>
      refine .field inductionHypothesis ?_ member
      refine (copy.get_move_of_ne ?_ a node).trans found
      rintro rfl
      have found : copy.get c = some node' := found
      rw [fresh] at found
      cases found
  have moved := read_move read node fresh (a := a)
  have absent' : (copy.move a b node).get a = none :=
      (copy.get_move_of_ne other a node).trans absent
  have old : ∀ c, (copy.get c).isSome →
      ((copy.move a b node).write slot (.heap b)).graph.Reachable c := by
    intro c present
    have other : c ≠ b := by
      rintro rfl
      rw [fresh] at present
      cases present
    exact reachable_write moved absent' _ (more c (linked c present))
      (by rwa [get_move_of_ne copy other])
  intro c present
  by_cases same : c = b
  · subst same
    refine reachable_of_slot ?_ (read_write moved _)
    rintro d i rfl
    refine old d ?_
    obtain ⟨node', found, -⟩ := Option.bind_eq_some_iff.mp read
    rw [found]
    rfl
  · refine old c ?_
    rwa [isSome_get_write, get_move_of_ne copy same] at present

/-! ### The end of a collection -/

end

/-- When no pointer of the copies leads back, the copies are the graph. -/
theorem Copying.relocated (copying : Copying graph old copy)
    (inside : ∀ a, (graph.get a).isSome → old a) (closed : graph.Closed)
    (done : ∀ slot a, copy.read slot = some (.heap a) → ¬ old a) :
    Relocated graph copy.graph fun a => (copy.forwarded a).getD a := by
  have pointers : ∀ {list list' : List (Pointer Addr)},
      List.Forall₂ (Translates copy.forwarded) list list' →
      (∀ a, .heap a ∈ list → graph.Reachable a) → (∀ a, .heap a ∈ list' → ¬ old a) →
        (∀ a, .heap a ∈ list → (copy.forwarded a).isSome) ∧
          list' = list.map (Pointer.relocate fun a => (copy.forwarded a).getD a) := by
    intro list list' each reachable clean
    induction each with
    | nil => exact ⟨nofun, rfl⟩
    | @cons p q list list' translates _ inductionHypothesis =>
      obtain ⟨members, rest⟩ := inductionHypothesis
        (fun a member => reachable a (List.mem_cons_of_mem _ member))
        fun a member => clean a (List.mem_cons_of_mem _ member)
      have head : (∀ a, p = .heap a → (copy.forwarded a).isSome) ∧
          q = p.relocate fun a => (copy.forwarded a).getD a := by
        cases p with
        | other n =>
          rcases translates with same | ⟨a, -, isHeap, -⟩
          · exact ⟨nofun, same⟩
          · cases isHeap
        | heap a =>
          rcases translates with same | ⟨a', b, isHeap, isForwarded, isNew⟩
          · subst same
            exact absurd (inside a (closed a (reachable a List.mem_cons_self)))
              (clean a List.mem_cons_self)
          · obtain rfl := Pointer.heap.inj isHeap
            refine ⟨?_, ?_⟩
            · rintro a' same
              obtain rfl := Pointer.heap.inj same
              rw [isForwarded]
              rfl
            · rw [isNew, Pointer.relocate, isForwarded, Option.getD_some]
      refine ⟨?_, ?_⟩
      · intro a member
        rcases List.mem_cons.mp member with same | later
        · exact head.1 a same.symm
        · exact members a later
      · rw [List.map_cons, head.2, rest]
  have roots := pointers copying.roots (fun a member => .root member) fun a member => by
    obtain ⟨i, here⟩ := List.mem_iff_getElem?.mp member
    exact done (.root i) a here
  have fields : ∀ a b node copied, copy.forwarded a = some b → graph.get a = some node →
      copy.get b = some copied →
        List.Forall₂ (Translates copy.forwarded) node.fields copied.fields →
        (∀ a, .heap a ∈ node.fields → (copy.forwarded a).isSome) ∧ copied.fields =
          node.fields.map (Pointer.relocate fun a => (copy.forwarded a).getD a) := by
    intro a b node copied isForwarded isNode found each
    refine pointers each
      (fun c member => .field (copying.reachable a b isForwarded) isNode member) fun c member => ?_
    obtain ⟨i, here⟩ := List.mem_iff_getElem?.mp member
    exact done (.field b i) c (by rw [Copy.read, found]; exact here)
  have forwarded : ∀ a, graph.Reachable a → (copy.forwarded a).isSome := by
    intro a reachable
    refine reachable.mem_of_closed roots.1 ?_
    intro a node c isSome isNode member
    obtain ⟨b, isForwarded⟩ := Option.isSome_iff_exists.mp isSome
    obtain ⟨node', copied, isNode', found, -, each⟩ := copying.node a b isForwarded
    obtain rfl := Option.some.inj (isNode.symm.trans isNode')
    exact (fields a b node copied isForwarded isNode found each).1 c member
  refine ⟨roots.2, ?_, ?_, ?_⟩
  · intro a node reachable isNode
    obtain ⟨b, isForwarded⟩ := Option.isSome_iff_exists.mp (forwarded a reachable)
    obtain ⟨node', copied, isNode', found, data, each⟩ := copying.node a b isForwarded
    obtain rfl := Option.some.inj (isNode.symm.trans isNode')
    rw [isForwarded, Option.getD_some]
    refine found.trans ?_
    rw [← data, ← (fields a b node copied isForwarded isNode found each).2]
  · intro a a' reachable reachable' same
    obtain ⟨b, isForwarded⟩ := Option.isSome_iff_exists.mp (forwarded a reachable)
    obtain ⟨b', isForwarded'⟩ := Option.isSome_iff_exists.mp (forwarded a' reachable')
    rw [isForwarded, isForwarded', Option.getD_some, Option.getD_some] at same
    exact copying.injective a a' b isForwarded (same ▸ isForwarded')
  · intro b present
    obtain ⟨a, isForwarded⟩ := copying.onto b present
    exact ⟨a, copying.reachable a b isForwarded, by rw [isForwarded, Option.getD_some]⟩

/-- If the copies are closed, so was the graph. -/
theorem Copying.closed (copying : Copying graph old copy) (linked : Linked copy)
    (inside : ∀ a, (graph.get a).isSome → old a)
    (far : ∀ a, graph.Reachable a → graph.get a = none → copy.get a = none)
    (closed : copy.graph.Closed) : graph.Closed := by
  have step : ∀ a, graph.Reachable a → ∀ q, Translates copy.forwarded (.heap a) q →
      (∀ b, q = .heap b → copy.graph.Reachable b) → (copy.forwarded a).isSome := by
    intro a reachable q translates reaches
    rcases translates with rfl | ⟨a', b, isHeap, isForwarded, -⟩
    · have present : (copy.get a).isSome := closed a (reaches a rfl)
      cases found : graph.get a with
      | none =>
        rw [far a reachable found] at present
        cases present
      | some node => exact absurd (inside a (by rw [found]; rfl)) (copying.apart a present)
    · obtain rfl := Pointer.heap.inj isHeap
      rw [isForwarded]
      rfl
  have forwarded : ∀ a, graph.Reachable a → (copy.forwarded a).isSome := by
    intro a reachable
    induction reachable with
    | @root a member =>
      obtain ⟨i, here⟩ := List.mem_iff_getElem?.mp member
      obtain ⟨bound, -⟩ := List.getElem?_eq_some_iff.mp here
      have bound' := copying.roots.length_eq ▸ bound
      have translates := (List.forall₂_iff_get.mp copying.roots).2 i bound bound'
      rw [List.get_eq_getElem, (List.getElem?_eq_some_iff.mp here).2] at translates
      refine step a (.root member) _ translates fun b same => .root ?_
      exact same ▸ List.getElem_mem bound'
    | @field a c node reachable isNode member inductionHypothesis =>
      obtain ⟨b, isForwarded⟩ := Option.isSome_iff_exists.mp inductionHypothesis
      obtain ⟨node', copied, isNode', found, -, each⟩ := copying.node a b isForwarded
      obtain rfl := Option.some.inj (isNode.symm.trans isNode')
      obtain ⟨i, here⟩ := List.mem_iff_getElem?.mp member
      obtain ⟨bound, -⟩ := List.getElem?_eq_some_iff.mp here
      have bound' := each.length_eq ▸ bound
      have translates := (List.forall₂_iff_get.mp each).2 i bound bound'
      rw [List.get_eq_getElem, (List.getElem?_eq_some_iff.mp here).2] at translates
      refine step c (.field reachable isNode member) _ translates fun d same => ?_
      exact .field (linked b (by rw [found]; rfl)) found (same ▸ List.getElem_mem bound')
  intro a reachable
  obtain ⟨b, isForwarded⟩ := Option.isSome_iff_exists.mp (forwarded a reachable)
  obtain ⟨node, -, isNode, -⟩ := copying.node a b isForwarded
  rw [isNode]
  rfl

end Copy

end Desh
