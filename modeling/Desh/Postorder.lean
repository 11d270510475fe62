/-
This file has the order in which a walk through a graph leaves the nodes: each
one behind its children, and once. Nodes with the same key count as one.

The walk is given fuel. Where no path through the graph is infinite, enough of
it lets every walk end.
-/

import Mathlib.Tactic

namespace Postorder

variable {Node Key : Type} [DecidableEq Key] (key : Node → Key) (children : Node → List Node)

/-! ### The walk -/

/-- The nodes that have been left when a walk leaves `node`, where some have been before it. -/
def visit : Nat → List Node → Node → Option (List Node)
  | 0, _, _ => none
  | fuel + 1, before, node =>
      if key node ∈ before.map key then some before
      else ((children node).foldlM (visit fuel) before).map (· ++ [node])

/-- One walk after the other. -/
def visitAll (fuel : Nat) (before nodes : List Node) : Option (List Node) :=
  nodes.foldlM (visit key children fuel) before

/-- Children come before their parents, and nothing comes twice. -/
inductive Ordered : List Node → Prop
  | nil : Ordered []
  | snoc {before : List Node} {node : Node} (ordered : Ordered before)
      (fresh : key node ∉ before.map key)
      (below : ∀ child ∈ children node, key child ∈ before.map key) : Ordered (before ++ [node])

/-- There is a path from one node to the other. -/
abbrev Reaches : Node → Node → Prop :=
  Relation.ReflTransGen fun parent child => child ∈ children parent

variable {key children}

@[simp] theorem visitAll_nil (fuel : Nat) (before : List Node) :
    visitAll key children fuel before [] = some before := rfl

@[simp] theorem visitAll_cons (fuel : Nat) (before : List Node) (node : Node)
    (nodes : List Node) :
    visitAll key children fuel before (node :: nodes) =
      (visit key children fuel before node).bind fun after =>
        visitAll key children fuel after nodes := rfl

theorem visit_succ (fuel : Nat) (before : List Node) (node : Node) :
    visit key children (fuel + 1) before node =
      if key node ∈ before.map key then some before
      else (visitAll key children fuel before (children node)).map (· ++ [node]) := rfl

theorem visit_of_mem {fuel : Nat} {before : List Node} {node : Node}
    (found : key node ∈ before.map key) :
    visit key children (fuel + 1) before node = some before := by
  rw [visit_succ, if_pos found]

theorem visitAll_of_mem {fuel : Nat} {before nodes : List Node}
    (found : ∀ node ∈ nodes, key node ∈ before.map key) :
    visitAll key children (fuel + 1) before nodes = some before := by
  induction nodes with
  | nil => rfl
  | cons node nodes ih =>
    rw [List.forall_mem_cons] at found
    rw [visitAll_cons, visit_of_mem found.1, Option.bind_some, ih found.2]

/-! ### What a walk leaves -/

/-- A property that each walk passes on, several pass on. -/
theorem visitAll_induction {fuel : Nat} (property : List Node → Prop) {nodes : List Node}
    (step : ∀ node ∈ nodes, ∀ before after, visit key children fuel before node = some after →
      property before → property after)
    {before after : List Node} (visited : visitAll key children fuel before nodes = some after)
    (start : property before) : property after := by
  induction nodes generalizing before with
  | nil =>
    cases visited
    exact start
  | cons node nodes ih =>
    obtain ⟨middle, first, others⟩ := Option.bind_eq_some_iff.mp visited
    exact ih (fun other member => step other (.tail _ member)) others
      (step node (.head _) before middle first start)

theorem visit_isPrefix {fuel : Nat} {before after : List Node} {node : Node}
    (visited : visit key children fuel before node = some after) : before <+: after := by
  induction fuel generalizing before after node with
  | zero => cases visited
  | succ fuel ih =>
    rw [visit_succ] at visited
    split at visited
    · cases visited
      exact List.prefix_rfl
    · obtain ⟨below, others, rfl⟩ := Option.map_eq_some_iff.mp visited
      have grown : before <+: below :=
        visitAll_induction (before <+: ·)
          (fun node _ middle after visited grown => grown.trans (ih visited)) others
          List.prefix_rfl
      exact grown.trans (List.prefix_append _ _)

theorem visitAll_isPrefix {fuel : Nat} {before after nodes : List Node}
    (visited : visitAll key children fuel before nodes = some after) : before <+: after :=
  visitAll_induction (before <+: ·)
    (fun _ _ _ _ visited grown => grown.trans (visit_isPrefix visited)) visited List.prefix_rfl

theorem mem_of_visit {fuel : Nat} {before after : List Node} {node : Node}
    (visited : visit key children fuel before node = some after) :
    key node ∈ after.map key := by
  cases fuel with
  | zero => cases visited
  | succ fuel =>
    rw [visit_succ] at visited
    split at visited
    · cases visited
      assumption
    · obtain ⟨below, -, rfl⟩ := Option.map_eq_some_iff.mp visited
      simp

theorem mem_of_visitAll {fuel : Nat} {before after nodes : List Node}
    (visited : visitAll key children fuel before nodes = some after) :
    ∀ node ∈ nodes, key node ∈ after.map key := by
  induction nodes generalizing before with
  | nil => nofun
  | cons node nodes ih =>
    obtain ⟨middle, first, others⟩ := Option.bind_eq_some_iff.mp visited
    rw [List.forall_mem_cons]
    exact ⟨((visitAll_isPrefix others).map key).subset (mem_of_visit first), ih others⟩

theorem reaches_of_visit {fuel : Nat} {before after : List Node} {node other : Node}
    (visited : visit key children fuel before node = some after) (member : other ∈ after) :
    other ∈ before ∨ Reaches children node other := by
  induction fuel generalizing before after node with
  | zero => cases visited
  | succ fuel ih =>
    rw [visit_succ] at visited
    split at visited
    · cases visited
      exact .inl member
    · obtain ⟨below, others, rfl⟩ := Option.map_eq_some_iff.mp visited
      rcases List.mem_append.mp member with member | member
      · exact visitAll_induction
          (fun middle => other ∈ middle → other ∈ before ∨ Reaches children node other)
          (fun child isChild middle _ visited known member =>
            (ih visited member).elim known fun reaches => .inr (.head isChild reaches))
          others .inl member
      · exact .inr (List.mem_singleton.mp member ▸ .refl)

theorem reaches_of_visitAll {fuel : Nat} {before after nodes : List Node} {other : Node}
    (visited : visitAll key children fuel before nodes = some after) (member : other ∈ after) :
    other ∈ before ∨ ∃ node ∈ nodes, Reaches children node other :=
  visitAll_induction
    (fun middle => other ∈ middle → other ∈ before ∨ ∃ node ∈ nodes, Reaches children node other)
    (fun node isNode _ _ visited known member =>
      (reaches_of_visit visited member).elim known fun reaches => .inr ⟨node, isNode, reaches⟩)
    visited .inl member

section

variable (acyclic : ∀ node child other, child ∈ children node → Reaches children child other →
  key other ≠ key node)

include acyclic

/-- A walk keeps the order: no node is left below itself. -/
theorem Ordered.visit {fuel : Nat} {before after : List Node} {node : Node}
    (ordered : Ordered key children before)
    (visited : visit key children fuel before node = some after) : Ordered key children after := by
  induction fuel generalizing before after node with
  | zero => cases visited
  | succ fuel ih =>
    rw [visit_succ] at visited
    split at visited
    · cases visited
      exact ordered
    · rename_i fresh
      obtain ⟨below, others, rfl⟩ := Option.map_eq_some_iff.mp visited
      have kept : Ordered key children below :=
        visitAll_induction (Ordered key children)
          (fun _ _ _ _ visited ordered => ih ordered visited) others ordered
      refine kept.snoc (fun left => ?_) (mem_of_visitAll others)
      obtain ⟨other, member, same⟩ := List.mem_map.mp left
      rcases reaches_of_visitAll others member with old | ⟨child, isChild, reaches⟩
      · exact fresh (List.mem_map.mpr ⟨other, old, same⟩)
      · exact acyclic node child other isChild reaches same

theorem Ordered.visitAll {fuel : Nat} {before after nodes : List Node}
    (ordered : Ordered key children before)
    (visited : visitAll key children fuel before nodes = some after) :
    Ordered key children after :=
  visitAll_induction (Ordered key children)
    (fun _ _ _ _ visited ordered => ordered.visit acyclic visited) visited ordered

end

/-! ### Nodes in order -/

omit [DecidableEq Key] in
theorem Ordered.nodup {listed : List Node} (ordered : Ordered key children listed) :
    (listed.map key).Nodup := by
  induction ordered with
  | nil => exact List.nodup_nil
  | snoc _ fresh _ ih =>
    rw [List.map_append, List.map_singleton, ← List.concat_eq_append]
    exact ih.concat fresh

omit [DecidableEq Key] in
theorem Ordered.of_append {first second : List Node}
    (ordered : Ordered key children (first ++ second)) : Ordered key children first := by
  generalize same : first ++ second = listed at ordered
  induction ordered generalizing second with
  | nil =>
    obtain ⟨rfl, -⟩ := List.append_eq_nil_iff.mp same
    exact .nil
  | @snoc before node ordered fresh below ih =>
    rcases List.eq_nil_or_concat second with rfl | ⟨second, last, rfl⟩
    · rw [List.append_nil] at same
      exact same ▸ ordered.snoc fresh below
    · rw [List.concat_eq_append, ← List.append_assoc] at same
      exact ih (List.append_inj' same rfl).1

omit [DecidableEq Key] in
/-- What comes before a node has its children. -/
theorem Ordered.children_before {before after : List Node} {node : Node}
    (ordered : Ordered key children (before ++ node :: after)) :
    ∀ child ∈ children node, key child ∈ before.map key := by
  rw [List.append_cons] at ordered
  generalize same : before ++ [node] = listed at ordered
  have whole := ordered.of_append
  cases whole with
  | nil => simp at same
  | snoc _ _ below =>
    obtain ⟨rfl, last⟩ := List.append_inj' same rfl
    cases last
    exact below

omit [DecidableEq Key] in
theorem Ordered.children_mem {listed : List Node} (ordered : Ordered key children listed)
    {node : Node} (member : node ∈ listed) :
    ∀ child ∈ children node, key child ∈ listed.map key := by
  obtain ⟨before, after, rfl⟩ := List.append_of_mem member
  intro child isChild
  rw [List.map_append, List.mem_append]
  exact .inl (ordered.children_before child isChild)

/-! ### Fuel -/

/-- The walks from a node end, whatever has been left before. -/
def Ends (key : Node → Key) (children : Node → List Node) (enough : Nat) (node : Node) : Prop :=
  ∀ fuel ≥ enough, ∀ before, (visit key children fuel before node).isSome

theorem Ends.visitAll {enough fuel : Nat} {nodes : List Node}
    (ends : ∀ node ∈ nodes, Ends key children enough node) (within : enough ≤ fuel)
    (before : List Node) : (Postorder.visitAll key children fuel before nodes).isSome := by
  induction nodes generalizing before with
  | nil => rfl
  | cons node nodes ih =>
    rw [List.forall_mem_cons] at ends
    obtain ⟨after, visited⟩ := Option.isSome_iff_exists.mp (ends.1 fuel within before)
    rw [visitAll_cons, visited, Option.bind_some]
    exact ih ends.2 after

/-- One number for several nodes. -/
theorem exists_ends_all {nodes : List Node}
    (ends : ∀ node ∈ nodes, ∃ enough, Ends key children enough node) :
    ∃ enough, ∀ node ∈ nodes, Ends key children enough node := by
  induction nodes with
  | nil => exact ⟨0, nofun⟩
  | cons node nodes ih =>
    rw [List.forall_mem_cons] at ends
    obtain ⟨first, ended⟩ := ends.1
    obtain ⟨others, allEnded⟩ := ih ends.2
    refine ⟨max first others, List.forall_mem_cons.mpr ⟨fun fuel enough => ?_,
      fun node member fuel enough => ?_⟩⟩
    · exact ended fuel ((Nat.le_max_left ..).trans enough)
    · exact allEnded node member fuel ((Nat.le_max_right ..).trans enough)

/-- Where no path is infinite, every walk ends. -/
theorem exists_ends (key : Node → Key)
    (wellFounded : WellFounded fun child parent => child ∈ children parent) (node : Node) :
    ∃ enough, Ends key children enough node := by
  induction node using wellFounded.induction with
  | _ node ih =>
    obtain ⟨enough, ends⟩ := exists_ends_all ih
    refine ⟨enough + 1, fun fuel more before => ?_⟩
    obtain ⟨fuel, rfl⟩ := Nat.exists_eq_add_of_le' more
    rw [← Nat.add_assoc, visit_succ]
    split
    · rfl
    · rw [Option.isSome_map]
      exact Ends.visitAll ends (Nat.le_add_left ..) before

end Postorder
