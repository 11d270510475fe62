/-
This file is about doubly linked lists in memory. A chain is a list of cells
whose links lead from each to the next and back; it is said by recursion on the
list, with the link back out of its first cell. What the links mean to each
other, that no cell occurs twice and that the list is the only one there is
follow from that.
-/

import Mathlib.Data.List.Nodup
import Mathlib.Logic.Function.Basic

namespace Desh

/-! ### Cells -/

/-- A cell of a doubly linked list, with what it holds. -/
structure ListCell (Addr Data : Type) where
  next : Option Addr
  prev : Option Addr
  data : Data
  deriving DecidableEq

/-- What is allocated. -/
abbrev Memory (Addr Data : Type) := Addr → Option (ListCell Addr Data)

variable {Addr Data : Type}

namespace Memory

variable [DecidableEq Addr]

/-- Write to a cell. -/
def modify (memory : Memory Addr Data) (a : Addr) (f : ListCell Addr Data → ListCell Addr Data) :
    Memory Addr Data :=
  Function.update memory a ((memory a).map f)

/-- Set the link back of the cell a pointer leads to, if it is not null. -/
def setPrev (memory : Memory Addr Data) (p prev : Option Addr) : Memory Addr Data :=
  match p with
  | none => memory
  | some a => memory.modify a fun cell => { cell with prev }

/-- Set the link of the cell a pointer leads to, if it is not null. -/
def setNext (memory : Memory Addr Data) (p next : Option Addr) : Memory Addr Data :=
  match p with
  | none => memory
  | some a => memory.modify a fun cell => { cell with next }

theorem setPrev_apply (memory : Memory Addr Data) (p prev : Option Addr) (a : Addr) :
    memory.setPrev p prev a =
      (memory a).map fun cell => { cell with prev := if p = some a then prev else cell.prev } := by
  cases p with
  | none => cases found : memory a <;> simp [setPrev, found]
  | some b =>
    by_cases same : b = a
    · subst same
      simp [setPrev, modify]
    · rw [setPrev, modify, Function.update_of_ne (Ne.symm same)]
      cases found : memory a <;> simp [same]

theorem setPrev_apply_of_ne (memory : Memory Addr Data) {p prev : Option Addr} {a : Addr}
    (other : p ≠ some a) : memory.setPrev p prev a = memory a := by
  rw [setPrev_apply]
  cases memory a <;> simp [other]

theorem setNext_apply (memory : Memory Addr Data) (p next : Option Addr) (a : Addr) :
    memory.setNext p next a =
      (memory a).map fun cell => { cell with next := if p = some a then next else cell.next } := by
  cases p with
  | none => cases found : memory a <;> simp [setNext, found]
  | some b =>
    by_cases same : b = a
    · subst same
      simp [setNext, modify]
    · rw [setNext, modify, Function.update_of_ne (Ne.symm same)]
      cases found : memory a <;> simp [same]

end Memory

/-! ### Chains -/

/-- The cells from a pointer on, with their addresses. -/
def Chain (memory : Memory Addr Data) : Option Addr → Option Addr → List (Addr × Data) → Prop
  | _, start, [] => start = none
  | before, start, (a, data) :: rest =>
      start = some a ∧ ∃ next, memory a = some ⟨next, before, data⟩ ∧
        Chain memory (some a) next rest

namespace Chain

variable {memory memory' : Memory Addr Data} {before start : Option Addr}
  {list list' : List (Addr × Data)}

theorem congr (chain : Chain memory before start list)
    (same : ∀ cell ∈ list, memory' cell.1 = memory cell.1) : Chain memory' before start list := by
  induction list generalizing before start with
  | nil => exact chain
  | cons cell rest inductionHypothesis =>
    obtain ⟨isStart, next, found, tail⟩ := chain
    rw [List.forall_mem_cons] at same
    exact ⟨isStart, next, same.1.trans found, inductionHypothesis tail same.2⟩

/-- There is only one chain from a pointer on. -/
theorem unique {before' : Option Addr} (chain : Chain memory before start list)
    (chain' : Chain memory before' start list') : list = list' := by
  induction list generalizing before before' start list' with
  | nil =>
    cases list' with
    | nil => rfl
    | cons cell rest => cases chain.symm.trans chain'.1
  | cons cell rest inductionHypothesis =>
    obtain ⟨rfl, next, found, tail⟩ := chain
    cases list' with
    | nil => cases chain'
    | cons cell' rest' =>
      obtain ⟨same, next', found', tail'⟩ := chain'
      obtain ⟨a, data⟩ := cell
      obtain ⟨a', data'⟩ := cell'
      obtain rfl := Option.some.inj same
      obtain ⟨rfl, rfl, rfl⟩ := ListCell.mk.inj (Option.some.inj (found.symm.trans found'))
      rw [inductionHypothesis tail tail']

/-- The chain from a cell on. -/
theorem drop {front : List (Addr × Data)} {cell : Addr × Data} {rest : List (Addr × Data)}
    (chain : Chain memory before start (front ++ cell :: rest)) :
    ∃ before', Chain memory before' (some cell.1) (cell :: rest) := by
  induction front generalizing before start with
  | nil =>
    obtain ⟨isStart, more⟩ := chain
    exact ⟨before, rfl, more⟩
  | cons first front inductionHypothesis =>
    obtain ⟨-, next, -, tail⟩ := chain
    exact inductionHypothesis tail

/-- No cell occurs twice: the chains from the two occurrences on would be the same. -/
theorem nodup (chain : Chain memory before start list) : (list.map Prod.fst).Nodup := by
  induction list generalizing before start with
  | nil => exact List.nodup_nil
  | cons cell rest inductionHypothesis =>
    have whole := chain
    obtain ⟨isStart, next, found, tail⟩ := chain
    rw [List.map_cons, List.nodup_cons]
    refine ⟨?_, inductionHypothesis tail⟩
    intro member
    obtain ⟨other, inside, sameAddress⟩ := List.mem_map.mp member
    obtain ⟨front, back, rfl⟩ := List.append_of_mem inside
    obtain ⟨before', again⟩ := tail.drop
    rw [sameAddress, ← isStart] at again
    have sameLength := congrArg List.length (whole.unique again)
    rw [List.length_cons, List.length_append, List.length_cons] at sameLength
    omega

theorem ne_of_mem {cell : Addr × Data} (chain : Chain memory before start (cell :: list))
    {other : Addr × Data} (member : other ∈ list) : other.1 ≠ cell.1 := by
  intro same
  have distinct := chain.nodup
  rw [List.map_cons, List.nodup_cons] at distinct
  exact distinct.1 (List.mem_map.mpr ⟨other, member, same⟩)

/-- Every cell of a chain is allocated. -/
theorem get (chain : Chain memory before start list) {cell : Addr × Data} (member : cell ∈ list) :
    ∃ next prev, memory cell.1 = some ⟨next, prev, cell.2⟩ := by
  induction list generalizing before start with
  | nil => cases member
  | cons first rest inductionHypothesis =>
    obtain ⟨-, next, found, tail⟩ := chain
    rcases List.mem_cons.mp member with rfl | inRest
    · exact ⟨next, before, found⟩
    · exact inductionHypothesis tail inRest

/-- The links of a cell lead to cells of the chain, or out at its ends. -/
theorem links (chain : Chain memory before start list) {cell : Addr × Data} (member : cell ∈ list)
    {next prev : Option Addr} (found : memory cell.1 = some ⟨next, prev, cell.2⟩) :
    (prev = before ∨ ∃ other ∈ list, prev = some other.1) ∧
      ∀ a, next = some a → ∃ data next', (a, data) ∈ list ∧
        memory a = some ⟨next', some cell.1, data⟩ := by
  induction list generalizing before start with
  | nil => cases member
  | cons first rest inductionHypothesis =>
    obtain ⟨-, after, isFirst, tail⟩ := chain
    rcases List.mem_cons.mp member with rfl | inRest
    · obtain ⟨rfl, rfl, -⟩ := ListCell.mk.inj (Option.some.inj (isFirst.symm.trans found))
      refine ⟨.inl rfl, ?_⟩
      rintro a rfl
      cases rest with
      | nil => cases tail
      | cons second rest =>
        obtain ⟨same, next', isSecond, -⟩ := tail
        obtain rfl := Option.some.inj same
        exact ⟨second.2, next', List.mem_cons_of_mem _ List.mem_cons_self, isSecond⟩
    · obtain ⟨back, forth⟩ := inductionHypothesis tail inRest
      constructor
      · rcases back with rfl | ⟨other, inside, rfl⟩
        · exact .inr ⟨first, List.mem_cons_self, rfl⟩
        · exact .inr ⟨other, List.mem_cons_of_mem _ inside, rfl⟩
      · intro a isNext
        obtain ⟨data, next', inside, isA⟩ := forth a isNext
        exact ⟨data, next', List.mem_cons_of_mem _ inside, isA⟩

/-- The cell the link back of a cell leads to has that cell next. -/
theorem next_of_prev (chain : Chain memory before start list)
    (outside : ∀ cell ∈ list, before ≠ some cell.1) {a b : Addr × Data} (memberA : a ∈ list)
    (memberB : b ∈ list) {next next' prev prev' : Option Addr}
    (foundA : memory a.1 = some ⟨next, prev, a.2⟩) (foundB : memory b.1 = some ⟨next', prev', b.2⟩)
    (back : prev' = some a.1) : next = some b.1 := by
  induction list generalizing before start with
  | nil => cases memberA
  | cons first rest inductionHypothesis =>
    have whole := chain
    obtain ⟨-, after, isFirst, tail⟩ := chain
    rcases List.mem_cons.mp memberB with rfl | inRest
    · obtain ⟨-, rfl, -⟩ := ListCell.mk.inj (Option.some.inj (isFirst.symm.trans foundB))
      exact absurd back (outside a memberA)
    · rcases List.mem_cons.mp memberA with rfl | inRestA
      · obtain ⟨rfl, -, -⟩ := ListCell.mk.inj (Option.some.inj (isFirst.symm.trans foundA))
        cases rest with
        | nil => cases inRest
        | cons second rest =>
          obtain ⟨rfl, next'', isSecond, tail'⟩ := tail
          rcases List.mem_cons.mp inRest with rfl | deeper
          · rfl
          · -- the links back of the later cells do not lead to the first one
            obtain ⟨inside | ⟨other, inside, isOther⟩, -⟩ := tail'.links deeper foundB
            · rw [back] at inside
              exact absurd (Option.some.inj inside)
                (Ne.symm (whole.ne_of_mem List.mem_cons_self))
            · rw [back] at isOther
              exact absurd (Option.some.inj isOther).symm
                (whole.ne_of_mem (List.mem_cons_of_mem _ inside))
      · refine inductionHypothesis tail ?_ inRestA inRest
        intro cell inside same
        exact whole.ne_of_mem inside (Option.some.inj same).symm

/-! ### Changing a chain -/

/-- Writing to what the cells hold. -/
theorem mapData (chain : Chain memory before start list) (f : Addr → Data → Data)
    (written : ∀ cell ∈ list,
      memory' cell.1 = (memory cell.1).map fun c => { c with data := f cell.1 c.data }) :
    Chain memory' before start (list.map fun cell => (cell.1, f cell.1 cell.2)) := by
  induction list generalizing before start with
  | nil => exact chain
  | cons cell rest inductionHypothesis =>
    obtain ⟨isStart, next, found, tail⟩ := chain
    rw [List.forall_mem_cons] at written
    refine ⟨isStart, next, ?_, inductionHypothesis tail written.2⟩
    rw [written.1, found]
    rfl

section

variable [DecidableEq Addr]

/-- A new cell in front. -/
theorem push (chain : Chain memory before start list) {a : Addr} {data : Data}
    {before' : Option Addr} (fresh : ∀ cell ∈ list, cell.1 ≠ a)
    (isFirst : memory' a = some ⟨start, before', data⟩)
    (others : ∀ b ≠ a, memory' b = memory.setPrev start (some a) b) :
    Chain memory' before' (some a) ((a, data) :: list) := by
  refine ⟨rfl, start, isFirst, ?_⟩
  cases list with
  | nil => exact chain
  | cons cell rest =>
    have whole := chain
    obtain ⟨rfl, next, found, tail⟩ := chain
    rw [List.forall_mem_cons] at fresh
    refine ⟨rfl, next, ?_, tail.congr ?_⟩
    · rw [others _ fresh.1, Memory.setPrev_apply, found, Option.map_some, if_pos rfl]
    · intro other inside
      rw [others _ (fresh.2 other inside), Memory.setPrev_apply_of_ne]
      exact fun same => whole.ne_of_mem inside (Option.some.inj same).symm

/-- A pointer that leads past a cell that is taken out. -/
def skip (a : Addr) (past p : Option Addr) : Option Addr := if p = some a then past else p

/-- The links of the other cells lead past a cell that is taken out. -/
theorem skipping (chain : Chain memory before start list) {a : Addr} {next prev : Option Addr}
    (written : ∀ cell ∈ list, cell.1 ≠ a → memory' cell.1 = (memory cell.1).map fun c =>
      { c with next := skip a next c.next, prev := skip a prev c.prev })
    (links : ∀ cell, memory a = some cell → cell.next = next ∧ cell.prev = prev)
    (outside : before ≠ some a) :
    Chain memory' (skip a prev before) (skip a next start)
      (list.filter fun cell => cell.1 ≠ a) := by
  have after : ∀ {before : Option Addr} {start : Option Addr} {list : List (Addr × Data)},
      Chain memory before start list → (∀ cell ∈ list, cell.1 ≠ a) →
      (∀ cell ∈ list, memory' cell.1 = (memory cell.1).map fun c =>
        { c with next := skip a next c.next, prev := skip a prev c.prev }) →
      Chain memory' (skip a prev before) (skip a next start) list := by
    intro before start list chain others written
    induction list generalizing before start with
    | nil =>
      obtain rfl : start = none := chain
      rfl
    | cons cell rest inductionHypothesis =>
      obtain ⟨rfl, after, found, tail⟩ := chain
      rw [List.forall_mem_cons] at others written
      refine ⟨if_neg fun same => others.1 (Option.some.inj same), skip a next after, ?_, ?_⟩
      · rw [written.1, found]
        rfl
      · have rest := inductionHypothesis tail others.2 written.2
        rwa [skip, if_neg fun same => others.1 (Option.some.inj same)] at rest
  induction list generalizing before start with
  | nil =>
    obtain rfl : start = none := chain
    rfl
  | cons cell rest inductionHypothesis =>
    have whole := chain
    obtain ⟨rfl, next', found, tail⟩ := chain
    rw [List.forall_mem_cons] at written
    by_cases here : cell.1 = a
    · -- the rest of the chain starts where the cell's link leads
      subst here
      obtain ⟨isNext, isPrev⟩ := links _ found
      have distinct : ∀ other ∈ rest, other.1 ≠ cell.1 := fun other => whole.ne_of_mem
      have kept := after tail distinct fun other inside =>
        written.2 other inside (distinct other inside)
      rw [List.filter_cons_of_neg (by simp), List.filter_eq_self.mpr (by simpa using distinct)]
      have notItself : next' ≠ some cell.1 := by
        rintro rfl
        cases rest with
        | nil => cases tail
        | cons second rest =>
          exact whole.ne_of_mem List.mem_cons_self (Option.some.inj tail.1).symm
      rw [skip, if_pos rfl, skip, if_neg notItself] at kept
      rw [skip, if_neg outside, skip, if_pos rfl, ← isNext]
      rw [← isPrev] at kept
      exact kept
    · rw [List.filter_cons_of_pos (by simpa using here)]
      have kept := inductionHypothesis tail written.2 fun same => here (Option.some.inj same)
      refine ⟨if_neg fun same => here (Option.some.inj same), skip a next next', ?_, ?_⟩
      · rw [written.1 here, found]
        rfl
      · rwa [skip, if_neg fun same => here (Option.some.inj same)] at kept

/-- A cell is taken out: the cells before and after it are linked to each other. -/
theorem unlink (chain : Chain memory none start list) {cell : Addr × Data} (member : cell ∈ list)
    {next prev : Option Addr} (found : memory cell.1 = some ⟨next, prev, cell.2⟩) :
    Chain (Function.update ((memory.setPrev next prev).setNext prev next) cell.1 none) none
      (if prev = none then next else start) (list.filter fun other => other.1 ≠ cell.1) := by
  have written : ∀ other ∈ list, other.1 ≠ cell.1 →
      Function.update ((memory.setPrev next prev).setNext prev next) cell.1 none other.1 =
        (memory other.1).map fun c =>
          { c with next := skip cell.1 next c.next, prev := skip cell.1 prev c.prev } := by
    intro other inside different
    obtain ⟨next', prev', isOther⟩ := chain.get inside
    have noneOutside : ∀ cell ∈ list, (none : Option Addr) ≠ some cell.1 :=
      fun _ _ same => by cases same
    have isSuccessor : next = some other.1 ↔ prev' = some cell.1 := by
      constructor
      · intro forth
        obtain ⟨data, next'', -, again⟩ := (chain.links member found).2 _ forth
        exact (ListCell.mk.inj (Option.some.inj (isOther.symm.trans again))).2.1
      · exact chain.next_of_prev noneOutside member inside found isOther
    have isPredecessor : prev = some other.1 ↔ next' = some cell.1 := by
      constructor
      · exact chain.next_of_prev noneOutside inside member isOther found
      · intro forth
        obtain ⟨data, next'', -, again⟩ := (chain.links inside isOther).2 _ forth
        exact (ListCell.mk.inj (Option.some.inj (found.symm.trans again))).2.1
    rw [Function.update_of_ne different, Memory.setNext_apply, Memory.setPrev_apply, isOther]
    simp only [Option.map_some, skip, isSuccessor, isPredecessor]
  have links : ∀ c, memory cell.1 = some c → c.next = next ∧ c.prev = prev := by
    intro c isCell
    obtain rfl := Option.some.inj (found.symm.trans isCell)
    exact ⟨rfl, rfl⟩
  have kept := chain.skipping written links fun same => by cases same
  rw [skip, if_neg fun same => by cases same] at kept
  have isStart : start = some cell.1 ↔ prev = none := by
    cases list with
    | nil => cases member
    | cons first rest =>
      obtain ⟨rfl, next', isFirst, tail⟩ := id chain
      constructor
      · intro same
        rw [Option.some.inj same, found] at isFirst
        exact (ListCell.mk.inj (Option.some.inj isFirst)).2.1
      · rintro rfl
        rcases List.mem_cons.mp member with rfl | inRest
        · rfl
        · rcases (tail.links inRest found).1 with out | ⟨other, -, isOther⟩
          · cases out
          · cases isOther
  simp only [skip, isStart] at kept
  exact kept

end

end Chain

end Desh
