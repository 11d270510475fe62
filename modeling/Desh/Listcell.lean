/-
This file models the cells that lists are made of (`list.c`), in an explicit
store. A list is a reference to its first cell, so that two lists can share a
tail. It also has the two rewritings of a list in place that primitives do to
the list they are given (`prim-io.c`).
-/

import Mathlib.Data.List.Nodup

namespace Desh

/-! ### Cells -/

/-- `List *`, not null. -/
abbrev ListRef := Nat

/-- `List`. -/
structure ListNode (Term : Type) where
  term : Term
  next : Option ListRef
  deriving DecidableEq

abbrev ListStore (Term : Type) := List (ListNode Term)

section

variable {Term : Type}

/-- The cells of a list of at most so many, from the first to the last. -/
def walkCells (store : ListStore Term) : Nat → Option ListRef →
    Option (List (ListRef × ListNode Term))
  | _, none => some []
  | 0, some _ => none
  | n + 1, some ref => do
      let cell ← store[ref]?
      let rest ← walkCells store n cell.next
      some ((ref, cell) :: rest)

/-- The cells of a list, `none` where it does not end. -/
def cells (store : ListStore Term) (list : Option ListRef) :
    Option (List (ListRef × ListNode Term)) :=
  walkCells store store.length list

/-- The cells that `append` makes, at addresses from `base` on. -/
def copiedCells (tail : Option ListRef) : Nat → List Term → List (ListNode Term)
  | _, [] => []
  | _, [term] => [⟨term, tail⟩]
  | base, term :: terms => ⟨term, some (base + 1)⟩ :: copiedCells tail (base + 1) terms

/-- `append`, of a list with these terms: only the tail is shared. -/
def append (terms : List Term) (tail : Option ListRef) (store : ListStore Term) :
    Option ListRef × ListStore Term :=
  (if terms.isEmpty then tail else some store.length,
    store ++ copiedCells tail store.length terms)

/-- The test and the transposition of `prim_openfile`: the list it hands to `redir`, or `none` when
the number of arguments is wrong. -/
def transpose (list : Option ListRef) (store : ListStore Term) :
    Option (Option ListRef × ListStore Term) :=
  match cells store list with
  | some [(first, cell), (lp, next), _, _] =>
      some (some lp,
        (store.set first ⟨cell.term, next.next⟩).set lp ⟨next.term, some first⟩)
  | some _ => some (none, store)
  | none => none

/-- The loop of `redir_here`, and its assignment to `*tailp`: the words of the document and the
cell of the command. -/
def truncate (list : ListRef) (store : ListStore Term) :
    Option ((Option ListRef × ListRef) × ListStore Term) :=
  (cells store (some list)).bind fun found =>
    match found.reverse with
    | [] => none
    | [(tail, _)] => some ((none, tail), store)
    | (tail, _) :: (last, cell) :: _ =>
        some ((some list, tail), store.set last ⟨cell.term, none⟩)

end

/-! ### Following a list -/

section

variable {Term : Type} {store later : ListStore Term} {n m : Nat} {list : Option ListRef}
  {found : List (ListRef × ListNode Term)}

theorem walkCells_cons {ref : ListRef} {cell : ListNode Term} :
    walkCells store (n + 1) list = some ((ref, cell) :: found) ↔
      list = some ref ∧ store[ref]? = some cell ∧ walkCells store n cell.next = some found := by
  cases list with
  | none => simp [walkCells]
  | some first =>
    simp only [walkCells, Option.bind_eq_bind, Option.bind_eq_some_iff, Option.some.injEq,
      List.cons.injEq, Prod.mk.injEq]
    constructor
    · rintro ⟨_, get, _, walk, ⟨rfl, rfl⟩, rfl⟩
      exact ⟨rfl, get, walk⟩
    · rintro ⟨rfl, get, walk⟩
      exact ⟨cell, get, found, walk, ⟨rfl, rfl⟩, rfl⟩

theorem walkCells_zero {entry : ListRef × ListNode Term} :
    walkCells store 0 list ≠ some (entry :: found) := by
  cases list <;> simp [walkCells]

theorem walkCells_nil : walkCells store n list = some [] ↔ list = none := by
  cases list with
  | none => cases n <;> simp [walkCells]
  | some ref =>
    cases n with
    | zero => simp [walkCells]
    | succ n =>
      refine ⟨fun walk => ?_, nofun⟩
      obtain ⟨_, -, rest⟩ := Option.bind_eq_some_iff.mp walk
      obtain ⟨_, -, ended⟩ := Option.bind_eq_some_iff.mp rest
      cases ended

/-- The same cells are followed in another store, and with more of them allowed. -/
theorem walkCells_of_kept (walk : walkCells store n list = some found) (more : n ≤ m)
    (kept : ∀ entry ∈ found, later[entry.1]? = some entry.2) :
    walkCells later m list = some found := by
  induction found generalizing n m list with
  | nil => exact walkCells_nil.2 (walkCells_nil.1 walk)
  | cons entry found ih =>
    obtain ⟨ref, cell⟩ := entry
    cases n with
    | zero => exact absurd walk walkCells_zero
    | succ n =>
      obtain ⟨m, rfl⟩ : ∃ k, m = k + 1 := ⟨m - 1, by omega⟩
      obtain ⟨rfl, -, rest⟩ := walkCells_cons.1 walk
      refine walkCells_cons.2 ⟨rfl, kept _ List.mem_cons_self, ?_⟩
      exact ih rest (by omega) fun entry member => kept entry (List.mem_cons_of_mem _ member)

theorem walkCells_get (walk : walkCells store n list = some found) :
    ∀ entry ∈ found, store[entry.1]? = some entry.2 := by
  induction found generalizing n list with
  | nil => exact fun entry member => nomatch member
  | cons entry found ih =>
    obtain ⟨ref, cell⟩ := entry
    cases n with
    | zero => exact absurd walk walkCells_zero
    | succ n =>
      obtain ⟨-, get, rest⟩ := walkCells_cons.1 walk
      exact List.forall_mem_cons.mpr ⟨get, ih rest⟩

theorem walkCells_more (walk : walkCells store n list = some found) (more : n ≤ m) :
    walkCells store m list = some found :=
  walkCells_of_kept walk more (walkCells_get walk)

theorem walkCells_suffix {init : List (ListRef × ListNode Term)} {ref : ListRef}
    {cell : ListNode Term} (walk : walkCells store n list = some (init ++ (ref, cell) :: found)) :
    walkCells store n (some ref) = some ((ref, cell) :: found) := by
  induction init generalizing n list with
  | nil =>
    cases n with
    | zero => exact absurd walk walkCells_zero
    | succ n =>
      obtain ⟨rfl, -, -⟩ := walkCells_cons.1 walk
      exact walk
  | cons entry init ih =>
    cases n with
    | zero => exact absurd walk walkCells_zero
    | succ n =>
      obtain ⟨-, -, rest⟩ := walkCells_cons.1 walk
      exact walkCells_more (ih rest) (Nat.le_succ n)

theorem walkCells_next (init : List (ListRef × ListNode Term))
    {first second : ListRef × ListNode Term}
    (walk : walkCells store n list = some (init ++ first :: second :: found)) :
    first.2.next = some second.1 := by
  have suffix := walkCells_suffix walk
  cases n with
  | zero => exact absurd suffix walkCells_zero
  | succ n =>
    obtain ⟨-, -, rest⟩ := walkCells_cons.1 suffix
    cases n with
    | zero => exact absurd rest walkCells_zero
    | succ n => exact (walkCells_cons.1 rest).1

/-- No cell is twice on a list that ends. -/
theorem walkCells_nodup (walk : walkCells store n list = some found) :
    (found.map Prod.fst).Nodup := by
  induction found generalizing n list with
  | nil => exact List.nodup_nil
  | cons entry found ih =>
    obtain ⟨ref, cell⟩ := entry
    cases n with
    | zero => exact absurd walk walkCells_zero
    | succ n =>
      have whole := walk
      obtain ⟨rfl, -, rest⟩ := walkCells_cons.1 walk
      rw [List.map_cons, List.nodup_cons]
      refine ⟨fun member => ?_, ih rest⟩
      obtain ⟨⟨_, again⟩, inside, rfl⟩ := List.mem_map.mp member
      obtain ⟨init, tail, rfl⟩ := List.append_of_mem inside
      have shorter := walkCells_more (walkCells_suffix rest) (Nat.le_succ n)
      rw [whole] at shorter
      have lengths := congrArg List.length (Option.some.inj shorter)
      simp only [List.length_cons, List.length_append] at lengths
      omega

end

/-! ### Cells that stay as they are -/

section

variable {Term : Type} {store : ListStore Term} {held : List (ListRef × ListNode Term)}

/-- The cells have the terms and the next pointers they had. -/
def Unaltered (held : List (ListRef × ListNode Term)) (store : ListStore Term) : Prop :=
  ∀ entry ∈ held, store[entry.1]? = some entry.2

theorem Unaltered.append (unaltered : Unaltered held store) (terms : List Term)
    (tail : Option ListRef) : Unaltered held (append terms tail store).2 := by
  intro entry member
  have get := unaltered entry member
  have inside : entry.1 < store.length := (List.getElem?_eq_some_iff.mp get).1
  rw [Desh.append, List.getElem?_append_left inside]
  exact get

theorem Unaltered.set (unaltered : Unaltered held store) {ref : ListRef}
    (other : ref ∉ held.map Prod.fst) (cell : ListNode Term) :
    Unaltered held (store.set ref cell) := by
  intro entry member
  have ne : ref ≠ entry.1 := fun same => other (same ▸ List.mem_map_of_mem member)
  rw [List.getElem?_set_ne ne]
  exact unaltered entry member

/-- A list whose cells are unaltered is followed as before. -/
theorem Unaltered.cells {before : ListStore Term} {list : Option ListRef}
    (listed : cells before list = some held) (longer : before.length ≤ store.length)
    (unaltered : Unaltered held store) : Desh.cells store list = some held :=
  walkCells_of_kept listed longer unaltered

/-- A transposition would rewrite one of the cells. -/
def Transposes (held : List (ListRef × ListNode Term)) (list : Option ListRef)
    (store : ListStore Term) : Prop :=
  ∃ first second third fourth, cells store list = some [first, second, third, fourth] ∧
    (first.1 ∈ held.map Prod.fst ∨ second.1 ∈ held.map Prod.fst)

/-- A truncation would rewrite one of the cells. -/
def Truncates (held : List (ListRef × ListNode Term)) (list : ListRef) (store : ListStore Term) :
    Prop :=
  ∃ init last tail, cells store (some list) = some (init ++ [last, tail]) ∧
    last.1 ∈ held.map Prod.fst

theorem Unaltered.not_set (unaltered : Unaltered held store) {ref : ListRef}
    {old : ListNode Term} (get : store[ref]? = some old) (member : ref ∈ held.map Prod.fst)
    {cell : ListNode Term} (ne : cell ≠ old) {later : ListStore Term}
    (written : later[ref]? = some cell) : ¬Unaltered held later := by
  intro kept
  obtain ⟨entry, inside, rfl⟩ := List.mem_map.mp member
  have before := unaltered entry inside
  have after := kept entry inside
  rw [get] at before
  rw [written, ← before] at after
  exact ne (Option.some.inj after)

/-- A transposition leaves the cells as they are, unless it rewrites one of them. -/
theorem transpose_unaltered_iff {list lp : Option ListRef} {later : ListStore Term}
    (unaltered : Unaltered held store) (done : transpose list store = some (lp, later)) :
    Unaltered held later ↔ ¬Transposes held list store := by
  unfold transpose at done
  split at done
  · rename_i first cell second next third fourth listed
    cases done
    have distinct := walkCells_nodup listed
    have nextFirst : cell.next = some second := walkCells_next [] listed
    have nextSecond : next.next = some third.1 := walkCells_next [(first, cell)] listed
    have getFirst : store[first]? = some cell :=
      walkCells_get listed (first, cell) List.mem_cons_self
    have getSecond : store[second]? = some next :=
      walkCells_get listed (second, next) (List.mem_cons_of_mem _ List.mem_cons_self)
    simp only [List.map_cons, List.map_nil, List.nodup_cons, List.mem_cons, not_or] at distinct
    have firstSecond : first ≠ second := distinct.1.1
    have firstThird : first ≠ third.1 := distinct.1.2.1
    have secondThird : second ≠ third.1 := distinct.2.1.1
    have inFirst : first < store.length := (List.getElem?_eq_some_iff.mp getFirst).1
    have inSecond : second < store.length := (List.getElem?_eq_some_iff.mp getSecond).1
    constructor
    · rintro kept ⟨one, two, _, _, four, hits⟩
      rw [listed] at four
      cases four
      obtain member | member := hits
      · have changed : (⟨cell.term, next.next⟩ : ListNode Term) ≠ cell := by
          intro same
          rw [← same, nextSecond] at nextFirst
          exact secondThird (Option.some.inj nextFirst).symm
        refine unaltered.not_set getFirst member changed ?_ kept
        rw [List.getElem?_set_ne firstSecond.symm, List.getElem?_set_self inFirst]
      · have changed : (⟨next.term, some first⟩ : ListNode Term) ≠ next := by
          intro same
          rw [← same] at nextSecond
          exact firstThird (Option.some.inj nextSecond)
        refine unaltered.not_set getSecond member changed ?_ kept
        rw [List.getElem?_set_self]
        rw [List.length_set]
        exact inSecond
    · intro spared
      refine (unaltered.set ?_ _).set ?_ _
      · exact fun member => spared ⟨_, _, _, _, listed, .inl member⟩
      · exact fun member => spared ⟨_, _, _, _, listed, .inr member⟩
  · rename_i found other listed
    cases done
    refine iff_of_true unaltered ?_
    rintro ⟨first, second, third, fourth, four, -⟩
    exact other _ _ _ _ _ _ (Option.some.inj (listed.symm.trans four))
  · cases done

/-- A truncation leaves the cells as they are, unless it rewrites one of them. -/
theorem truncate_unaltered_iff {list : ListRef} {result : Option ListRef × ListRef}
    {later : ListStore Term} (unaltered : Unaltered held store)
    (done : truncate list store = some (result, later)) :
    Unaltered held later ↔ ¬Truncates held list store := by
  obtain ⟨found, listed, rest⟩ := Option.bind_eq_some_iff.mp done
  split at rest
  · cases rest
  · rename_i tail cell reversed
    cases rest
    refine iff_of_true unaltered ?_
    rintro ⟨init, last, tail, two, -⟩
    rw [listed, Option.some.injEq] at two
    rw [two] at reversed
    simp at reversed
  · rename_i tail tailCell last cell init reversed
    cases rest
    have order : found = init.reverse ++ [(last, cell), (tail, tailCell)] := by
      rw [← List.reverse_reverse found, reversed]
      simp
    subst order
    have get : store[last]? = some cell :=
      walkCells_get listed (last, cell) (List.mem_append_right _ List.mem_cons_self)
    have next : cell.next = some tail := walkCells_next init.reverse listed
    constructor
    · rintro kept ⟨other, one, two, same, member⟩
      rw [listed, Option.some.injEq] at same
      obtain ⟨-, pair⟩ := List.append_inj' same rfl
      cases pair
      have changed : (⟨cell.term, none⟩ : ListNode Term) ≠ cell := by
        intro same
        rw [← same] at next
        cases next
      refine unaltered.not_set get member changed ?_ kept
      exact List.getElem?_set_self (List.getElem?_eq_some_iff.mp get).1
    · intro spared
      exact unaltered.set (fun member => spared ⟨_, _, _, listed, member⟩) _

end

end Desh
