/-
This file models `newfd`, which gives a descriptor that is free. It asks the
kernel with `dup`, which takes the lowest closed number and fails with `EMFILE`
when the process has as many descriptors as it may, and it holds each number
that is deferred while it asks again.

The file proves when the number is one a redirection may use and the kernel's
table is as before. The held numbers are not closed when asking again fails, and
the numbers below 3 are not passed over.
-/

import Mathlib.Order.Interval.Finset.Nat
import Desh.Fd
import Desh.Opt

namespace Desh

variable {File : Type}

/-! ### The calls of the kernel -/

/-- The errors of `dup`. -/
inductive Errno where
  | EBADF
  | EMFILE
  deriving DecidableEq

namespace Descriptors

/-- `dup`, in a process that may have `limit` descriptors. -/
def dupWithin (limit : Nat) (table : Descriptors File) (oldfd : Nat) :
    Except Errno (Nat × Descriptors File) :=
  match table.dup oldfd with
  | none => .error .EBADF
  | some (fd, table) => if fd < limit then .ok (fd, table) else .error .EMFILE

/-- The descriptors that are open. -/
def opened (table : Descriptors File) : Set Nat := {n | table.file n ≠ none}

/-- The numbers `dup` may still give. -/
def unused (limit : Nat) (table : Descriptors File) : Finset Nat :=
  (Finset.range limit).filter fun n => (table.file n).isNone

theorem mem_unused {limit : Nat} {table : Descriptors File} {n : Nat} :
    n ∈ table.unused limit ↔ n < limit ∧ table.file n = none := by
  rw [unused, Finset.mem_filter, Finset.mem_range, Option.isNone_iff_eq_none]

theorem lowestFree_le {table : Descriptors File} {n : Nat} (closed : table.file n = none) :
    table.lowestFree ≤ n := by
  rw [lowestFree]
  by_contra before
  rw [not_le] at before
  have inside := before.trans_le List.findIdx_le_length
  have isSome := List.not_of_lt_findIdx before
  rw [file, List.getElem?_eq_getElem inside] at closed
  rw [show table.slots[n] = none from closed] at isSome
  cases isSome

/-- What `dup` does, by whether the number is open and whether some number is left. -/
theorem dupWithin_cases (limit : Nat) (table : Descriptors File) (oldfd : Nat) :
    (table.file oldfd = none ∧ table.dupWithin limit oldfd = .error .EBADF) ∨
    (∃ file, table.file oldfd = some file ∧ table.lowestFree < limit ∧
      table.dupWithin limit oldfd =
        .ok (table.lowestFree, table.set table.lowestFree (some file))) ∨
    (table.file oldfd ≠ none ∧ limit ≤ table.lowestFree ∧
      table.dupWithin limit oldfd = .error .EMFILE) := by
  unfold dupWithin dup «open»
  cases isFile : table.file oldfd with
  | none => exact .inl ⟨rfl, rfl⟩
  | some file =>
    dsimp only [Option.map_some]
    by_cases left : table.lowestFree < limit
    · exact .inr (.inl ⟨file, rfl, left, if_pos left⟩)
    · exact .inr (.inr ⟨nofun, not_lt.mp left, if_neg left⟩)

/-- The number `dup` gives is no longer left. -/
theorem unused_set {limit : Nat} {table : Descriptors File} {n : Nat} {file : File} :
    (table.set n (some file)).unused limit = (table.unused limit).erase n := by
  ext m
  rw [Finset.mem_erase, mem_unused, mem_unused, file_set]
  by_cases same : m = n
  · rw [same, Function.update_self]
    simp
  · rw [Function.update_of_ne same]
    simp [same]

theorem card_unused_dup {limit : Nat} {table after : Descriptors File} {oldfd fd : Nat}
    (gives : table.dupWithin limit oldfd = .ok (fd, after)) :
    (after.unused limit).card < (table.unused limit).card := by
  rcases table.dupWithin_cases limit oldfd with ⟨-, same⟩ | ⟨file, -, left, same⟩ | ⟨-, -, same⟩ <;>
    rw [same] at gives <;> cases gives
  rw [unused_set]
  exact Finset.card_erase_lt_of_mem (mem_unused.mpr ⟨left, table.file_lowestFree⟩)

end Descriptors

/-! ### A free descriptor -/

/-- `isdeferred`. -/
def isdeferred (deftab : List Defer) (fd : Nat) : Bool :=
  deftab.any fun defer => defer.userfd == fd

/-- The deferred operations on a number from `i` on. -/
def deferredFrom (deftab : List Defer) (i : Nat) : Nat :=
  deftab.countP fun defer => i ≤ defer.userfd

theorem deferredFrom_succ_lt {deftab : List Defer} {i : Nat}
    (deferred : isdeferred deftab i = true) :
    deferredFrom deftab (i + 1) < deferredFrom deftab i := by
  obtain ⟨defer, member, same⟩ := List.any_eq_true.mp deferred
  rw [beq_iff_eq] at same
  obtain ⟨before, after, rfl⟩ := List.append_of_mem member
  have fewer : ∀ l : List Defer, deferredFrom l (i + 1) ≤ deferredFrom l i := fun l =>
    List.countP_mono_left fun each _ inside => by simp at inside ⊢; omega
  have first := fewer before
  have second := fewer after
  unfold deferredFrom at first second ⊢
  rw [List.countP_append, List.countP_append, List.countP_cons_of_neg (by simp [same]),
    List.countP_cons_of_pos (by simp [same])]
  omega

section

variable (strerror : Errno → Text) (limit : Nat) (deftab : List Defer)

/-- `newfd`, with the variable of its loop. -/
def newfdFrom (i : Nat) (table : Descriptors File) : Except Stop Nat × Descriptors File :=
  if deferred : isdeferred deftab i = true then newfdFrom (i + 1) table
  else
    match _gives : table.dupWithin limit i with
    | .error .EMFILE => (.error (.fail (lit "$&newfd") (lit "newfd: " ++ strerror .EMFILE)), table)
    | .error .EBADF => (.ok i, table)
    | .ok (fd, table) =>
        if isdeferred deftab fd then
          match newfdFrom 3 table with
          -- an exception passes by the call of `close`
          | (.error stop, table) => (.error stop, table)
          | (.ok n, table) => (.ok n, table.close fd)
        else (.ok fd, table.close fd)
termination_by ((table.unused limit).card, deferredFrom deftab i)
decreasing_by
  · exact Prod.Lex.right _ (deferredFrom_succ_lt deferred)
  · exact Prod.Lex.left _ _ (Descriptors.card_unused_dup _gives)

/-- `newfd`. -/
def newfd (table : Descriptors File) : Except Stop Nat × Descriptors File :=
  newfdFrom strerror limit deftab 3 table

/-- A new descriptor is really free: it is a number that can be given to a redirection, or there
is none, and the kernel's table is as before. -/
def ReallyFree (table : Descriptors File) : Except Stop Nat × Descriptors File → Prop
  | (.ok n, after) =>
      3 ≤ n ∧ table.file n = none ∧ isdeferred deftab n = false ∧ after.opened = table.opened
  | (.error _, after) =>
      (∀ n, 3 ≤ n → n < limit → table.file n ≠ none ∨ isdeferred deftab n = true) ∧
        after.opened = table.opened

/-- The number `newfd` asks for first: the first one from 3 on that is not deferred. -/
structure FirstAsked (m : Nat) : Prop where
  usable : 3 ≤ m
  undeferred : isdeferred deftab m = false
  first : ∀ k, 3 ≤ k → k < m → isdeferred deftab k = true

/-- When no number `newfd` must not give comes in its way: the first number it asks for is closed,
or all below 3 are open or deferred, and some number is neither or no number is left. -/
def Unhindered (table : Descriptors File) : Prop :=
  (∃ m, FirstAsked deftab m ∧ table.file m = none) ∨
    (∀ n, n < 3 → n < limit → table.file n = none → isdeferred deftab n = true) ∧
      ((∃ n, n < limit ∧ table.file n = none ∧ isdeferred deftab n = false) ∨
        ∀ n, n < limit → table.file n ≠ none)

variable {strerror limit deftab}

theorem FirstAsked.unique {m n : Nat} (first : FirstAsked deftab m) (second : FirstAsked deftab n) :
    m = n := by
  rcases lt_trichotomy m n with less | same | less
  · have deferred := second.first m first.usable less
    rw [first.undeferred] at deferred
    cases deferred
  · exact same
  · have deferred := first.first n second.usable less
    rw [second.undeferred] at deferred
    cases deferred

variable (File strerror limit deftab) in
/-- The loop of `newfd` passes over the deferred numbers. -/
theorem exists_newfdFrom (i : Nat) :
    ∃ m, i ≤ m ∧ isdeferred deftab m = false ∧
      (∀ k, i ≤ k → k < m → isdeferred deftab k = true) ∧
      ∀ table : Descriptors File,
        newfdFrom strerror limit deftab i table = newfdFrom strerror limit deftab m table := by
  by_cases deferred : isdeferred deftab i = true
  · obtain ⟨m, after, undeferred, passed, same⟩ := exists_newfdFrom (i + 1)
    refine ⟨m, by omega, undeferred, fun k from_i before => ?_, fun table => ?_⟩
    · rcases Nat.eq_or_lt_of_le from_i with rfl | beyond
      · exact deferred
      · exact passed k beyond before
    · rw [newfdFrom, dif_pos deferred, same]
  · rw [Bool.not_eq_true] at deferred
    exact ⟨i, le_rfl, deferred, fun k from_i before => absurd before (not_lt.mpr from_i),
      fun _ => rfl⟩
termination_by deferredFrom deftab i
decreasing_by exact deferredFrom_succ_lt deferred

variable (File strerror limit deftab) in
theorem exists_firstAsked : ∃ m, FirstAsked deftab m ∧ ∀ table : Descriptors File,
    newfd strerror limit deftab table = newfdFrom strerror limit deftab m table := by
  obtain ⟨m, usable, undeferred, first, same⟩ :=
    exists_newfdFrom File strerror limit deftab 3
  exact ⟨m, ⟨usable, undeferred, first⟩, same⟩

/-- A first number that is closed is given. -/
theorem newfd_closed {m : Nat} {table : Descriptors File} (asked : FirstAsked deftab m)
    (closed : table.file m = none) : newfd strerror limit deftab table = (.ok m, table) := by
  obtain ⟨m', asked', same⟩ := exists_firstAsked File strerror limit deftab
  obtain rfl := asked.unique asked'
  rw [same, newfdFrom, dif_neg (by rw [asked.undeferred]; nofun)]
  rcases table.dupWithin_cases limit m with ⟨-, gives⟩ | ⟨file, isFile, -⟩ | ⟨isOpen, -⟩
  · split <;> rename_i gives' <;> rw [gives] at gives' <;> cases gives'
  · rw [closed] at isFile
    cases isFile
  · exact absurd closed isOpen

/-- How `newfd` ends when it asks with an open number: it gives the lowest closed number that is
not deferred, or fails with everything open. -/
def Searched (limit : Nat) (deftab : List Defer) (table : Descriptors File) :
    Except Stop Nat × Descriptors File → Prop
  | (.ok n, after) =>
      n < limit ∧ table.file n = none ∧ isdeferred deftab n = false ∧
        (∀ k, k < n → table.file k = none → isdeferred deftab k = true) ∧ after.file = table.file
  | (.error _, after) =>
      (∀ n, n < limit → table.file n = none → isdeferred deftab n = true) ∧
        after.opened = table.opened ∪ {n | n < limit}

/-- Holding a deferred number while `newfd` asks again. -/
theorem Searched.hold {table : Descriptors File} {fd : Nat} {file : File}
    (lowest : fd = table.lowestFree) (left : fd < limit) (deferred : isdeferred deftab fd = true)
    {result : Except Stop Nat × Descriptors File} :
    Searched limit deftab (table.set fd (some file)) result →
      Searched limit deftab table
        (match result with
          | (.error stop, after) => (.error stop, after)
          | (.ok n, after) => (.ok n, after.close fd)) := by
  intro searched
  have free : table.file fd = none := lowest ▸ table.file_lowestFree
  have others : ∀ n, n ≠ fd → (table.set fd (some file)).file n = table.file n := by
    intro n other
    rw [Descriptors.file_set, Function.update_of_ne other]
  obtain ⟨stop | n, after⟩ := result
  · obtain ⟨all, same⟩ := searched
    refine ⟨fun n inside closed => ?_, ?_⟩
    · by_cases held : n = fd
      · rw [held, deferred]
      · exact all n inside ((others n held).trans closed)
    · rw [same]
      ext n
      by_cases held : n = fd
      · exact ⟨fun _ => .inr (held ▸ left), fun _ => .inr (held ▸ left)⟩
      · unfold Descriptors.opened
        rw [Set.mem_union, Set.mem_union, Set.mem_ofPred_eq, others n held]
        rfl
  · obtain ⟨inside, closed, undeferred, lower, same⟩ := searched
    have notHeld : n ≠ fd := by
      rintro rfl
      rw [deferred] at undeferred
      cases undeferred
    refine ⟨inside, (others n notHeld).symm.trans closed, undeferred, fun k before isNone => ?_, ?_⟩
    · by_cases held : k = fd
      · rw [held, deferred]
      · exact lower k before ((others k held).trans isNone)
    · rw [Descriptors.close, Descriptors.file_set, same, Descriptors.file_set,
        Function.update_idem, ← free, Function.update_eq_self]

variable (strerror limit) in
theorem newfd_open {m : Nat} (asked : FirstAsked deftab m) (table : Descriptors File)
    (isOpen : table.file m ≠ none) :
    Searched limit deftab table (newfd strerror limit deftab table) := by
  obtain ⟨m', asked', same⟩ := exists_firstAsked File strerror limit deftab
  obtain rfl := asked.unique asked'
  rw [same, newfdFrom, dif_neg (by rw [asked.undeferred]; nofun)]
  rcases table.dupWithin_cases limit m with ⟨closed, -⟩ | ⟨file, -, left, gives⟩ |
    ⟨-, left, gives⟩
  · exact absurd closed isOpen
  · split <;> rename_i gives' <;> rw [gives] at gives' <;> cases gives'
    have stillOpen : (table.set table.lowestFree (some file)).file m ≠ none := by
      rw [Descriptors.file_set, Function.update_of_ne (Descriptors.ne_lowestFree isOpen)]
      exact isOpen
    split
    · rename_i deferred
      exact Searched.hold rfl left deferred (newfd_open asked _ stillOpen)
    · rename_i undeferred
      refine ⟨left, table.file_lowestFree, by simpa using undeferred, fun k before closed => ?_, ?_⟩
      · exact absurd (Descriptors.lowestFree_le closed) (not_le.mpr before)
      · rw [Descriptors.close, Descriptors.file_set, Descriptors.file_set, Function.update_idem,
          ← table.file_lowestFree, Function.update_eq_self]
  · split <;> rename_i gives' <;> rw [gives] at gives' <;> cases gives'
    have full : ∀ n, n < limit → table.file n ≠ none := fun n inside closed =>
      absurd (Descriptors.lowestFree_le closed) (not_le.mpr (inside.trans_le left))
    refine ⟨fun n inside closed => absurd closed (full n inside), ?_⟩
    exact (Set.union_eq_self_of_subset_right fun n inside => full n inside).symm
termination_by (table.unused limit).card
decreasing_by exact Descriptors.card_unused_dup gives

/-- A new descriptor is really free exactly when `newfd` is unhindered. -/
theorem newfd_reallyFree_iff (strerror : Errno → Text) (limit : Nat) (deftab : List Defer)
    (table : Descriptors File) :
    ReallyFree limit deftab table (newfd strerror limit deftab table) ↔
      Unhindered limit deftab table := by
  obtain ⟨m, asked, -⟩ := exists_firstAsked File strerror limit deftab
  by_cases closed : table.file m = none
  · rw [newfd_closed asked closed]
    exact ⟨fun _ => .inl ⟨m, asked, closed⟩,
      fun _ => ⟨asked.usable, closed, asked.undeferred, rfl⟩⟩
  have searched := newfd_open strerror limit asked table closed
  have notFirst : ¬ ∃ m, FirstAsked deftab m ∧ table.file m = none := by
    rintro ⟨m', asked', isNone⟩
    exact closed (asked.unique asked' ▸ isNone)
  rw [Unhindered, or_iff_right notFirst]
  generalize newfd strerror limit deftab table = outcome at searched ⊢
  obtain ⟨result, after⟩ := outcome
  cases result with
  | ok n =>
    obtain ⟨inside, isNone, undeferred, lower, same⟩ := searched
    constructor
    · rintro ⟨usable, -⟩
      exact ⟨fun k low _ isNone => lower k (low.trans_le usable) isNone,
        .inl ⟨n, inside, isNone, undeferred⟩⟩
    · rintro ⟨low, -⟩
      refine ⟨?_, isNone, undeferred, ?_⟩
      · by_contra below
        rw [low n (not_le.mp below) inside isNone] at undeferred
        cases undeferred
      · unfold Descriptors.opened
        rw [same]
  | error stop =>
    obtain ⟨all, same⟩ := searched
    constructor
    · rintro ⟨-, kept⟩
      refine ⟨fun n _ inside isNone => all n inside isNone, .inr fun n inside => ?_⟩
      have isOpen : n ∈ after.opened := same ▸ .inr inside
      rwa [kept] at isOpen
    · rintro ⟨-, ⟨n, inside, isNone, undeferred⟩ | full⟩
      · rw [all n inside isNone] at undeferred
        cases undeferred
      · refine ⟨fun n _ inside => .inl (full n inside), ?_⟩
        rw [same]
        exact Set.union_eq_self_of_subset_right full

/-- With 0 to 3 open, 4 deferred and no further descriptor allowed, 4 stays open when `newfd`
fails; with 0 closed, `newfd` gives 0. -/
theorem not_newfd_reallyFree :
    ¬ ReallyFree 5 [⟨none, 4⟩] ⟨[some (), some (), some (), some ()]⟩
        (newfd (fun _ => lit "Too many open files") 5 [⟨none, 4⟩]
          ⟨[some (), some (), some (), some ()]⟩) ∧
    ¬ ReallyFree 256 [] ⟨[none, some (), some (), some ()]⟩
        (newfd (fun _ => lit "Too many open files") 256 []
          ⟨[none, some (), some (), some ()]⟩) := by
  have asked : FirstAsked [⟨none, 4⟩] 3 ∧ FirstAsked [] 3 :=
    ⟨⟨le_rfl, rfl, by omega⟩, ⟨le_rfl, rfl, by omega⟩⟩
  constructor
  · have searched := newfd_open (fun _ => lit "Too many open files") 5 asked.1
      (⟨[some (), some (), some (), some ()]⟩ : Descriptors Unit) nofun
    generalize newfd _ 5 [⟨none, 4⟩] _ = outcome at searched ⊢
    obtain ⟨result | n, after⟩ := outcome
    · rintro ⟨-, kept⟩
      have leaked : 4 ∈ after.opened := searched.2 ▸ .inr (by decide)
      rw [kept] at leaked
      exact leaked rfl
    · obtain ⟨inside, closed, undeferred, -⟩ := searched
      interval_cases n <;> first
        | exact absurd closed (by decide)
        | exact absurd undeferred (by decide)
  · have searched := newfd_open (fun _ => lit "Too many open files") 256 asked.2
      (⟨[none, some (), some (), some ()]⟩ : Descriptors Unit) nofun
    generalize newfd _ 256 [] _ = outcome at searched ⊢
    obtain ⟨result | n, after⟩ := outcome
    · cases searched.1 0 (by decide) rfl
    · rintro ⟨usable, -⟩
      cases searched.2.2.2.1 0 (by omega) rfl

end

end Desh
