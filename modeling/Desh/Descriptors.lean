/-
This file models the descriptor table a kernel keeps for a process, and the
handles a program owns in it. A handle is a variable that holds a descriptor
number; the program may move the descriptor to another number as long as the
variable follows. What is left of the table without the handles is what the
program shows to others.

Nothing here depends on the shell.
-/

import Mathlib.Tactic

namespace Desh

/-! ### The table -/

/-- The open descriptors of a process: the file each number refers to. -/
structure Descriptors (File : Type) where
  slots : List (Option File)
  deriving DecidableEq

namespace Descriptors

variable {File : Type}

/-- The file a number refers to. -/
def file (table : Descriptors File) (n : Nat) : Option File := (table.slots[n]?).join

/-- Make a number refer to a file, or to none. -/
def set (table : Descriptors File) (n : Nat) (file : Option File) : Descriptors File :=
  ⟨(table.slots ++ List.replicate (n + 1 - table.slots.length) none).set n file⟩

/-- The lowest number that refers to no file. -/
def lowestFree (table : Descriptors File) : Nat := table.slots.findIdx Option.isNone

/-- `open`: the file gets the lowest free number. -/
def «open» (table : Descriptors File) (file : File) : Nat × Descriptors File :=
  (table.lowestFree, table.set table.lowestFree (some file))

/-- `dup`: the file of a number gets the lowest free one too. -/
def dup (table : Descriptors File) (n : Nat) : Option (Nat × Descriptors File) :=
  (table.file n).map table.open

/-- `dup2`: the second number refers to the file of the first. -/
def dup2 (table : Descriptors File) (oldfd newfd : Nat) : Option (Descriptors File) :=
  (table.file oldfd).map fun file => table.set newfd (some file)

/-- `close`. -/
def close (table : Descriptors File) (n : Nat) : Descriptors File := table.set n none

theorem file_set (table : Descriptors File) (n : Nat) (file : Option File) :
    (table.set n file).file = Function.update table.file n file := by
  funext m
  have padded : ∀ m : Nat,
      ((table.slots ++ List.replicate (n + 1 - table.slots.length) none)[m]?).join =
        (table.slots[m]?).join := by
    intro m
    by_cases inside : m < table.slots.length
    · rw [List.getElem?_append_left inside]
    · rw [not_lt] at inside
      rw [List.getElem?_append_right inside, List.getElem?_eq_none inside,
        List.getElem?_replicate]
      split_ifs <;> rfl
  have long : n < (table.slots ++ List.replicate (n + 1 - table.slots.length) none).length := by
    rw [List.length_append, List.length_replicate]
    omega
  unfold Descriptors.file set
  by_cases same : m = n
  · rw [same, Function.update_self, List.getElem?_set_self long]
    rfl
  · rw [Function.update_of_ne same, List.getElem?_set_ne (Ne.symm same), padded]

theorem file_lowestFree (table : Descriptors File) : table.file table.lowestFree = none := by
  unfold file lowestFree
  by_cases inside : table.slots.findIdx Option.isNone < table.slots.length
  · have free := List.findIdx_getElem (w := inside)
    rw [List.getElem?_eq_getElem inside, Option.isNone_iff_eq_none.mp free]
    rfl
  · rw [List.getElem?_eq_none (not_lt.mp inside)]
    rfl

/-- The lowest free number is not in use. -/
theorem ne_lowestFree {table : Descriptors File} {n : Nat} (inUse : table.file n ≠ none) :
    n ≠ table.lowestFree := by
  rintro rfl
  exact inUse table.file_lowestFree

end Descriptors

/-! ### Handles in a table -/

/-- The handles own their numbers in the table: each number a handle holds refers to the handle's
file, a handle without a number has none, no two handles hold the same number, and `visible` is
the rest of the table. -/
structure Owned {File Handle : Type} (table : Descriptors File) (handles : List Handle)
    (number : Handle → Option Nat) (held : Handle → Option File)
    (visible : Nat → Option File) : Prop where
  file_number : ∀ handle ∈ handles, ∀ n, number handle = some n → table.file n = held handle
  isSome_held : ∀ handle ∈ handles, (held handle).isSome = (number handle).isSome
  distinct : ∀ first ∈ handles, ∀ second ∈ handles, ∀ n,
    number first = some n → number second = some n → first = second
  hidden : ∀ handle ∈ handles, ∀ n, number handle = some n → visible n = none
  shown : ∀ n, (∀ handle ∈ handles, number handle ≠ some n) → table.file n = visible n

namespace Owned

variable {File Handle : Type} {table : Descriptors File}
  {handles : List Handle} {number : Handle → Option Nat} {held : Handle → Option File}
  {visible : Nat → Option File}

/-- A number some handle holds is not free. -/
theorem number_ne_lowestFree (owned : Owned table handles number held visible) {handle : Handle}
    (member : handle ∈ handles) : number handle ≠ some table.lowestFree := by
  intro holds
  have file := owned.file_number handle member _ holds
  rw [table.file_lowestFree] at file
  have open' := owned.isSome_held handle member
  rw [← file, holds] at open'
  cases open'

/-- Moving a descriptor to the lowest free number, its handle with it, shows nothing. -/
theorem move [DecidableEq Handle]
    (owned : Owned table handles number held visible) {handle : Handle}
    (member : handle ∈ handles) {n : Nat} (holds : number handle = some n) :
    Owned ((table.set table.lowestFree (held handle)).close n) handles
      (Function.update number handle (some table.lowestFree)) held visible := by
  have free : n ≠ table.lowestFree := by
    rintro rfl
    exact owned.number_ne_lowestFree member holds
  have files : ((table.set table.lowestFree (held handle)).close n).file =
      Function.update (Function.update table.file table.lowestFree (held handle)) n none := by
    rw [Descriptors.close, Descriptors.file_set, Descriptors.file_set]
  -- a handle holds the new number if it is the one moved, and its old number otherwise
  have number_other : ∀ other, other ≠ handle → ∀ m,
      Function.update number handle (some table.lowestFree) other = some m →
        number other = some m := by
    intro other different m now
    rwa [Function.update_of_ne different] at now
  have number_self : ∀ m, Function.update number handle (some table.lowestFree) handle = some m →
      m = table.lowestFree := by
    intro m now
    rw [Function.update_self] at now
    exact (Option.some.inj now).symm
  refine ⟨?_, ?_, ?_, ?_, ?_⟩
  · intro other inside m now
    rw [files]
    by_cases same : other = handle
    · subst same
      rw [number_self m now, Function.update_of_ne (Ne.symm free), Function.update_self]
    · have before := number_other other same m now
      have notOld : m ≠ n := by
        rintro rfl
        exact same (owned.distinct other inside handle member m before holds)
      have notNew : m ≠ table.lowestFree := by
        rintro rfl
        exact owned.number_ne_lowestFree inside before
      rw [Function.update_of_ne notOld, Function.update_of_ne notNew]
      exact owned.file_number other inside m before
  · intro other inside
    rw [owned.isSome_held other inside]
    by_cases same : other = handle
    · rw [same, Function.update_self, holds, Option.isSome_some, Option.isSome_some]
    · rw [Function.update_of_ne same]
  · intro first firstMember second secondMember m now now'
    by_cases firstSame : first = handle <;> by_cases secondSame : second = handle
    · rw [firstSame, secondSame]
    · subst firstSame
      rw [number_self m now] at now'
      exact absurd (number_other second secondSame _ now')
        (owned.number_ne_lowestFree secondMember)
    · subst secondSame
      rw [number_self m now'] at now
      exact absurd (number_other first firstSame _ now) (owned.number_ne_lowestFree firstMember)
    · exact owned.distinct first firstMember second secondMember m
        (number_other first firstSame m now) (number_other second secondSame m now')
  · intro other inside m now
    by_cases same : other = handle
    · subst same
      rw [number_self m now, ← owned.shown _ fun each inside' =>
        owned.number_ne_lowestFree inside', table.file_lowestFree]
    · exact owned.hidden other inside m (number_other other same m now)
  · intro m unheld
    rw [files]
    by_cases old : m = n
    · rw [old, Function.update_self]
      exact (owned.hidden handle member n holds).symm
    · have notNew : m ≠ table.lowestFree := by
        rintro rfl
        exact unheld handle member (Function.update_self ..)
      rw [Function.update_of_ne old, Function.update_of_ne notNew]
      refine owned.shown m fun other inside before => ?_
      by_cases same : other = handle
      · subst same
        exact old (Option.some.inj (before.symm.trans holds))
      · exact unheld other inside (by rwa [Function.update_of_ne same])

/-- Giving up a handle shows its file under its number. -/
theorem giveUp {handle : Handle} {rest : List Handle}
    (owned : Owned table (handle :: rest) number held visible) (fresh : handle ∉ rest)
    {n : Nat} (holds : number handle = some n) :
    Owned table rest number held (Function.update visible n (held handle)) := by
  have self : handle ∈ handle :: rest := List.mem_cons_self
  have keeps : ∀ other ∈ rest, other ∈ handle :: rest := fun other => List.mem_cons_of_mem handle
  have other_ne : ∀ other ∈ rest, ∀ m, number other = some m → m ≠ n := by
    rintro other inside m before rfl
    exact fresh (owned.distinct handle self other (keeps other inside) m holds before ▸ inside)
  refine ⟨fun other inside => owned.file_number other (keeps other inside),
    fun other inside => owned.isSome_held other (keeps other inside),
    fun first firstMember second secondMember =>
      owned.distinct first (keeps first firstMember) second (keeps second secondMember), ?_, ?_⟩
  · intro other inside m before
    rw [Function.update_of_ne (other_ne other inside m before)]
    exact owned.hidden other (keeps other inside) m before
  · intro m unheld
    by_cases same : m = n
    · rw [same, Function.update_self]
      exact owned.file_number handle self n holds
    · rw [Function.update_of_ne same]
      refine owned.shown m fun other inside => ?_
      rcases List.mem_cons.mp inside with rfl | inside
      · rw [holds, ne_eq, Option.some.injEq]
        exact Ne.symm same
      · exact unheld other inside

/-- Giving up a handle that holds no number changes nothing. -/
theorem giveUp_none {handle : Handle} {rest : List Handle}
    (owned : Owned table (handle :: rest) number held visible) (holds : number handle = none) :
    Owned table rest number held visible := by
  have keeps : ∀ other ∈ rest, other ∈ handle :: rest := fun other => List.mem_cons_of_mem handle
  refine ⟨fun other inside => owned.file_number other (keeps other inside),
    fun other inside => owned.isSome_held other (keeps other inside),
    fun first firstMember second secondMember =>
      owned.distinct first (keeps first firstMember) second (keeps second secondMember),
    fun other inside => owned.hidden other (keeps other inside), ?_⟩
  intro m unheld
  refine owned.shown m fun other inside => ?_
  rcases List.mem_cons.mp inside with rfl | inside
  · rw [holds]
    nofun
  · exact unheld other inside

/-- What happens under a number no handle holds is seen as it is. -/
theorem set (owned : Owned table handles number held visible) {n : Nat}
    (unheld : ∀ handle ∈ handles, number handle ≠ some n) (file : Option File) :
    Owned (table.set n file) handles number held (Function.update visible n file) := by
  have other_ne : ∀ handle ∈ handles, ∀ m, number handle = some m → m ≠ n := by
    rintro handle member m holds rfl
    exact unheld handle member holds
  refine ⟨?_, owned.isSome_held, owned.distinct, ?_, ?_⟩
  · intro handle member m holds
    rw [Descriptors.file_set, Function.update_of_ne (other_ne handle member m holds)]
    exact owned.file_number handle member m holds
  · intro handle member m holds
    rw [Function.update_of_ne (other_ne handle member m holds)]
    exact owned.hidden handle member m holds
  · intro m still
    rw [Descriptors.file_set]
    by_cases same : m = n
    · rw [same, Function.update_self, Function.update_self]
    · rw [Function.update_of_ne same, Function.update_of_ne same]
      exact owned.shown m still

/-- Handles are owned in any order. -/
theorem mono (owned : Owned table handles number held visible) {others : List Handle}
    (same : ∀ handle, handle ∈ others ↔ handle ∈ handles) :
    Owned table others number held visible :=
  ⟨fun handle member => owned.file_number handle ((same handle).mp member),
    fun handle member => owned.isSome_held handle ((same handle).mp member),
    fun first firstMember second secondMember =>
      owned.distinct first ((same first).mp firstMember) second ((same second).mp secondMember),
    fun handle member => owned.hidden handle ((same handle).mp member),
    fun n unheld => owned.shown n fun handle member => unheld handle ((same handle).mpr member)⟩

/-- What a handle outside the list holds does not matter. -/
theorem congr (owned : Owned table handles number held visible) {number' : Handle → Option Nat}
    {held' : Handle → Option File} (numbers : ∀ handle ∈ handles, number' handle = number handle)
    (files : ∀ handle ∈ handles, held' handle = held handle) :
    Owned table handles number' held' visible := by
  refine ⟨?_, ?_, ?_, ?_, ?_⟩
  · intro handle member n holds
    rw [files handle member]
    exact owned.file_number handle member n ((numbers handle member).symm.trans holds)
  · intro handle member
    rw [files handle member, numbers handle member]
    exact owned.isSome_held handle member
  · intro first firstMember second secondMember n holds holds'
    exact owned.distinct first firstMember second secondMember n
      ((numbers first firstMember).symm.trans holds)
      ((numbers second secondMember).symm.trans holds')
  · intro handle member n holds
    exact owned.hidden handle member n ((numbers handle member).symm.trans holds)
  · intro n unheld
    exact owned.shown n fun handle member holds =>
      unheld handle member ((numbers handle member).trans holds)

/-- Handles that hold nothing can be added. -/
theorem addIdle (owned : Owned table handles number held visible) {others : List Handle}
    (kept : ∀ handle ∈ handles, handle ∈ others)
    (idle : ∀ handle ∈ others, handle ∈ handles ∨ number handle = none ∧ held handle = none) :
    Owned table others number held visible := by
  have known : ∀ handle ∈ others, ∀ n, number handle = some n → handle ∈ handles := by
    intro handle member n holds
    rcases idle handle member with inside | ⟨isNone, -⟩
    · exact inside
    · rw [isNone] at holds
      cases holds
  refine ⟨fun handle member n holds =>
      owned.file_number handle (known handle member n holds) n holds, ?_,
    fun first firstMember second secondMember n holds holds' =>
      owned.distinct first (known first firstMember n holds) second
        (known second secondMember n holds') n holds holds',
    fun handle member n holds => owned.hidden handle (known handle member n holds) n holds,
    fun n unheld => owned.shown n fun handle member => unheld handle (kept handle member)⟩
  intro handle member
  rcases idle handle member with inside | ⟨isNone, heldNone⟩
  · exact owned.isSome_held handle inside
  · rw [isNone, heldNone]
    rfl

/-- Every file in the table is held by a handle or shown. -/
theorem file_cases (owned : Owned table handles number held visible) {n : Nat} {file : File}
    (isFile : table.file n = some file) :
    (∃ handle ∈ handles, number handle = some n ∧ held handle = some file) ∨
      visible n = some file := by
  by_cases holding : ∃ handle ∈ handles, number handle = some n
  · obtain ⟨handle, member, holds⟩ := holding
    exact .inl ⟨handle, member, holds, (owned.file_number handle member n holds).symm.trans isFile⟩
  · refine .inr ((owned.shown n fun handle member holds => ?_).symm.trans isFile)
    exact holding ⟨handle, member, holds⟩

/-- No handle holds a number that is shown. -/
theorem unheld_of_visible (owned : Owned table handles number held visible) {n : Nat}
    (shown : visible n ≠ none) : ∀ handle ∈ handles, number handle ≠ some n :=
  fun handle member holds => shown (owned.hidden handle member n holds)

end Owned

end Desh
