/-
This file models the descriptor bookkeeping of `fd.c`: the table of deferred
redirections, which a parent shell interprets with `fdmap` and a forked child
applies with `remapfds`, and the list of registered variables, whose private
descriptors are moved out of the way of the user's.

A descriptor variable is an `Option Nat`: `none` is the value `-1`.
-/

import Mathlib.Data.List.Perm.Basic
import Desh.Descriptors

namespace Desh

variable {File : Type}

/-! ### The state -/

/-- `Defer`: an operation on the descriptor `userfd`, which gets the file of `realfd` or is
closed. -/
structure Defer where
  realfd : Option Nat
  userfd : Nat
  deriving DecidableEq

/-- The address of a registered variable: the field `realfd` of an entry of `deftab`, or another
variable of the shell. -/
inductive Cell where
  | deferred (index : Nat)
  | shell (address : Nat)
  deriving DecidableEq

/-- `Reserve`: an entry of the registered file descriptor list. -/
structure Reserve where
  fdp : Cell
  closeonfork : Bool
  deriving DecidableEq

/-- A process: its descriptors, the first `defcount` entries of `deftab`, the registered list,
and what the other variables of the shell hold. -/
structure Process (File : Type) where
  table : Descriptors File
  deftab : List Defer
  defmax : Nat
  reserved : List Reserve
  shell : Nat → Option Nat

namespace Process

/-- `*fdp`. -/
def read (process : Process File) : Cell → Option Nat
  | .deferred index => process.deftab[index]?.bind Defer.realfd
  | .shell address => process.shell address

/-- `*fdp = fd`. -/
def write (process : Process File) (cell : Cell) (fd : Option Nat) : Process File :=
  match cell with
  | .deferred index =>
      { process with
        deftab := process.deftab.modify index fun defer => { defer with realfd := fd } }
  | .shell address => { process with shell := Function.update process.shell address fd }

/-- The addresses on the registered list. -/
def cells (process : Process File) : List Cell := process.reserved.map Reserve.fdp

/-! ### The registered list -/

/-- `registerfd`. -/
def registerfd (fdp : Cell) (closeonfork : Bool) (process : Process File) : Process File :=
  { process with reserved := process.reserved ++ [⟨fdp, closeonfork⟩] }

/-- `unregisterfd`: the last entry takes the place of the one removed. It panics when there is no
such entry. -/
def unregisterfd (fdp : Cell) (process : Process File) : Option (Process File) :=
  match process.reserved.findIdx? fun reserve => reserve.fdp == fdp with
  | none => none
  | some i =>
      match process.reserved.getLast? with
      | none => none
      | some last => some { process with reserved := (process.reserved.set i last).dropLast }

/-- The body of the loop of `releasefd`: it fails when `dup` does. -/
def releaseStep (n : Nat) (process : Process File) (reserve : Reserve) : Option (Process File) :=
  if process.read reserve.fdp = some n then
    (process.table.dup n).map fun (fd, table) =>
      { process with table := table.close n }.write reserve.fdp (some fd)
  else some process

/-- `releasefd`. -/
def releasefd (n : Nat) (process : Process File) : Option (Process File) :=
  process.reserved.foldlM (releaseStep n) process

/-- `mvfd`: it fails when `dup2` does. -/
def mvfd (oldfd newfd : Nat) (process : Process File) : Option (Process File) :=
  if oldfd = newfd then some process
  else
    (process.table.dup2 oldfd newfd).map fun table =>
      { process with table := table.close oldfd }

/-! ### Deferred operations -/

/-- `dodeferred`. -/
def dodeferred (realfd : Option Nat) (userfd : Nat) (process : Process File) :
    Option (Process File) :=
  (process.releasefd userfd).bind fun process =>
    match realfd with
    | none => some { process with table := process.table.close userfd }
    | some realfd => process.mvfd realfd userfd

/-- The move of `deftab` to a larger array in `pushdefer`: its fields change their addresses,
which here only changes the order of the registered list. -/
def growDeftab (process : Process File) : Option (Process File) :=
  let indices := List.range process.deftab.length
  (indices.foldlM (fun process i => unregisterfd (.deferred i) process) process).map fun process =>
    indices.foldl (fun process i => registerfd (.deferred i) true process)
      { process with defmax := process.defmax + 10 }

/-- `pushdefer` in a parent shell. -/
def pushdefer (realfd : Option Nat) (userfd : Nat) (process : Process File) :
    Option (Process File) :=
  (if process.defmax ≤ process.deftab.length then process.growDeftab else some process).map
    fun process =>
      registerfd (.deferred process.deftab.length) true
        { process with deftab := process.deftab ++ [⟨realfd, userfd⟩] }

/-- `undefer`: the latest operation is dropped and its descriptor closed. -/
def undefer (process : Process File) : Option (Process File) :=
  match process.deftab.getLast? with
  | none => none
  | some defer =>
      (process.unregisterfd (.deferred (process.deftab.length - 1))).map fun process =>
        { process with
          deftab := process.deftab.dropLast
          table := defer.realfd.elim process.table process.table.close }

/-- One round of `remapfds`, for the entry `i` of the table. -/
def remapStep (i : Nat) (process : Process File) : Option (Process File) :=
  (process.unregisterfd (.deferred i)).bind fun process =>
    process.deftab[i]?.bind fun defer => process.dodeferred defer.realfd defer.userfd

/-- The state before the entry `i` of the table is applied. -/
def remapSteps : Nat → Process File → Option (Process File)
  | 0, process => some process
  | i + 1, process => (remapSteps i process).bind (remapStep i)

/-- `remapfds`. -/
def remapfds (process : Process File) : Option (Process File) :=
  (remapSteps process.deftab.length process).map fun process => { process with deftab := [] }

/-- The body of the loop of `closefds`. -/
def closeStep (process : Process File) (reserve : Reserve) : Process File :=
  if reserve.closeonfork then
    { process with
      table := match process.read reserve.fdp with
        | some fd => if 3 ≤ fd then process.table.close fd else process.table
        | none => process.table }.write reserve.fdp none
  else process

/-- `closefds`. -/
def closefds (process : Process File) : Option (Process File) :=
  process.remapfds.map fun process => process.reserved.foldl closeStep process

end Process

/-- The loop of `fdmap`, over the table from its last entry to its first. -/
def fdmapLoop : List Defer → Nat → Option Nat
  | [], fd => some fd
  | defer :: earlier, fd =>
      if fd = defer.userfd then defer.realfd.bind (fdmapLoop earlier) else fdmapLoop earlier fd

/-- `fdmap`. -/
def fdmap (deftab : List Defer) (fd : Nat) : Option Nat := fdmapLoop deftab.reverse fd

/-! ### Cells -/

namespace Process

theorem read_write {process : Process File} {cell : Cell} {n : Nat}
    (holds : process.read cell = some n) (fd : Option Nat) :
    (process.write cell fd).read = Function.update process.read cell fd := by
  funext other
  cases cell with
  | deferred index =>
    cases other with
    | deferred index' =>
      by_cases same : index' = index
      · subst same
        cases entry : process.deftab[index']? with
        | none => simp [read, entry] at holds
        | some defer => simp [read, write, entry]
      · have different : Cell.deferred index' ≠ .deferred index := fun h =>
            same (Cell.deferred.inj h)
        rw [Function.update_of_ne different]
        simp [read, write, List.getElem?_modify_ne _ _ (Ne.symm same)]
    | shell address => rw [Function.update_of_ne Cell.noConfusion]; rfl
  | shell address =>
    cases other with
    | deferred index => rw [Function.update_of_ne Cell.noConfusion]; rfl
    | shell address' =>
      by_cases same : address' = address
      · simp [read, write, same]
      · have different : Cell.shell address' ≠ .shell address := fun h => same (Cell.shell.inj h)
        simp [read, write, Function.update_of_ne same, Function.update_of_ne different]

@[simp] theorem write_table (process : Process File) (cell : Cell) (fd : Option Nat) :
    (process.write cell fd).table = process.table := by
  cases cell <;> rfl

@[simp] theorem write_reserved (process : Process File) (cell : Cell) (fd : Option Nat) :
    (process.write cell fd).reserved = process.reserved := by
  cases cell <;> rfl

@[simp] theorem write_cells (process : Process File) (cell : Cell) (fd : Option Nat) :
    (process.write cell fd).cells = process.cells := by
  cases cell <;> rfl

/-- Writing to a descriptor variable leaves the user descriptors of the table. -/
@[simp] theorem write_userfds (process : Process File) (cell : Cell) (fd : Option Nat) :
    (process.write cell fd).deftab.map Defer.userfd = process.deftab.map Defer.userfd := by
  cases cell with
  | deferred index =>
    refine List.ext_getElem? fun i => ?_
    by_cases same : i = index
    · subst same
      cases entry : process.deftab[i]? <;> simp [write, entry]
    · simp [write, List.getElem?_modify_ne _ _ (Ne.symm same)]
  | shell address => rfl

/-! ### Registering -/

theorem set_getLast_perm {α : Type} (list : List α) (i : Nat) (inside : i < list.length)
    {last : α} (isLast : list.getLast? = some last) :
    list.Perm (list[i] :: (list.set i last).dropLast) := by
  obtain ⟨init, rfl⟩ := List.getLast?_eq_some_iff.mp isLast
  rw [List.length_append, List.length_singleton] at inside
  by_cases final : i = init.length
  · subst final
    simp
  · have before : i < init.length := by omega
    rw [List.set_append_left _ _ before, List.dropLast_concat, List.getElem_append_left before,
      List.set_eq_take_append_cons_drop, if_pos before]
    refine (List.perm_append_comm.trans ?_)
    calc [last] ++ init
        = last :: (init.take i ++ init[i] :: init.drop (i + 1)) := by
          rw [← List.drop_eq_getElem_cons before, List.take_append_drop, List.singleton_append]
      List.Perm _ (last :: init[i] :: (init.take i ++ init.drop (i + 1))) :=
          List.perm_middle.cons last
      List.Perm _ (init[i] :: last :: (init.take i ++ init.drop (i + 1))) := List.Perm.swap ..
      List.Perm _ (init[i] :: (init.take i ++ last :: init.drop (i + 1))) :=
          (List.perm_middle.symm).cons _

/-- A registered variable is taken off the list, and the others stay. -/
theorem unregisterfd_spec {process : Process File} {fdp : Cell} (member : fdp ∈ process.cells) :
    ∃ reserve reserved, unregisterfd fdp process = some { process with reserved } ∧
      reserve.fdp = fdp ∧ process.reserved.Perm (reserve :: reserved) := by
  obtain ⟨reserve, inside, address⟩ := List.mem_map.mp member
  unfold unregisterfd
  cases found : process.reserved.findIdx? fun reserve => reserve.fdp == fdp with
  | none =>
    rw [List.findIdx?_eq_none_iff] at found
    simpa [address] using found reserve inside
  | some i =>
    obtain ⟨bound, isFdp, -⟩ := List.findIdx?_eq_some_iff_getElem.mp found
    cases isLast : process.reserved.getLast? with
    | none =>
      rw [List.getLast?_eq_none_iff] at isLast
      rw [isLast] at inside
      cases inside
    | some last =>
      exact ⟨process.reserved[i], _, rfl, beq_iff_eq.mp isFdp,
        set_getLast_perm process.reserved i bound isLast⟩

theorem cells_of_perm {process : Process File} {reserve : Reserve} {reserved : List Reserve}
    (perm : process.reserved.Perm (reserve :: reserved)) :
    process.cells.Perm (reserve.fdp :: ({ process with reserved } : Process File).cells) :=
  perm.map Reserve.fdp

/-! ### Releasing a descriptor -/

/-- A descriptor moved to the lowest free number, its variable with it. -/
def relocate (cell : Cell) (n : Nat) (process : Process File) : Process File :=
  { process with
    table := (process.table.set process.table.lowestFree (process.table.file n)).close n }.write
      cell (some process.table.lowestFree)

variable {process : Process File} {held : Cell → Option File} {visible : Nat → Option File}

theorem read_relocate {cell : Cell} {n : Nat} (holds : process.read cell = some n) :
    (process.relocate cell n).read =
      Function.update process.read cell (some process.table.lowestFree) :=
  read_write (by exact holds) _

@[simp] theorem relocate_cells (cell : Cell) (n : Nat) :
    (process.relocate cell n).cells = process.cells := write_cells ..

theorem relocate_owned (owned : Owned process.table process.cells process.read held visible)
    {cell : Cell} (member : cell ∈ process.cells) {n : Nat} (holds : process.read cell = some n) :
    Owned (process.relocate cell n).table (process.relocate cell n).cells
      (process.relocate cell n).read held visible := by
  have moved := owned.move member holds
  rw [← owned.file_number cell member n holds] at moved
  rw [read_relocate holds, relocate_cells, relocate, write_table]
  exact moved

theorem releaseStep_of_ne {n : Nat} {reserve : Reserve}
    (other : process.read reserve.fdp ≠ some n) :
    releaseStep n process reserve = some process := if_neg other

theorem releaseStep_of_eq (owned : Owned process.table process.cells process.read held visible)
    {n : Nat} {reserve : Reserve} (member : reserve.fdp ∈ process.cells)
    (holds : process.read reserve.fdp = some n) :
    releaseStep n process reserve = some (process.relocate reserve.fdp n) := by
  have open' := owned.isSome_held reserve.fdp member
  rw [holds, ← owned.file_number _ member n holds] at open'
  obtain ⟨file, isFile⟩ := Option.isSome_iff_exists.mp open'
  rw [releaseStep, if_pos holds, Descriptors.dup, isFile, relocate, isFile]
  rfl

theorem foldlM_releaseStep_of_ne {n : Nat} {reserved : List Reserve}
    (others : ∀ reserve ∈ reserved, process.read reserve.fdp ≠ some n) :
    reserved.foldlM (releaseStep n) process = some process := by
  induction reserved with
  | nil => rfl
  | cons reserve reserved inductionHypothesis =>
    rw [List.forall_mem_cons] at others
    rw [List.foldlM_cons, releaseStep_of_ne others.1]
    exact inductionHypothesis others.2

/-- After a release no variable holds the number, the one that did holds what was the lowest free
number, and the others hold theirs. -/
structure Released (process result : Process File) (n : Nat) : Prop where
  reserved : result.reserved = process.reserved
  userfds : result.deftab.map Defer.userfd = process.deftab.map Defer.userfd
  read : ∀ cell ∈ process.cells, result.read cell =
    if process.read cell = some n then some process.table.lowestFree else process.read cell
  read_other : ∀ cell, process.read cell ≠ some n → result.read cell = process.read cell

/-- No variable on the list holds the released number any more. -/
theorem Released.unheld {result : Process File} {n : Nat} (effect : Released process result n)
    (owned : Owned process.table process.cells process.read held visible) :
    ∀ cell ∈ result.cells, result.read cell ≠ some n := by
  intro cell member
  have sameCells : result.cells = process.cells :=
    congrArg (List.map Reserve.fdp) effect.reserved
  rw [sameCells] at member
  rw [effect.read cell member]
  split_ifs with holds
  · rintro free
    exact owned.number_ne_lowestFree member (holds.trans free.symm)
  · exact holds

theorem foldlM_releaseStep (owned : Owned process.table process.cells process.read held visible)
    (n : Nat) {reserved : List Reserve}
    (inside : ∀ reserve ∈ reserved, reserve.fdp ∈ process.cells) :
    reserved.foldlM (releaseStep n) process = some process ∧
        (∀ reserve ∈ reserved, process.read reserve.fdp ≠ some n) ∨
      ∃ cell ∈ process.cells, process.read cell = some n ∧
        reserved.foldlM (releaseStep n) process = some (process.relocate cell n) := by
  induction reserved with
  | nil => exact .inl ⟨rfl, by simp⟩
  | cons reserve reserved inductionHypothesis =>
    rw [List.forall_mem_cons] at inside
    rw [List.foldlM_cons, List.forall_mem_cons]
    by_cases holds : process.read reserve.fdp = some n
    · -- no other entry holds the number once this one has moved
      refine .inr ⟨reserve.fdp, inside.1, holds, ?_⟩
      rw [releaseStep_of_eq owned inside.1 holds]
      refine foldlM_releaseStep_of_ne fun other member => ?_
      rw [read_relocate holds]
      by_cases same : other.fdp = reserve.fdp
      · rw [same, Function.update_self]
        rintro free
        exact owned.number_ne_lowestFree inside.1 (holds.trans free.symm)
      · rw [Function.update_of_ne same]
        exact fun also => same (owned.distinct _ (inside.2 other member) _ inside.1 n also holds)
    · rw [releaseStep_of_ne holds]
      rcases inductionHypothesis inside.2 with ⟨fold, others⟩ | found
      · exact .inl ⟨fold, holds, others⟩
      · exact .inr found

theorem releasefd_spec (owned : Owned process.table process.cells process.read held visible)
    (n : Nat) : ∃ result, process.releasefd n = some result ∧ Released process result n ∧
      Owned result.table result.cells result.read held visible := by
  have inside : ∀ reserve ∈ process.reserved, reserve.fdp ∈ process.cells :=
    fun reserve => List.mem_map_of_mem
  rcases foldlM_releaseStep owned n inside with ⟨fold, others⟩ | ⟨cell, member, holds, fold⟩
  · refine ⟨process, fold, ⟨rfl, rfl, ?_, fun _ _ => rfl⟩, owned⟩
    intro cell member
    obtain ⟨reserve, listed, rfl⟩ := List.mem_map.mp member
    rw [if_neg (others reserve listed)]
  · refine ⟨_, fold, ⟨?_, ?_, ?_, ?_⟩, relocate_owned owned member holds⟩
    · simp [relocate]
    · simp [relocate]
    · intro other otherMember
      rw [read_relocate holds]
      by_cases same : other = cell
      · rw [same, Function.update_self, if_pos holds]
      · have different : process.read other ≠ some n :=
          fun also => same (owned.distinct _ otherMember _ member n also holds)
        rw [Function.update_of_ne same, if_neg different]
    · intro other different
      rw [read_relocate holds]
      refine Function.update_of_ne ?_ ..
      rintro rfl
      exact different holds

/-! ### Applying one operation -/

theorem mvfd_owned (owned : Owned process.table process.cells process.read held visible)
    {oldfd newfd : Nat} (shown : visible oldfd ≠ none)
    (unheld : ∀ cell ∈ process.cells, process.read cell ≠ some newfd) :
    ∃ table, process.mvfd oldfd newfd = some { process with table } ∧
      Owned table process.cells process.read held
        (Function.update (Function.update visible oldfd none) newfd (visible oldfd)) := by
  unfold mvfd
  by_cases same : oldfd = newfd
  · subst same
    refine ⟨process.table, if_pos rfl, ?_⟩
    rwa [Function.update_idem, Function.update_eq_self]
  · have unheldOld : ∀ cell ∈ process.cells, process.read cell ≠ some oldfd :=
      fun cell member holds => shown (owned.hidden cell member oldfd holds)
    obtain ⟨file, isFile⟩ := Option.ne_none_iff_exists'.mp shown
    rw [if_neg same, Descriptors.dup2, owned.shown oldfd unheldOld, isFile]
    refine ⟨_, rfl, ?_⟩
    rw [Function.update_comm same]
    exact (owned.set unheld (some file)).set unheldOld none

theorem dodeferred_none (owned : Owned process.table process.cells process.read held visible)
    (userfd : Nat) : ∃ result, process.dodeferred none userfd = some result ∧
      Released process result userfd ∧
      Owned result.table result.cells result.read held (Function.update visible userfd none) := by
  obtain ⟨released, run, effect, kept⟩ := releasefd_spec owned userfd
  refine ⟨{ released with table := released.table.close userfd }, ?_, ?_, ?_⟩
  · rw [dodeferred, run]
    rfl
  · exact ⟨effect.reserved, effect.userfds, effect.read, effect.read_other⟩
  · exact kept.set (effect.unheld owned) none

theorem dodeferred_some (owned : Owned process.table process.cells process.read held visible)
    {realfd : Nat} (shown : visible realfd ≠ none) (userfd : Nat) :
    ∃ result, process.dodeferred (some realfd) userfd = some result ∧
      Released process result userfd ∧
      Owned result.table result.cells result.read held
        (Function.update (Function.update visible realfd none) userfd (visible realfd)) := by
  obtain ⟨released, run, effect, kept⟩ := releasefd_spec owned userfd
  obtain ⟨table, moved, result⟩ := mvfd_owned kept shown (effect.unheld owned)
  refine ⟨{ released with table }, ?_, ?_, result⟩
  · rw [dodeferred, run]
    exact moved
  · exact ⟨effect.reserved, effect.userfds, effect.read, effect.read_other⟩

/-- What one round of `remapfds` does: the entry's variable is given up, the file it holds is
seen under the user descriptor, and a variable that held that number is moved. -/
structure Remapped (process result : Process File) (i : Nat) (userfd : Nat) : Prop where
  reserved : ∃ reserve, reserve.fdp = .deferred i ∧
    process.reserved.Perm (reserve :: result.reserved)
  userfds : result.deftab.map Defer.userfd = process.deftab.map Defer.userfd
  read : ∀ cell ∈ result.cells, result.read cell =
    if process.read cell = some userfd then some process.table.lowestFree else process.read cell

theorem remapStep_spec (owned : Owned process.table process.cells process.read held visible)
    (nodup : process.cells.Nodup) {i : Nat} {defer : Defer}
    (entry : process.deftab[i]? = some defer) (member : .deferred i ∈ process.cells) :
    ∃ result, remapStep i process = some result ∧ Remapped process result i defer.userfd ∧
      Owned result.table result.cells result.read held
        (Function.update visible defer.userfd (held (.deferred i))) := by
  obtain ⟨reserve, reserved, run, address, perm⟩ := unregisterfd_spec member
  have cells := cells_of_perm perm
  rw [address] at cells
  have fresh := (List.nodup_cons.mp (cells.nodup_iff.mp nodup)).1
  have holds : process.read (.deferred i) = defer.realfd := by simp [read, entry]
  let rest : Process File := { process with reserved }
  have before : Owned process.table (.deferred i :: rest.cells) process.read held visible :=
    owned.mono fun cell => cells.mem_iff.symm
  -- whatever the operation is, the rest of the round works on the list without the entry
  have finish : ∀ result, Released rest result defer.userfd →
      Remapped process result i defer.userfd := by
    intro result effect
    have sameCells : result.cells = rest.cells :=
      congrArg (List.map Reserve.fdp) effect.reserved
    refine ⟨⟨reserve, address, ?_⟩, effect.userfds, ?_⟩
    · rw [effect.reserved]
      exact perm
    · rw [sameCells]
      exact effect.read
  cases operation : defer.realfd with
  | none =>
    rw [operation] at holds
    have closed : held (.deferred i) = none := by
      have isSome := owned.isSome_held _ member
      rw [holds] at isSome
      exact Option.isNone_iff_eq_none.mp (by simpa using isSome)
    have given : Owned rest.table rest.cells rest.read held visible := before.giveUp_none holds
    obtain ⟨result, applied, effect, kept⟩ := dodeferred_none given defer.userfd
    refine ⟨result, ?_, finish result effect, ?_⟩
    · rw [remapStep, run]
      simpa [entry, operation] using applied
    · rw [closed]
      exact kept
  | some realfd =>
    rw [operation] at holds
    have given : Owned rest.table rest.cells rest.read held
        (Function.update visible realfd (held (.deferred i))) := before.giveUp fresh holds
    have isSome := owned.isSome_held _ member
    have shown : Function.update visible realfd (held (.deferred i)) realfd ≠ none := by
      rw [Function.update_self]
      rw [holds] at isSome
      exact Option.isSome_iff_ne_none.mp isSome
    obtain ⟨result, applied, effect, kept⟩ := dodeferred_some given shown defer.userfd
    refine ⟨result, ?_, finish result effect, ?_⟩
    · rw [remapStep, run]
      simpa [entry, operation] using applied
    · have hidden : Function.update visible realfd none = visible := by
        rw [← owned.hidden _ member _ holds, Function.update_eq_self]
      rwa [Function.update_self, Function.update_idem, hidden] at kept

end Process

end Desh
