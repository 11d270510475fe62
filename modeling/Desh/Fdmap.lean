/-
This file compares the two readings of the table of deferred operations: the
parent's `fdmap`, which looks a user descriptor up from the last entry to the
first, and the child's `remapfds`, which applies the entries in order. `fdmap`
does not stop at the entry it finds: it goes on below it with the entry's real
descriptor as if that were a user's.
-/

import Desh.Closefds

namespace Desh

variable {File : Type}

/-! ### Where `fdmap` looks -/

/-- Among the first `count` entries the entry `i` is the last one for the user descriptor `n`. -/
def LastUse (deftab : List Defer) (count n i : Nat) : Prop :=
  i < count ∧ (deftab[i]?.map Defer.userfd = some n) ∧
    ∀ k, i < k → k < count → deftab[k]?.map Defer.userfd ≠ some n

/-- The real descriptor of the entry `i` is the user descriptor of an earlier entry, the last such
being `j`. -/
def Shadows (deftab : List Defer) (i j : Nat) : Prop :=
  ∃ realfd, deftab[i]?.bind Defer.realfd = some realfd ∧ LastUse deftab i realfd j

theorem LastUse.unique {deftab : List Defer} {count n i j : Nat}
    (first : LastUse deftab count n i) (second : LastUse deftab count n j) : i = j := by
  obtain ⟨firstInside, firstUse, firstLast⟩ := first
  obtain ⟨secondInside, secondUse, secondLast⟩ := second
  rcases Nat.lt_trichotomy i j with less | same | greater
  · exact absurd secondUse (firstLast j less secondInside)
  · exact same
  · exact absurd firstUse (secondLast i greater firstInside)

theorem lastUse_succ {deftab : List Defer} {count n : Nat} {defer : Defer}
    (entry : deftab[count]? = some defer) (i : Nat) :
    LastUse deftab (count + 1) n i ↔
      if defer.userfd = n then i = count else LastUse deftab count n i := by
  have here : deftab[count]?.map Defer.userfd = some n ↔ defer.userfd = n := by simp [entry]
  split_ifs with same
  · constructor
    · intro use
      exact use.unique ⟨Nat.lt_succ_self count, here.mpr same, fun k above below =>
        absurd (Nat.lt_succ_iff.mp below) (Nat.not_le.mpr above)⟩
    · rintro rfl
      exact ⟨Nat.lt_succ_self i, here.mpr same, fun k above below =>
        absurd (Nat.lt_succ_iff.mp below) (Nat.not_le.mpr above)⟩
  · constructor
    · rintro ⟨inside, use, last⟩
      rcases Nat.lt_succ_iff_lt_or_eq.mp inside with less | rfl
      · exact ⟨less, use, fun k above below => last k above (Nat.lt_succ_of_lt below)⟩
      · exact absurd (here.mp use) same
    · rintro ⟨inside, use, last⟩
      refine ⟨Nat.lt_succ_of_lt inside, use, fun k above below => ?_⟩
      rcases Nat.lt_succ_iff_lt_or_eq.mp below with less | rfl
      · exact last k above less
      · exact fun use => same (here.mp use)

/-- The entry `fdmap` finds among the first `count`, and what it goes on with. -/
theorem fdmapLoop_take {deftab : List Defer} {count : Nat} (inside : count ≤ deftab.length)
    (n : Nat) :
    (∃ i, LastUse deftab count n i ∧ fdmapLoop (deftab.take count).reverse n =
        (deftab[i]?.bind Defer.realfd).bind (fdmapLoop (deftab.take i).reverse)) ∨
      (∀ i, ¬ LastUse deftab count n i) ∧ fdmapLoop (deftab.take count).reverse n = some n := by
  induction count with
  | zero => exact .inr ⟨fun i use => absurd use.1 (Nat.not_lt_zero i), rfl⟩
  | succ count inductionHypothesis =>
    have entry : deftab[count]? = some deftab[count] := List.getElem?_eq_getElem inside
    have reversed : (deftab.take (count + 1)).reverse =
        deftab[count] :: (deftab.take count).reverse := by
      rw [List.take_add_one, entry, Option.toList_some, List.reverse_append]
      rfl
    rw [reversed, fdmapLoop]
    simp only [lastUse_succ entry]
    by_cases same : deftab[count].userfd = n
    · refine .inl ⟨count, if_pos same |>.mpr rfl, ?_⟩
      rw [if_pos same.symm, entry, Option.bind_some]
    · simpa only [if_neg same, if_neg (Ne.symm same)] using
        inductionHypothesis (Nat.le_of_succ_le inside)

theorem shadows_rightUnique (deftab : List Defer) : Relator.RightUnique (Shadows deftab) := by
  rintro i j k ⟨realfd, first, use⟩ ⟨realfd', second, use'⟩
  obtain rfl := Option.some.inj (first.symm.trans second)
  exact use.unique use'

/-- From an entry on, `fdmap` follows shadowed real descriptors to their end. -/
theorem fdmapLoop_realfd {deftab : List Defer} {i : Nat} (inside : i < deftab.length) :
    ∃ j, Relation.ReflTransGen (Shadows deftab) i j ∧ (∀ k, ¬ Shadows deftab j k) ∧
      (deftab[i]?.bind Defer.realfd).bind (fdmapLoop (deftab.take i).reverse) =
        deftab[j]?.bind Defer.realfd := by
  induction i using Nat.strong_induction_on with
  | _ i inductionHypothesis =>
    cases real : deftab[i]?.bind Defer.realfd with
    | none =>
      refine ⟨i, .refl, ?_, by rw [real]; rfl⟩
      rintro k ⟨realfd, found, -⟩
      rw [real] at found
      cases found
    | some realfd =>
      rw [Option.bind_some]
      rcases fdmapLoop_take (Nat.le_of_lt inside) realfd with ⟨j, use, loop⟩ | ⟨unused, loop⟩
      · obtain ⟨last, chain, ends, value⟩ :=
          inductionHypothesis j use.1 (use.1.trans inside)
        exact ⟨last, .head ⟨realfd, real, use⟩ chain, ends, loop.trans value⟩
      · refine ⟨i, .refl, ?_, by rw [loop, real]⟩
        rintro k ⟨realfd', found, use⟩
        obtain rfl := Option.some.inj (real.symm.trans found)
        exact unused k use

theorem chain_end_unique {deftab : List Defer} {i j k : Nat}
    (first : Relation.ReflTransGen (Shadows deftab) i j) (firstEnds : ∀ l, ¬ Shadows deftab j l)
    (second : Relation.ReflTransGen (Shadows deftab) i k)
    (secondEnds : ∀ l, ¬ Shadows deftab k l) : j = k := by
  rcases Relation.ReflTransGen.total_of_right_unique (shadows_rightUnique deftab) first second with
    onward | back
  · rcases onward.cases_head with same | ⟨next, step, -⟩
    · exact same
    · exact absurd step (firstEnds next)
  · rcases back.cases_head with same | ⟨next, step, -⟩
    · exact same.symm
    · exact absurd step (secondEnds next)

namespace Process

variable {process : Process File}

/-! ### What the child makes of a user descriptor -/

theorem redirected_lastUse (process : Process File) {count : Nat}
    (inside : count ≤ process.deftab.length) (n : Nat) :
    (∀ i, LastUse process.deftab count n i →
        process.redirected count n = process.held (.deferred i)) ∧
      ((∀ i, ¬ LastUse process.deftab count n i) →
        process.redirected count n = process.visible n) := by
  induction count with
  | zero => exact ⟨fun i use => absurd use.1 (Nat.not_lt_zero i), fun _ => rfl⟩
  | succ count inductionHypothesis =>
    have entry : process.deftab[count]? = some process.deftab[count] :=
      List.getElem?_eq_getElem inside
    rw [redirected_succ entry]
    simp only [lastUse_succ entry]
    by_cases same : process.deftab[count].userfd = n
    · simp only [if_pos same]
      rw [← same, Function.update_self]
      exact ⟨fun i here => by rw [here], fun unused => absurd rfl (unused count)⟩
    · simp only [if_neg same]
      rw [Function.update_of_ne (Ne.symm same)]
      exact inductionHypothesis (Nat.le_of_succ_le inside)

/-- Following shadowed real descriptors from the last entry for a user descriptor ends at an entry
with the same file. -/
def ChainAgrees (process : Process File) (n : Nat) : Prop :=
  ∀ i j, LastUse process.deftab process.deftab.length n i →
    Relation.ReflTransGen (Shadows process.deftab) i j → (∀ k, ¬ Shadows process.deftab j k) →
      process.held (.deferred j) = process.held (.deferred i)

/-- A user descriptor: some operation is on it, or no registered variable holds it. -/
def UserDescriptor (process : Process File) (n : Nat) : Prop :=
  (∃ defer ∈ process.deftab, defer.userfd = n) ∨
    ∀ cell ∈ process.cells, process.read cell ≠ some n

theorem exists_lastUse {deftab : List Defer} {n : Nat} {defer : Defer} (member : defer ∈ deftab)
    (use : defer.userfd = n) : ∃ i, LastUse deftab deftab.length n i := by
  have upTo : ∀ count, count ≤ deftab.length → defer ∈ deftab.take count →
      ∃ i, LastUse deftab count n i := by
    intro count inside
    induction count with
    | zero => simp
    | succ count inductionHypothesis =>
      have entry : deftab[count]? = some deftab[count] := List.getElem?_eq_getElem inside
      rw [List.take_add_one, entry, Option.toList_some, List.mem_append, List.mem_singleton]
      simp only [lastUse_succ entry]
      intro found
      by_cases same : deftab[count].userfd = n
      · exact ⟨count, by rw [if_pos same]⟩
      · simp only [if_neg same]
        refine inductionHypothesis (Nat.le_of_succ_le inside) (found.resolve_right ?_)
        rintro rfl
        exact same use
  exact upTo deftab.length (le_refl _) (by rwa [List.take_length])

theorem held_deferred (process : Process File) (i : Nat) :
    process.held (.deferred i) =
      (process.deftab[i]?.bind Defer.realfd).bind process.table.file := rfl

/-- The file the parent finds for a user descriptor. -/
theorem fdmap_bind_file (process : Process File) (n : Nat) :
    (∀ i, LastUse process.deftab process.deftab.length n i → ∃ j,
        Relation.ReflTransGen (Shadows process.deftab) i j ∧
          (∀ k, ¬ Shadows process.deftab j k) ∧
          (fdmap process.deftab n).bind process.table.file = process.held (.deferred j)) ∧
      ((∀ i, ¬ LastUse process.deftab process.deftab.length n i) →
        (fdmap process.deftab n).bind process.table.file = process.table.file n) := by
  have whole := fdmapLoop_take (le_refl process.deftab.length) n
  rw [List.take_length] at whole
  rcases whole with ⟨i, use, loop⟩ | ⟨unused, loop⟩
  · obtain ⟨j, chain, ends, value⟩ := fdmapLoop_realfd use.1
    refine ⟨fun i' use' => ?_, fun none => absurd use (none i)⟩
    obtain rfl := use.unique use'
    exact ⟨j, chain, ends, by rw [fdmap, loop, value, held_deferred]⟩
  · exact ⟨fun i use => absurd use (unused i), fun _ => by rw [fdmap, loop, Option.bind_some]⟩

/-- The file the child is left with: what the operations ask for, unless a descriptor of the shell
was stranded there. -/
theorem remapfds_file (wellFormed : process.WellFormed) (n : Nat)
    (user : process.UserDescriptor n) : ∃ child, process.remapfds = some child ∧
      (process.Strands n → child.table.file n ≠ none ∧
        process.redirected process.deftab.length n = none) ∧
      (¬ process.Strands n →
        child.table.file n = process.redirected process.deftab.length n) := by
  obtain ⟨result, run, remapping⟩ := remapSteps_spec wellFormed (le_refl process.deftab.length)
  have stranded : (∃ cell ∈ result.cells, result.read cell = some n) ↔ process.Strands n := by
    rw [shell_read_iff wellFormed run, or_iff_right]
    rintro ⟨address, member, holds, unmoved⟩
    rcases user with ⟨defer, listed, use⟩ | unheld
    · exact unmoved defer (by simpa using listed) use
    · exact unheld _ member holds
  refine ⟨{ result with deftab := [] }, by rw [remapfds, run]; rfl, ?_, ?_⟩
  · intro found
    obtain ⟨cell, member, holds⟩ := stranded.mpr found
    refine ⟨?_, remapping.owned.hidden cell member n holds⟩
    have isSome := remapping.owned.isSome_held cell member
    rw [holds, ← remapping.owned.file_number cell member n holds] at isSome
    exact Option.isSome_iff_ne_none.mp isSome
  · intro clear
    refine remapping.owned.shown n fun cell member holds => ?_
    exact clear (stranded.mp ⟨cell, member, holds⟩)

/-- The parent and the child agree on a user descriptor exactly when following shadowed real
descriptors ends at the same file and no descriptor of the shell is stranded there. -/
theorem remapfds_fdmap (wellFormed : process.WellFormed) (n : Nat)
    (user : process.UserDescriptor n) :
    (∃ child, process.remapfds = some child ∧
        child.table.file n = (fdmap process.deftab n).bind process.table.file) ↔
      process.ChainAgrees n ∧ ¬ process.Strands n := by
  obtain ⟨child, run, lost, kept⟩ := remapfds_file wellFormed n user
  have deterministic : (∃ child, process.remapfds = some child ∧
      child.table.file n = (fdmap process.deftab n).bind process.table.file) ↔
      child.table.file n = (fdmap process.deftab n).bind process.table.file := by
    simp [run]
  rw [deterministic]
  obtain ⟨parentUsed, parentUnused⟩ := fdmap_bind_file process n
  obtain ⟨childUsed, childUnused⟩ := redirected_lastUse process (le_refl process.deftab.length) n
  by_cases used : ∃ i, LastUse process.deftab process.deftab.length n i
  · obtain ⟨i, use⟩ := used
    obtain ⟨j, chain, ends, parent⟩ := parentUsed i use
    have agrees : process.ChainAgrees n ↔
        process.held (.deferred j) = process.held (.deferred i) := by
      refine ⟨fun each => each i j use chain ends, fun same i' j' use' chain' ends' => ?_⟩
      obtain rfl := use.unique use'
      obtain rfl := chain_end_unique chain ends chain' ends'
      exact same
    rw [parent, agrees]
    by_cases stranded : process.Strands n
    · -- the last operation closes the descriptor, so there is nothing to follow
      obtain ⟨isOpen, closed⟩ := lost stranded
      rw [childUsed i use] at closed
      have isLast : i = j := by
        rcases chain.cases_head with same | ⟨k, ⟨realfd, real, -⟩, -⟩
        · exact same
        · have member := (wellFormed.deferred i).mpr use.1
          have isOpen := wellFormed.opened _ member realfd real
          rw [held_deferred, real, Option.bind_some] at closed
          exact absurd closed isOpen
      rw [← isLast, closed]
      exact iff_of_false isOpen fun both => both.2 stranded
    · rw [kept stranded, childUsed i use, eq_comm, and_iff_left stranded]
  · have unused : ∀ i, ¬ LastUse process.deftab process.deftab.length n i :=
      fun i use => used ⟨i, use⟩
    have unheld : ∀ cell ∈ process.cells, process.read cell ≠ some n := by
      rcases user with ⟨defer, listed, use⟩ | unheld
      · exact absurd (exists_lastUse listed use) used
      · exact unheld
    have agrees : process.ChainAgrees n := fun i j use => absurd use (unused i)
    have asked := (childUnused unused).trans (visible_of_unheld unheld)
    rw [parentUnused unused, and_iff_right agrees, ← asked]
    by_cases stranded : process.Strands n
    · obtain ⟨isOpen, closed⟩ := lost stranded
      rw [closed]
      exact iff_of_false isOpen fun clear => clear stranded
    · exact iff_of_true (kept stranded) stranded

end Process

/-! ### Runs of the parent -/

/-- What a parent shell does to its table: `%close`, `%openfile` and `%dup` push an operation, and
the operation is dropped when the command under it is done. -/
inductive Redirection (File : Type) where
  | close (userfd : Nat)
  | openfile (file : File) (userfd : Nat)
  | dup (srcfd userfd : Nat)
  | undefer
  deriving DecidableEq

namespace Process

variable {process : Process File}

/-- One such step. `%dup` fails on a descriptor that is closed. -/
def redirect (process : Process File) : Redirection File → Option (Process File)
  | .close userfd => process.pushdefer none userfd
  | .openfile file userfd =>
      pushdefer (some (process.table.open file).1) userfd
        { process with table := (process.table.open file).2 }
  | .dup srcfd userfd =>
      ((fdmap process.deftab srcfd).bind process.table.dup).bind fun (fd, table) =>
        pushdefer (some fd) userfd { process with table }
  | .undefer => process.undefer

theorem WellFormed.of_cells (wellFormed : process.WellFormed) {other : Process File}
    (cells : other.cells.Perm process.cells) (table : other.table = process.table)
    (deftab : other.deftab = process.deftab) (shell : other.shell = process.shell) :
    other.WellFormed := by
  have read : other.read = process.read := by
    funext cell
    cases cell <;> simp [Process.read, deftab, shell]
  refine ⟨cells.nodup_iff.mpr wellFormed.nodup, ?_, ?_, ?_⟩
  · intro i
    rw [cells.mem_iff, deftab]
    exact wellFormed.deferred i
  · intro cell member
    rw [read, table]
    exact wellFormed.opened cell (cells.mem_iff.mp member)
  · intro first firstMember second secondMember
    rw [read]
    exact wellFormed.distinct first (cells.mem_iff.mp firstMember) second
      (cells.mem_iff.mp secondMember)

/-- A new file under the lowest free number is in nobody's way. -/
theorem WellFormed.set_lowestFree (wellFormed : process.WellFormed) (file : Option File) :
    ({ process with table := process.table.set process.table.lowestFree file } :
      Process File).WellFormed := by
  refine ⟨wellFormed.nodup, wellFormed.deferred, ?_, wellFormed.distinct⟩
  intro cell member n holds
  have inUse := wellFormed.opened cell member n holds
  rw [Descriptors.file_set, Function.update_of_ne (Descriptors.ne_lowestFree inUse)]
  exact inUse

theorem foldlM_unregisterfd (indices : List Nat) {rest : List Cell}
    (cells : process.cells.Perm (indices.map Cell.deferred ++ rest)) :
    ∃ reserved, indices.foldlM (fun process i => unregisterfd (.deferred i) process) process =
        some { process with reserved } ∧ (reserved.map Reserve.fdp).Perm rest := by
  induction indices generalizing process with
  | nil => exact ⟨process.reserved, rfl, cells⟩
  | cons i indices inductionHypothesis =>
    have member : Cell.deferred i ∈ process.cells := cells.mem_iff.mpr (by simp)
    obtain ⟨reserve, reserved, run, address, perm⟩ := unregisterfd_spec member
    have kept := (cells_of_perm perm).symm.trans cells
    rw [address] at kept
    obtain ⟨reserved', fold, left⟩ := inductionHypothesis kept.cons_inv
    exact ⟨reserved', by rw [List.foldlM_cons, run]; exact fold, left⟩

theorem foldl_registerfd (indices : List Nat) (process : Process File) :
    indices.foldl (fun process i => registerfd (.deferred i) true process) process =
      { process with
        reserved := process.reserved ++ indices.map fun i => ⟨.deferred i, true⟩ } := by
  induction indices generalizing process with
  | nil => simp
  | cons i indices inductionHypothesis =>
    rw [List.foldl_cons, inductionHypothesis]
    simp [registerfd]

/-- Growing the table changes nothing but the order of the registered list. -/
theorem growDeftab_spec (wellFormed : process.WellFormed) :
    ∃ grown, process.growDeftab = some grown ∧ grown.cells.Perm process.cells ∧
      grown.table = process.table ∧ grown.deftab = process.deftab ∧
      grown.shell = process.shell := by
  have fields : ((List.range process.deftab.length).map Cell.deferred).Subperm process.cells := by
    refine List.subperm_of_subset (List.nodup_range.map fun _ _ same => Cell.deferred.inj same) ?_
    intro cell member
    obtain ⟨i, inside, rfl⟩ := List.mem_map.mp member
    exact (wellFormed.deferred i).mpr (List.mem_range.mp inside)
  obtain ⟨ordered, same, sublist⟩ := fields
  obtain ⟨rest, split⟩ := sublist.exists_perm_append
  have cells := split.trans (same.append_right rest)
  obtain ⟨reserved, run, left⟩ := foldlM_unregisterfd _ cells
  refine ⟨{ process with
    defmax := process.defmax + 10
    reserved := reserved ++ (List.range process.deftab.length).map fun i => ⟨.deferred i, true⟩ },
    by simp only [growDeftab, run, Option.map_some, foldl_registerfd], ?_, rfl, rfl, rfl⟩
  refine List.Perm.trans ?_ (List.perm_append_comm.trans cells.symm)
  simpa [Process.cells, Function.comp_def] using left.append_right _

theorem read_append (process : Process File) (defer : Defer) {cell : Cell}
    (other : cell ≠ .deferred process.deftab.length) :
    ({ process with deftab := process.deftab ++ [defer] } : Process File).read cell =
      process.read cell := by
  cases cell with
  | deferred i =>
    have different : i ≠ process.deftab.length := fun same => other (congrArg Cell.deferred same)
    by_cases inside : i < process.deftab.length
    · simp [Process.read, List.getElem?_append_left inside]
    · have beyond : process.deftab.length < i := by omega
      simp [Process.read, beyond, Nat.le_of_lt beyond]
  | shell address => rfl

theorem read_append_self (process : Process File) (defer : Defer) :
    ({ process with deftab := process.deftab ++ [defer] } : Process File).read
      (.deferred process.deftab.length) = defer.realfd := by
  simp [Process.read]

/-- A new entry whose real descriptor is open and nobody else's keeps the bookkeeping well
formed. -/
theorem WellFormed.push (wellFormed : process.WellFormed) (defer : Defer)
    (fresh : ∀ n, defer.realfd = some n →
      process.table.file n ≠ none ∧ ∀ cell ∈ process.cells, process.read cell ≠ some n) :
    (registerfd (.deferred process.deftab.length) true
      { process with deftab := process.deftab ++ [defer] }).WellFormed := by
  have cells : (registerfd (.deferred process.deftab.length) true
      { process with deftab := process.deftab ++ [defer] }).cells =
        process.cells ++ [.deferred process.deftab.length] := by
    simp [registerfd, Process.cells]
  have unregistered : Cell.deferred process.deftab.length ∉ process.cells := fun member =>
    absurd ((wellFormed.deferred _).mp member) (Nat.lt_irrefl _)
  have read : ∀ cell ∈ process.cells, (registerfd (.deferred process.deftab.length) true
      { process with deftab := process.deftab ++ [defer] }).read cell = process.read cell := by
    intro cell member
    refine read_append process defer ?_
    rintro rfl
    exact unregistered member
  have readSelf : (registerfd (.deferred process.deftab.length) true
      { process with deftab := process.deftab ++ [defer] }).read
        (.deferred process.deftab.length) = defer.realfd := read_append_self process defer
  refine ⟨?_, ?_, ?_, ?_⟩
  · rw [cells, List.nodup_append]
    refine ⟨wellFormed.nodup, List.nodup_singleton _, ?_⟩
    rintro cell member other same rfl
    rw [List.mem_singleton.mp same] at member
    exact unregistered member
  · intro i
    rw [cells, List.mem_append, List.mem_singleton, wellFormed.deferred, Cell.deferred.injEq]
    simp only [registerfd, List.length_append, List.length_singleton]
    omega
  · intro cell member n holds
    rw [cells, List.mem_append, List.mem_singleton] at member
    rcases member with member | rfl
    · rw [read cell member] at holds
      exact wellFormed.opened cell member n holds
    · rw [readSelf] at holds
      exact (fresh n holds).1
  · intro first firstMember second secondMember n firstHolds secondHolds
    rw [cells, List.mem_append, List.mem_singleton] at firstMember secondMember
    rcases firstMember with firstMember | rfl <;> rcases secondMember with secondMember | rfl
    · rw [read first firstMember] at firstHolds
      rw [read second secondMember] at secondHolds
      exact wellFormed.distinct first firstMember second secondMember n firstHolds secondHolds
    · rw [read first firstMember] at firstHolds
      rw [readSelf] at secondHolds
      exact absurd firstHolds ((fresh n secondHolds).2 first firstMember)
    · rw [read second secondMember] at secondHolds
      rw [readSelf] at firstHolds
      exact absurd secondHolds ((fresh n firstHolds).2 second secondMember)
    · rfl

theorem pushdefer_wellFormed (wellFormed : process.WellFormed) {realfd : Option Nat}
    (fresh : ∀ n, realfd = some n →
      process.table.file n ≠ none ∧ ∀ cell ∈ process.cells, process.read cell ≠ some n)
    (userfd : Nat) : ∃ result, process.pushdefer realfd userfd = some result ∧
      result.WellFormed := by
  obtain ⟨grown, run, cells, table, deftab, shell⟩ : ∃ grown,
      (if process.defmax ≤ process.deftab.length then process.growDeftab else some process) =
        some grown ∧ grown.cells.Perm process.cells ∧ grown.table = process.table ∧
        grown.deftab = process.deftab ∧ grown.shell = process.shell := by
    split_ifs
    · exact growDeftab_spec wellFormed
    · exact ⟨process, rfl, List.Perm.refl _, rfl, rfl, rfl⟩
  have read : grown.read = process.read := by
    funext cell
    cases cell <;> simp [Process.read, deftab, shell]
  refine ⟨_, by rw [pushdefer, run]; rfl,
    (wellFormed.of_cells cells table deftab shell).push ⟨realfd, userfd⟩ ?_⟩
  intro n real
  obtain ⟨isOpen, unheld⟩ := fresh n real
  rw [table, read]
  exact ⟨isOpen, fun cell member => unheld cell (cells.mem_iff.mp member)⟩

/-- Dropping the latest operation takes its entry off both lists and closes its descriptor. -/
theorem undefer_spec (wellFormed : process.WellFormed) {result : Process File}
    (run : process.undefer = some result) :
    ∃ init defer, process.deftab = init ++ [defer] ∧ result.deftab = init ∧
      result.shell = process.shell ∧
      result.table = defer.realfd.elim process.table process.table.close ∧
      process.cells.Perm (.deferred init.length :: result.cells) := by
  unfold undefer at run
  cases latest : process.deftab.getLast? with
  | none => rw [latest] at run; cases run
  | some defer =>
    obtain ⟨init, isDeftab⟩ := List.getLast?_eq_some_iff.mp latest
    have length : process.deftab.length = init.length + 1 := by rw [isDeftab]; simp
    have member : Cell.deferred init.length ∈ process.cells :=
      (wellFormed.deferred _).mpr (by omega)
    obtain ⟨reserve, reserved, unregistered, address, perm⟩ := unregisterfd_spec member
    have cells := cells_of_perm perm
    rw [address] at cells
    rw [latest, length, Nat.add_sub_cancel, unregistered] at run
    simp only [Option.map_some, Option.some.injEq] at run
    subst run
    exact ⟨init, defer, isDeftab, by simp [isDeftab], rfl, rfl, cells⟩

theorem undefer_wellFormed (wellFormed : process.WellFormed) {result : Process File}
    (run : process.undefer = some result) : result.WellFormed := by
  obtain ⟨init, defer, before, after, shell, table, cells⟩ := undefer_spec wellFormed run
  obtain ⟨fresh, nodup⟩ := List.nodup_cons.mp (cells.nodup_iff.mp wellFormed.nodup)
  have keeps : ∀ cell ∈ result.cells, cell ∈ process.cells :=
    fun cell member => cells.mem_iff.mpr (List.mem_cons_of_mem _ member)
  have lastRead : process.read (.deferred init.length) = defer.realfd := by
    simp [Process.read, before]
  have lastMember : Cell.deferred init.length ∈ process.cells := cells.mem_iff.mpr (by simp)
  -- the variables that stay read as they did
  have read : ∀ cell ∈ result.cells, result.read cell = process.read cell := by
    intro cell member
    cases cell with
    | deferred i =>
      have other : i ≠ init.length := by
        rintro rfl
        exact fresh member
      have inside : i < process.deftab.length := (wellFormed.deferred i).mp (keeps _ member)
      rw [before, List.length_append, List.length_singleton] at inside
      have less : i < init.length := by omega
      simp [Process.read, before, after, List.getElem?_append_left less]
    | shell address => simp [Process.read, shell]
  refine ⟨nodup, ?_, ?_, ?_⟩
  · intro i
    constructor
    · intro member
      have inside := (wellFormed.deferred i).mp (keeps _ member)
      rw [before, List.length_append, List.length_singleton] at inside
      rw [after]
      refine Nat.lt_of_le_of_ne (Nat.lt_succ_iff.mp inside) ?_
      rintro rfl
      exact fresh member
    · intro inside
      rw [after] at inside
      have member : Cell.deferred i ∈ process.cells :=
        (wellFormed.deferred i).mpr (by rw [before]; simp; omega)
      rcases List.mem_cons.mp (cells.mem_iff.mp member) with same | kept
      · exact absurd (Cell.deferred.inj same) (Nat.ne_of_lt inside)
      · exact kept
  · intro cell member n holds
    rw [read cell member] at holds
    have isOpen := wellFormed.opened cell (keeps cell member) n holds
    rw [table]
    cases real : defer.realfd with
    | none => exact isOpen
    | some realfd =>
      rw [real] at lastRead
      have other : n ≠ realfd := by
        rintro rfl
        have same := wellFormed.distinct _ (keeps cell member) _ lastMember n holds lastRead
        exact fresh (same ▸ member)
      simpa [Descriptors.close, Descriptors.file_set, other] using isOpen
  · intro first firstMember second secondMember n firstHolds secondHolds
    rw [read first firstMember] at firstHolds
    rw [read second secondMember] at secondHolds
    exact wellFormed.distinct first (keeps first firstMember) second
      (keeps second secondMember) n firstHolds secondHolds

theorem pushdefer_lowestFree_wellFormed (wellFormed : process.WellFormed) (file : File)
    (userfd : Nat) {result : Process File}
    (run : pushdefer (some process.table.lowestFree) userfd
      { process with table := process.table.set process.table.lowestFree (some file) } =
        some result) : result.WellFormed := by
  have fresh : ∀ n, some process.table.lowestFree = some n →
      (process.table.set process.table.lowestFree (some file)).file n ≠ none ∧
        ∀ cell ∈ process.cells, process.read cell ≠ some n := by
    rintro n ⟨⟩
    refine ⟨?_, fun cell member => wellFormed.owned.number_ne_lowestFree member⟩
    rw [Descriptors.file_set, Function.update_self]
    exact Option.some_ne_none file
  obtain ⟨result', run', formed⟩ :=
    pushdefer_wellFormed (wellFormed.set_lowestFree (some file)) fresh userfd
  obtain rfl := Option.some.inj (run.symm.trans run')
  exact formed

/-- Every step of a parent keeps its bookkeeping well formed. -/
theorem redirect_wellFormed (wellFormed : process.WellFormed) {redirection : Redirection File}
    {result : Process File} (run : process.redirect redirection = some result) :
    result.WellFormed := by
  cases redirection with
  | close userfd =>
    obtain ⟨result', run', formed⟩ :=
      @pushdefer_wellFormed _ _ wellFormed none (fun n real => nomatch real) userfd
    obtain rfl := Option.some.inj (run.symm.trans run')
    exact formed
  | openfile file userfd => exact pushdefer_lowestFree_wellFormed wellFormed file userfd run
  | dup srcfd userfd =>
    simp only [redirect, Option.bind_eq_some_iff, Descriptors.dup, Option.map_eq_some_iff] at run
    obtain ⟨_, ⟨realfd, -, file, -, rfl⟩, run⟩ := run
    exact pushdefer_lowestFree_wellFormed wellFormed file userfd run
  | undefer => exact undefer_wellFormed wellFormed run

/-- Every state a parent reaches is well formed. -/
theorem redirections_wellFormed (wellFormed : process.WellFormed)
    (redirections : List (Redirection File)) {result : Process File}
    (run : redirections.foldlM redirect process = some result) : result.WellFormed := by
  induction redirections generalizing process with
  | nil =>
    obtain rfl := Option.some.inj run
    exact wellFormed
  | cons redirection redirections inductionHypothesis =>
    rw [List.foldlM_cons] at run
    obtain ⟨next, step, rest⟩ := Option.bind_eq_some_iff.mp run
    exact inductionHypothesis (redirect_wellFormed wellFormed step) rest

/-- Whatever redirections a parent has pushed, `fdmap` gives a user descriptor the file the child
will have there exactly when following shadowed real descriptors ends at the same file and
no descriptor of the shell is stranded there. -/
theorem fdmap_remapfds_iff (start process : Process File) (wellFormed : start.WellFormed)
    (redirections : List (Redirection File))
    (run : redirections.foldlM redirect start = some process) (n : Nat)
    (user : process.UserDescriptor n) :
    (∃ child, process.remapfds = some child ∧
        child.table.file n = (fdmap process.deftab n).bind process.table.file) ↔
      process.ChainAgrees n ∧ ¬ process.Strands n :=
  remapfds_fdmap (redirections_wellFormed wellFormed redirections run) n user

/-- A parent with its terminal on the first three descriptors. -/
def onTerminal : Process String :=
  { table := ⟨[some "tty", some "tty", some "tty"]⟩, deftab := [], defmax := 0, reserved := [],
    shell := fun _ => none }

theorem onTerminal_wellFormed : onTerminal.WellFormed := by
  refine ⟨by decide, ?_, ?_, ?_⟩ <;> simp [onTerminal, cells]

/-- With standard output redirected both sides find the file. -/
theorem fdmap_remapfds_output :
    ∃ process, onTerminal.redirect (.openfile "b" 1) = some process ∧
      ∃ child, process.remapfds = some child ∧
        child.table.file 1 = (fdmap process.deftab 1).bind process.table.file := by
  refine ⟨_, rfl, (fdmap_remapfds_iff onTerminal _ onTerminal_wellFormed [.openfile "b" 1] rfl 1
    (.inl ⟨⟨some 3, 1⟩, by decide, rfl⟩)).mpr ⟨?_, ?_⟩⟩
  · rintro i j ⟨inside, -, -⟩ chain -
    have first : i = 0 := Nat.lt_one_iff.mp inside
    subst first
    rcases chain.cases_head with rfl | ⟨k, ⟨realfd, -, below, -⟩, -⟩
    · rfl
    · exact absurd below (Nat.not_lt_zero k)
  · rintro ⟨i, inside, current, run, ⟨address, member, -⟩, -⟩
    have first : i = 0 := Nat.lt_one_iff.mp inside
    subst first
    obtain rfl := Option.some.inj run
    rcases List.mem_singleton.mp member with ⟨⟩

/-- After `>[4] a > b` the file `b` has the real descriptor 4, which `fdmap` follows to `a`. -/
theorem fdmap_remapfds_shadowed :
    onTerminal.WellFormed ∧
      ∃ process, [.openfile "a" 4, .openfile "b" 1].foldlM redirect onTerminal = some process ∧
        process.UserDescriptor 1 ∧
        ¬ ∃ child, process.remapfds = some child ∧
          child.table.file 1 = (fdmap process.deftab 1).bind process.table.file := by
  refine ⟨onTerminal_wellFormed, _, rfl, .inl ⟨⟨some 4, 1⟩, by decide, rfl⟩, ?_⟩
  rintro ⟨child, isChild, agree⟩
  obtain rfl := Option.some.inj isChild
  exact absurd agree (by decide)

end Process

end Desh
