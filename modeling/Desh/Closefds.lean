/-
This file follows `remapfds` over a whole table of deferred operations and
compares the descriptors a child is left with by `closefds` with what the
operations ask for. The two agree unless a private descriptor of the shell,
moved out of the way of a user descriptor, lands on one of the first three
numbers and stays there: `closefds` closes private descriptors from 3 on only.
-/

import Desh.Fd

namespace Desh

namespace Process

variable {File : Type}

/-! ### What the operations ask for -/

/-- The file a variable's descriptor refers to. -/
def held (process : Process File) (cell : Cell) : Option File :=
  (process.read cell).bind process.table.file

/-- The descriptors the user sees: all but those of the registered variables. -/
def visible (process : Process File) (n : Nat) : Option File :=
  if process.reserved.any fun reserve => process.read reserve.fdp == some n then none
  else process.table.file n

/-- What the first `count` deferred operations, applied in order, make of the descriptors the user
sees. -/
def redirected (process : Process File) (count : Nat) : Nat → Option File :=
  (process.deftab.take count).foldl
    (fun files defer =>
      Function.update files defer.userfd (defer.realfd.bind process.table.file))
    process.visible

/-- The registered variables are the fields of the table and others, and each holds an open
descriptor of its own. -/
structure WellFormed (process : Process File) : Prop where
  nodup : process.cells.Nodup
  deferred : ∀ i, .deferred i ∈ process.cells ↔ i < process.deftab.length
  opened : ∀ cell ∈ process.cells, ∀ n, process.read cell = some n → process.table.file n ≠ none
  distinct : ∀ first ∈ process.cells, ∀ second ∈ process.cells, ∀ n,
    process.read first = some n → process.read second = some n → first = second

variable {process : Process File}

theorem visible_of_held {cell : Cell} (member : cell ∈ process.cells) {n : Nat}
    (holds : process.read cell = some n) : process.visible n = none := by
  obtain ⟨reserve, listed, rfl⟩ := List.mem_map.mp member
  refine if_pos (List.any_eq_true.mpr ⟨reserve, listed, ?_⟩)
  rw [holds, beq_self_eq_true]

theorem visible_of_unheld {n : Nat} (unheld : ∀ cell ∈ process.cells, process.read cell ≠ some n) :
    process.visible n = process.table.file n := by
  refine if_neg fun found => ?_
  obtain ⟨reserve, listed, holds⟩ := List.any_eq_true.mp found
  exact unheld reserve.fdp (List.mem_map_of_mem listed) (beq_iff_eq.mp holds)

theorem WellFormed.owned (wellFormed : process.WellFormed) :
    Owned process.table process.cells process.read process.held process.visible := by
  refine ⟨?_, ?_, wellFormed.distinct, fun cell member n => visible_of_held member,
    fun n unheld => (visible_of_unheld unheld).symm⟩
  · intro cell member n holds
    rw [held, holds, Option.bind_some]
  · intro cell member
    cases holds : process.read cell with
    | none => simp [held, holds]
    | some n =>
      rw [held, holds, Option.bind_some, Option.isSome_some, Option.isSome_iff_ne_none]
      exact wellFormed.opened cell member n holds

theorem redirected_succ {i : Nat} {defer : Defer} (entry : process.deftab[i]? = some defer) :
    process.redirected (i + 1) =
      Function.update (process.redirected i) defer.userfd (process.held (.deferred i)) := by
  have taken : process.deftab.take (i + 1) = process.deftab.take i ++ [defer] := by
    rw [List.take_add_one, entry]
    rfl
  have holds : process.held (.deferred i) = defer.realfd.bind process.table.file := by
    simp [held, read, entry]
  rw [redirected, taken, List.foldl_append, holds]
  rfl

/-! ### The run of `remapfds` -/

/-- What holds after the first `count` entries of the table have been applied. -/
structure Remapping (process current : Process File) (count : Nat) : Prop where
  owned : Owned current.table current.cells current.read process.held (process.redirected count)
  nodup : current.cells.Nodup
  cells : ∀ cell, cell ∈ current.cells ↔
    cell ∈ process.cells ∧ ∀ i, i < count → cell ≠ .deferred i
  listed : ∀ reserve ∈ current.reserved, reserve ∈ process.reserved
  userfds : current.deftab.map Defer.userfd = process.deftab.map Defer.userfd

theorem Remapping.entry {current : Process File} {i : Nat}
    (remapping : Remapping process current i) (inside : i < process.deftab.length) :
    ∃ defer, current.deftab[i]? = some defer ∧ defer.userfd = process.deftab[i].userfd := by
  have same := congrArg (fun userfds => userfds[i]?) remapping.userfds
  simp only [List.getElem?_map, List.getElem?_eq_getElem inside] at same
  exact Option.map_eq_some_iff.mp same

theorem Remapping.start (wellFormed : process.WellFormed) : Remapping process process 0 :=
  ⟨wellFormed.owned, wellFormed.nodup, fun cell => by simp, fun _ listed => listed, rfl⟩

/-- One round of the loop keeps the invariant. -/
theorem Remapping.step (wellFormed : process.WellFormed) {current : Process File} {i : Nat}
    (remapping : Remapping process current i) (inside : i < process.deftab.length) :
    ∃ next, remapStep i current = some next ∧ Remapping process next (i + 1) ∧
      Remapped current next i process.deftab[i].userfd := by
  obtain ⟨defer, entry, userfd⟩ := remapping.entry inside
  have member : Cell.deferred i ∈ current.cells := by
    refine (remapping.cells _).mpr ⟨(wellFormed.deferred i).mpr inside, ?_⟩
    rintro j before same
    exact absurd (Cell.deferred.inj same) (Nat.ne_of_gt before)
  obtain ⟨next, run, effect, owned⟩ := remapStep_spec remapping.owned remapping.nodup entry member
  rw [userfd, ← redirected_succ (List.getElem?_eq_getElem inside)] at owned
  rw [userfd] at effect
  obtain ⟨reserve, address, perm⟩ := effect.reserved
  have cells : current.cells.Perm (.deferred i :: next.cells) := by
    rw [← address]
    exact perm.map Reserve.fdp
  obtain ⟨fresh, nodup⟩ := List.nodup_cons.mp (cells.nodup_iff.mp remapping.nodup)
  refine ⟨next, run, ⟨owned, nodup, ?_, ?_, effect.userfds.trans remapping.userfds⟩, effect⟩
  · intro cell
    have here := cells.mem_iff (a := cell)
    rw [remapping.cells, List.mem_cons] at here
    constructor
    · intro kept
      obtain ⟨registered, before⟩ := here.mpr (.inr kept)
      refine ⟨registered, fun j upTo => ?_⟩
      rcases Nat.lt_succ_iff_lt_or_eq.mp upTo with earlier | rfl
      · exact before j earlier
      · rintro rfl
        exact fresh kept
    · rintro ⟨registered, upTo⟩
      rcases here.mp ⟨registered, fun j earlier => upTo j (Nat.lt_succ_of_lt earlier)⟩ with
        same | kept
      · exact absurd same (upTo i (Nat.lt_succ_self i))
      · exact kept
  · intro reserve' listed
    exact remapping.listed _ (perm.mem_iff.mpr (List.mem_cons_of_mem reserve listed))

theorem remapSteps_spec (wellFormed : process.WellFormed) {count : Nat}
    (inside : count ≤ process.deftab.length) :
    ∃ current, remapSteps count process = some current ∧ Remapping process current count := by
  induction count with
  | zero => exact ⟨process, rfl, Remapping.start wellFormed⟩
  | succ count inductionHypothesis =>
    obtain ⟨current, run, remapping⟩ := inductionHypothesis (Nat.le_of_succ_le inside)
    obtain ⟨next, step, remapping, -⟩ := remapping.step wellFormed inside
    exact ⟨next, by rw [remapSteps, run]; exact step, remapping⟩

/-! ### Descriptors of the shell that stay in the way -/

/-- Does applying the entry `i` move a descriptor of the shell to the number `n`, where no later
operation moves it on? It does when a variable of the shell holds the user descriptor and `n` is
the lowest free number. -/
def strands (current : Process File) (i n : Nat) : Prop :=
  (∃ address, .shell address ∈ current.cells ∧
    current.read (.shell address) = current.deftab[i]?.map Defer.userfd) ∧
  current.table.lowestFree = n ∧ ∀ defer ∈ current.deftab.drop (i + 1), defer.userfd ≠ n

/-- Does some round of `remapfds` do so? -/
def Strands (process : Process File) (n : Nat) : Prop :=
  ∃ i, i < process.deftab.length ∧ ∃ current, remapSteps i process = some current ∧
    current.strands i n

/-- A variable of the shell holds `n`, and no entry from `count` on would move it. -/
def Stays (process current : Process File) (count n : Nat) : Prop :=
  ∃ address, .shell address ∈ current.cells ∧ current.read (.shell address) = some n ∧
    ∀ defer ∈ process.deftab.drop count, defer.userfd ≠ n

theorem drop_userfd_ne {current : Process File}
    (userfds : current.deftab.map Defer.userfd = process.deftab.map Defer.userfd) (i n : Nat) :
    (∀ defer ∈ current.deftab.drop i, defer.userfd ≠ n) ↔
      ∀ defer ∈ process.deftab.drop i, defer.userfd ≠ n := by
  have same : (current.deftab.drop i).map Defer.userfd =
      (process.deftab.drop i).map Defer.userfd := by
    rw [List.map_drop, List.map_drop, userfds]
  rw [← List.forall_mem_map (f := Defer.userfd) (P := fun userfd => userfd ≠ n), same,
    List.forall_mem_map]

theorem Remapping.stays_step (wellFormed : process.WellFormed) {current next : Process File}
    {i : Nat} (remapping : Remapping process current i) (inside : i < process.deftab.length)
    (step : remapStep i current = some next) (n : Nat) :
    Stays process next (i + 1) n ↔ Stays process current i n ∨ current.strands i n := by
  obtain ⟨next', step', after, effect⟩ := remapping.step wellFormed inside
  obtain rfl := Option.some.inj (step.symm.trans step')
  obtain ⟨defer, entry, userfd⟩ := remapping.entry inside
  have shellCells : ∀ address,
      Cell.shell address ∈ next.cells ↔ .shell address ∈ current.cells := by
    intro address
    rw [after.cells, remapping.cells]
    simp
  have later : (∀ defer ∈ process.deftab.drop i, defer.userfd ≠ n) ↔
      process.deftab[i].userfd ≠ n ∧ ∀ defer ∈ process.deftab.drop (i + 1), defer.userfd ≠ n := by
    rw [List.drop_eq_getElem_cons inside, List.forall_mem_cons]
  have effectOn := fun address (member : Cell.shell address ∈ next.cells) =>
    effect.read (.shell address) member
  unfold Stays strands
  rw [drop_userfd_ne remapping.userfds, entry, Option.map_some, userfd]
  constructor
  · rintro ⟨address, member, holds, unmoved⟩
    rw [effectOn address member] at holds
    split_ifs at holds with moved
    · exact .inr ⟨⟨address, (shellCells address).mp member, moved⟩, Option.some.inj holds, unmoved⟩
    · refine .inl ⟨address, (shellCells address).mp member, holds, later.mpr ⟨?_, unmoved⟩⟩
      rintro rfl
      exact moved holds
  · rintro (⟨address, member, holds, unmoved⟩ | ⟨⟨address, member, holds⟩, free, unmoved⟩)
    · obtain ⟨other, unmoved⟩ := later.mp unmoved
      refine ⟨address, (shellCells address).mpr member, ?_, unmoved⟩
      rw [effectOn address ((shellCells address).mpr member), holds, if_neg]
      exact fun same => other (Option.some.inj same).symm
    · refine ⟨address, (shellCells address).mpr member, ?_, unmoved⟩
      rw [effectOn address ((shellCells address).mpr member), if_pos holds, free]

theorem stays_iff (wellFormed : process.WellFormed) {count : Nat} {current : Process File}
    (run : remapSteps count process = some current) (inside : count ≤ process.deftab.length)
    (n : Nat) :
    Stays process current count n ↔ Stays process process 0 n ∨
      ∃ i, i < count ∧ ∃ earlier, remapSteps i process = some earlier ∧ earlier.strands i n := by
  induction count generalizing current with
  | zero =>
    obtain rfl := Option.some.inj run
    simp
  | succ count inductionHypothesis =>
    obtain ⟨before, runBefore, remapping⟩ := remapSteps_spec wellFormed (Nat.le_of_succ_le inside)
    have step : remapStep count before = some current := by
      rwa [remapSteps, runBefore, Option.bind_some] at run
    rw [remapping.stays_step wellFormed inside step, inductionHypothesis runBefore
      (Nat.le_of_succ_le inside), or_assoc]
    refine or_congr_right ⟨?_, ?_⟩
    · rintro (⟨i, earlier, found⟩ | here)
      · exact ⟨i, Nat.lt_succ_of_lt earlier, found⟩
      · exact ⟨count, Nat.lt_succ_self count, before, runBefore, here⟩
    · rintro ⟨i, upTo, earlier, runEarlier, found⟩
      rcases Nat.lt_succ_iff_lt_or_eq.mp upTo with less | rfl
      · exact .inl ⟨i, less, earlier, runEarlier, found⟩
      · obtain rfl := Option.some.inj (runBefore.symm.trans runEarlier)
        exact .inr found

/-- After `remapfds` a variable of the shell holds `n` if it did before and no operation is on
`n`, or if some round strands it there. -/
theorem shell_read_iff (wellFormed : process.WellFormed) {result : Process File}
    (run : remapSteps process.deftab.length process = some result) (n : Nat) :
    (∃ cell ∈ result.cells, result.read cell = some n) ↔
      Stays process process 0 n ∨ process.Strands n := by
  obtain ⟨current, run', remapping⟩ := remapSteps_spec wellFormed (le_refl process.deftab.length)
  obtain rfl := Option.some.inj (run.symm.trans run')
  refine Iff.trans ?_ (stays_iff wellFormed run (le_refl _) n)
  constructor
  · rintro ⟨cell, member, holds⟩
    cases cell with
    | deferred i =>
      obtain ⟨registered, applied⟩ := (remapping.cells _).mp member
      exact absurd rfl (applied i ((wellFormed.deferred i).mp registered))
    | shell address => exact ⟨address, member, holds, by simp⟩
  · rintro ⟨address, member, holds, -⟩
    exact ⟨.shell address, member, holds⟩

/-! ### The closing loop -/

theorem read_write_of_ne {cell other : Cell} (different : other ≠ cell) (fd : Option Nat) :
    (process.write cell fd).read other = process.read other := by
  cases cell with
  | deferred index =>
    cases other with
    | deferred index' =>
      have indices : index ≠ index' := fun same => different (congrArg Cell.deferred same.symm)
      simp [read, write, List.getElem?_modify_ne _ _ indices]
    | shell address => rfl
  | shell address =>
    cases other with
    | deferred index => rfl
    | shell address' =>
      have addresses : address' ≠ address := fun same => different (congrArg Cell.shell same)
      simp [read, write, Function.update_of_ne addresses]

theorem closeStep_read {reserve : Reserve} {other : Cell} (different : other ≠ reserve.fdp) :
    (closeStep process reserve).read other = process.read other := by
  unfold closeStep
  split_ifs
  · exact read_write_of_ne (by exact different) none
  · rfl

theorem closeStep_file {reserve : Reserve} (marked : reserve.closeonfork = true) (n : Nat) :
    (closeStep process reserve).table.file n =
      if process.read reserve.fdp = some n ∧ 3 ≤ n then none else process.table.file n := by
  rw [closeStep, if_pos marked, write_table]
  cases holds : process.read reserve.fdp with
  | none => simp
  | some fd =>
    by_cases same : n = fd
    · subst same
      by_cases high : 3 ≤ n <;> simp [high, Descriptors.close, Descriptors.file_set]
    · have other : ¬ (some fd = some n ∧ 3 ≤ n) :=
        fun both => same (Option.some.inj both.1).symm
      rw [if_neg other]
      by_cases high : 3 ≤ fd <;> simp [high, Descriptors.close, Descriptors.file_set, same]

/-- The closing loop closes the descriptors of the marked variables from 3 on. -/
theorem foldl_closeStep_file {reserved : List Reserve}
    (marked : ∀ reserve ∈ reserved, reserve.closeonfork = true)
    (nodup : (reserved.map Reserve.fdp).Nodup) (n : Nat) :
    (reserved.foldl closeStep process).table.file n =
      if (∃ cell ∈ reserved.map Reserve.fdp, process.read cell = some n) ∧ 3 ≤ n then none
      else process.table.file n := by
  induction reserved generalizing process with
  | nil => simp
  | cons reserve reserved inductionHypothesis =>
    rw [List.forall_mem_cons] at marked
    rw [List.map_cons, List.nodup_cons] at nodup
    have unread : (∃ cell ∈ reserved.map Reserve.fdp,
        (closeStep process reserve).read cell = some n) ↔
        ∃ cell ∈ reserved.map Reserve.fdp, process.read cell = some n := by
      refine exists_congr fun cell => and_congr_right fun member => ?_
      rw [closeStep_read]
      rintro rfl
      exact nodup.1 member
    rw [List.foldl_cons, inductionHypothesis marked.2 nodup.2, closeStep_file marked.1,
      List.map_cons]
    simp only [List.exists_mem_cons_iff, unread]
    by_cases high : 3 ≤ n <;> by_cases first : process.read reserve.fdp = some n <;>
      simp [high, first]

/-- A shell that reads its input from descriptor 3 while its user gives a command a file on 3. -/
def inputInTheWay (closed : List Defer) : Process String where
  table := ⟨[some "tty", some "tty", some "tty", some "input", some "file"]⟩
  deftab := closed ++ [⟨some 4, 3⟩]
  defmax := 10
  reserved := ⟨.shell 0, true⟩ ::
    (List.range (closed.length + 1)).map fun i => ⟨.deferred i, true⟩
  shell := fun address => if address = 0 then some 3 else none

/-- What is assumed of a parent: its variables are well formed, marked and from 3 on. -/
theorem inputInTheWay_valid (closed : List Defer) (short : closed = [] ∨ closed = [⟨none, 0⟩]) :
    (inputInTheWay closed).WellFormed ∧
      (∀ reserve ∈ (inputInTheWay closed).reserved, reserve.closeonfork = true) ∧
      ∀ cell ∈ (inputInTheWay closed).cells, ∀ n,
        (inputInTheWay closed).read cell = some n → 3 ≤ n := by
  rcases short with rfl | rfl <;> refine ⟨⟨by decide, ?_, ?_, ?_⟩, by decide, ?_⟩ <;>
    simp [inputInTheWay, cells, read, List.range_succ, Descriptors.file]
  omega

end Process

end Desh
