/-
This file proves when the commands of a pipeline are connected. After `closefds`
the ends of the pipes are open under numbers of their own, since they are
registered while it runs; only the last child's `inpipe` is not. From there on
each child moves two descriptors and closes one by number, and it comes out
right unless a number it is asked for is one of those it still needs.
-/

import Desh.Fdmap
import Desh.Pipe

namespace Desh

namespace Process

variable {File : Type} {process : Process File} {held : Cell → Option File}
  {visible : Nat → Option File}

/-! ### The closing loop of a child -/

theorem closeStep_unmarked {reserve : Reserve} (unmarked : reserve.closeonfork = false) :
    closeStep process reserve = process := by
  rw [closeStep, if_neg (by rw [unmarked]; decide)]

/-- A marked variable gives up its descriptor, which is closed or is seen from then on. -/
theorem closeStep_owned {reserve : Reserve} {rest : List Cell}
    (marked : reserve.closeonfork = true) (fresh : reserve.fdp ∉ rest)
    (owned : Owned process.table (reserve.fdp :: rest) process.read held visible) :
    ∃ visible', Owned (closeStep process reserve).table rest (closeStep process reserve).read held
        visible' ∧
      (∀ n file, visible n = some file → visible' n = some file) ∧
      ∀ n file, visible' n = some file → visible n = some file ∨ held reserve.fdp = some file := by
  have others : ∀ cell ∈ rest, (closeStep process reserve).read cell = process.read cell := by
    intro cell member
    refine closeStep_read ?_
    rintro rfl
    exact fresh member
  cases holds : process.read reserve.fdp with
  | none =>
    have table : (closeStep process reserve).table = process.table := by
      rw [closeStep, if_pos marked, write_table]
      simp [holds]
    rw [table]
    exact ⟨visible, (owned.giveUp_none holds).congr others fun _ _ => rfl, fun _ _ seen => seen,
      fun _ _ seen => .inl seen⟩
  | some n =>
    have unseen : visible n = none := owned.hidden _ List.mem_cons_self n holds
    have given := owned.giveUp fresh holds
    have unheld : ∀ cell ∈ rest, process.read cell ≠ some n := by
      intro cell member also
      exact fresh (owned.distinct _ List.mem_cons_self cell (List.mem_cons_of_mem _ member) n holds
        also ▸ member)
    have keeps : ∀ (file' : Option File) m file, visible m = some file →
        Function.update visible n file' m = some file := by
      intro file' m file seen
      rw [Function.update_of_ne, seen]
      rintro rfl
      cases unseen.symm.trans seen
    by_cases high : 3 ≤ n
    · have table : (closeStep process reserve).table = process.table.set n none := by
        rw [closeStep, if_pos marked, write_table]
        simp [holds, high, Descriptors.close]
      rw [table]
      refine ⟨Function.update visible n none, ?_, keeps none, ?_⟩
      · have closed := given.set unheld none
        rw [Function.update_idem] at closed
        exact closed.congr others fun _ _ => rfl
      · intro m file seen
        by_cases same : m = n
        · rw [same, Function.update_self] at seen
          cases seen
        · rw [Function.update_of_ne same] at seen
          exact .inl seen
    · have table : (closeStep process reserve).table = process.table := by
        rw [closeStep, if_pos marked, write_table]
        simp [holds, high]
      rw [table]
      refine ⟨_, given.congr others fun _ _ => rfl, keeps _, ?_⟩
      intro m file seen
      by_cases same : m = n
      · rw [same, Function.update_self] at seen
        exact .inr seen
      · rw [Function.update_of_ne same] at seen
        exact .inl seen

/-- The variables the closing loop leaves alone. -/
def unmarked (reserved : List Reserve) : List Cell :=
  (reserved.filter fun reserve => !reserve.closeonfork).map Reserve.fdp

theorem mem_unmarked {reserved : List Reserve} {cell : Cell} :
    cell ∈ unmarked reserved ↔
      ∃ reserve ∈ reserved, reserve.closeonfork = false ∧ reserve.fdp = cell := by
  simp [unmarked, and_assoc]

/-- What the closing loop leaves: the unmarked variables still own what they did. -/
theorem foldl_closeStep_owned {reserved : List Reserve} {kept : List Cell}
    (nodup : (reserved.map Reserve.fdp ++ kept).Nodup)
    (owned : Owned process.table (reserved.map Reserve.fdp ++ kept) process.read held visible) :
    ∃ visible', Owned (reserved.foldl closeStep process).table (unmarked reserved ++ kept)
        (reserved.foldl closeStep process).read held visible' ∧
      (∀ n file, visible n = some file → visible' n = some file) ∧
      ∀ n file, visible' n = some file →
        visible n = some file ∨ ∃ reserve ∈ reserved, held reserve.fdp = some file := by
  induction reserved generalizing process kept visible with
  | nil => exact ⟨visible, owned, fun _ _ seen => seen, fun _ _ seen => .inl seen⟩
  | cons reserve reserved inductionHypothesis =>
    rw [List.map_cons, List.cons_append] at nodup owned
    obtain ⟨fresh, nodup'⟩ := List.nodup_cons.mp nodup
    rw [List.foldl_cons]
    cases mark : reserve.closeonfork with
    | true =>
      obtain ⟨between, owned', keeps, from'⟩ := closeStep_owned mark fresh owned
      obtain ⟨visible', result, keeps', from''⟩ := inductionHypothesis nodup' owned'
      refine ⟨visible', ?_, fun n file seen => keeps' n file (keeps n file seen), ?_⟩
      · rw [unmarked, List.filter_cons_of_neg (by simp [mark])]
        exact result
      · intro n file seen
        rcases from'' n file seen with before | ⟨other, listed, holds⟩
        · rcases from' n file before with first | holds
          · exact .inl first
          · exact .inr ⟨reserve, List.mem_cons_self, holds⟩
        · exact .inr ⟨other, List.mem_cons_of_mem _ listed, holds⟩
    | false =>
      rw [closeStep_unmarked mark]
      have perm : (reserve.fdp :: (reserved.map Reserve.fdp ++ kept)).Perm
          (reserved.map Reserve.fdp ++ reserve.fdp :: kept) := List.perm_middle.symm
      obtain ⟨visible', result, keeps, from'⟩ := inductionHypothesis
        (perm.nodup_iff.mp nodup) (owned.mono fun cell => perm.mem_iff.symm)
      refine ⟨visible', result.mono fun cell => ?_, keeps, ?_⟩
      · rw [unmarked, List.filter_cons_of_pos (by simp [mark]), List.map_cons, List.cons_append]
        exact List.perm_middle.symm.mem_iff
      · intro n file seen
        rcases from' n file seen with before | ⟨other, listed, holds⟩
        · exact .inl before
        · exact .inr ⟨other, List.mem_cons_of_mem _ listed, holds⟩

theorem foldl_closeStep_reserved (reserved : List Reserve) (process : Process File) :
    (reserved.foldl closeStep process).reserved = process.reserved := by
  induction reserved generalizing process with
  | nil => rfl
  | cons reserve reserved inductionHypothesis =>
    rw [List.foldl_cons, inductionHypothesis, closeStep]
    split_ifs <;> simp

theorem foldl_closeStep_read {reserved : List Reserve} {cell : Cell}
    (other : ∀ reserve ∈ reserved, reserve.closeonfork = true → reserve.fdp ≠ cell) :
    (reserved.foldl closeStep process).read cell = process.read cell := by
  induction reserved generalizing process with
  | nil => rfl
  | cons reserve reserved inductionHypothesis =>
    rw [List.forall_mem_cons] at other
    rw [List.foldl_cons, inductionHypothesis other.2]
    cases mark : reserve.closeonfork with
    | true => exact closeStep_read (other.1 mark).symm
    | false => rw [closeStep_unmarked mark]

theorem foldl_closeStep_idle {reserved : List Reserve} {address : Nat}
    (marked : ∃ reserve ∈ reserved, reserve.closeonfork = true ∧ reserve.fdp = .shell address) :
    (reserved.foldl closeStep process).read (.shell address) = none := by
  induction reserved generalizing process with
  | nil => simp at marked
  | cons reserve reserved inductionHypothesis =>
    rw [List.foldl_cons]
    by_cases later : ∃ other ∈ reserved, other.closeonfork = true ∧ other.fdp = .shell address
    · exact inductionHypothesis later
    · obtain ⟨here, member, mark, isCell⟩ := marked
      rcases List.mem_cons.mp member with rfl | inside
      · rw [foldl_closeStep_read fun other inside mark same => later ⟨other, inside, mark, same⟩,
          closeStep, if_pos mark, isCell]
        simp [read, write]
      · exact absurd ⟨here, inside, mark, isCell⟩ later

/-- A variable whose number no deferred operation is on keeps it. -/
theorem remapSteps_read (wellFormed : process.WellFormed) {count : Nat}
    (inside : count ≤ process.deftab.length) {result : Process File}
    (run : remapSteps count process = some result) {cell : Cell} (member : cell ∈ result.cells)
    {n : Nat} (holds : process.read cell = some n)
    (unused : ∀ defer ∈ process.deftab, defer.userfd ≠ n) : result.read cell = some n := by
  induction count generalizing result with
  | zero =>
    obtain rfl := Option.some.inj run
    exact holds
  | succ count inductionHypothesis =>
    obtain ⟨before, runBefore, remapping⟩ := remapSteps_spec wellFormed (Nat.le_of_succ_le inside)
    obtain ⟨next, step, remapping', effect⟩ := remapping.step wellFormed inside
    have isNext : some next = some result := by
      rw [← step, ← run, remapSteps, runBefore, Option.bind_some]
    obtain rfl := Option.some.inj isNext
    obtain ⟨registered, applied⟩ := (remapping'.cells cell).mp member
    have memberBefore : cell ∈ before.cells := (remapping.cells cell).mpr
      ⟨registered, fun i earlier => applied i (Nat.lt_succ_of_lt earlier)⟩
    have isBefore := inductionHypothesis (Nat.le_of_succ_le inside) runBefore memberBefore
    rw [effect.read cell member, isBefore, if_neg]
    intro same
    exact unused _ (List.getElem_mem inside) (Option.some.inj same).symm

/-- What a child is left with by `closefds`: its own variables own what they did, and what the
deferred operations ask for is seen. -/
structure Forked (process child : Process File) (held : Cell → Option File)
    (visible : Nat → Option File) : Prop where
  owned : Owned child.table child.cells child.read held visible
  nodup : child.cells.Nodup
  cells : ∀ cell, cell ∈ child.cells ↔ cell ∈ process.cells ∧ ∀ i, cell ≠ .deferred i
  kept : ∀ reserve ∈ process.reserved, reserve.closeonfork = false →
    (∀ i, reserve.fdp ≠ .deferred i) → held reserve.fdp = process.held reserve.fdp
  shown : ∀ n file, process.redirected process.deftab.length n = some file →
    visible n = some file
  held_cases : ∀ cell ∈ child.cells, ∀ file, held cell = some file →
    process.held cell = some file
  visible_cases : ∀ n file, visible n = some file →
    process.redirected process.deftab.length n = some file ∨
      ∃ cell ∈ process.cells, process.held cell = some file
  read : ∀ reserve ∈ process.reserved, reserve.closeonfork = false →
    (∀ i, reserve.fdp ≠ .deferred i) → ∀ n, process.read reserve.fdp = some n →
    (∀ defer ∈ process.deftab, defer.userfd ≠ n) → child.read reserve.fdp = some n

theorem closefds_forked (wellFormed : process.WellFormed) :
    ∃ child held visible, process.closefds = some child ∧ Forked process child held visible := by
  obtain ⟨result, run, remapping⟩ := remapSteps_spec wellFormed (le_refl process.deftab.length)
  let base : Process File := { result with deftab := [] }
  have closes : process.closefds = some (base.reserved.foldl closeStep base) := by
    rw [closefds, remapfds, run]
    rfl
  have cells : ∀ cell, cell ∈ base.cells ↔ cell ∈ process.cells ∧ ∀ i, cell ≠ .deferred i := by
    intro cell
    refine (remapping.cells cell).trans (and_congr_right fun registered => ?_)
    constructor
    · rintro applied i rfl
      exact applied i ((wellFormed.deferred i).mp registered) rfl
    · exact fun never i _ => never i
  have sameRead : ∀ cell ∈ base.cells, base.read cell = result.read cell := by
    intro cell member
    cases cell with
    | deferred i => exact absurd rfl (((cells _).mp member).2 i)
    | shell address => rfl
  have owned : Owned base.table (base.reserved.map Reserve.fdp ++ []) base.read process.held
      (process.redirected process.deftab.length) := by
    rw [List.append_nil]
    exact remapping.owned.congr sameRead fun _ _ => rfl
  have nodup : (base.reserved.map Reserve.fdp ++ []).Nodup := by
    rw [List.append_nil]
    exact remapping.nodup
  obtain ⟨visible, owned', keeps, from'⟩ := foldl_closeStep_owned nodup owned
  rw [List.append_nil] at owned'
  have sameCells : (base.reserved.foldl closeStep base).cells = base.cells :=
    congrArg (List.map Reserve.fdp) (foldl_closeStep_reserved base.reserved base)
  -- a marked variable holds nothing any more
  let held : Cell → Option File := fun cell =>
    if cell ∈ unmarked base.reserved then process.held cell else none
  have isHeld : ∀ cell ∈ unmarked base.reserved, held cell = process.held cell :=
    fun cell member => if_pos member
  refine ⟨_, held, visible, closes, ?_, ?_, ?_, ?_, keeps, ?_, ?_, ?_⟩
  · rw [sameCells]
    refine (owned'.congr (fun _ _ => rfl) isHeld).addIdle ?_ ?_
    · intro cell member
      obtain ⟨reserve, listed, -, rfl⟩ := mem_unmarked.mp member
      exact List.mem_map_of_mem listed
    · intro cell member
      by_cases inside : cell ∈ unmarked base.reserved
      · exact .inl inside
      · obtain ⟨reserve, listed, rfl⟩ := List.mem_map.mp member
        have mark : reserve.closeonfork = true := by
          by_contra notMarked
          exact inside (mem_unmarked.mpr ⟨reserve, listed, Bool.eq_false_iff.mpr notMarked, rfl⟩)
        refine .inr ⟨?_, if_neg inside⟩
        cases isCell : reserve.fdp with
        | deferred i =>
          rw [isCell] at member
          exact absurd rfl (((cells _).mp member).2 i)
        | shell address => exact foldl_closeStep_idle ⟨reserve, listed, mark, isCell⟩
  · rw [sameCells]
    exact remapping.nodup
  · rw [sameCells]
    exact cells
  · intro reserve listed notMarked notDeferred
    have member := (cells reserve.fdp).mpr ⟨List.mem_map_of_mem listed, notDeferred⟩
    obtain ⟨other, otherListed, same⟩ := List.mem_map.mp member
    obtain rfl : other = reserve :=
      List.inj_on_of_nodup_map wellFormed.nodup (remapping.listed _ otherListed) listed same
    exact isHeld _ (mem_unmarked.mpr ⟨other, otherListed, notMarked, rfl⟩)
  · intro cell member file holds
    by_cases inside : cell ∈ unmarked base.reserved
    · rwa [isHeld cell inside] at holds
    · rw [show held cell = none from if_neg inside] at holds
      cases holds
  · intro n file seen
    rcases from' n file seen with before | ⟨reserve, listed, holds⟩
    · exact .inl before
    · exact .inr ⟨reserve.fdp, ((cells _).mp (List.mem_map_of_mem listed)).1, holds⟩
  · intro reserve listed notMarked notDeferred n holds unused
    have member := (cells reserve.fdp).mpr ⟨List.mem_map_of_mem listed, notDeferred⟩
    rw [foldl_closeStep_read, sameRead _ member]
    · exact remapSteps_read wellFormed (le_refl _) run member holds unused
    · intro other otherListed mark same
      obtain rfl : other = reserve :=
        List.inj_on_of_nodup_map wellFormed.nodup (remapping.listed _ otherListed) listed same
      rw [notMarked] at mark
      cases mark

/-! ### The parent -/

theorem WellFormed.set (wellFormed : process.WellFormed) {n : Nat}
    (unheld : ∀ cell ∈ process.cells, process.read cell ≠ some n) (file : Option File) :
    ({ process with table := process.table.set n file } : Process File).WellFormed := by
  refine ⟨wellFormed.nodup, wellFormed.deferred, ?_, wellFormed.distinct⟩
  intro cell member m holds
  have other : m ≠ n := by
    rintro rfl
    exact unheld cell member holds
  rw [Descriptors.file_set, Function.update_of_ne other]
  exact wellFormed.opened cell member m holds

theorem WellFormed.unheld_of_free (wellFormed : process.WellFormed) {n : Nat}
    (free : process.table.file n = none) : ∀ cell ∈ process.cells, process.read cell ≠ some n :=
  fun cell member holds => wellFormed.opened cell member n holds free

theorem read_assign_of_ne {address : Nat} (fd : Option Nat) {cell : Cell}
    (other : cell ≠ .shell address) :
      (process.assign address fd).read cell = process.read cell := by
  cases cell with
  | deferred i => rfl
  | shell address' =>
    exact Function.update_of_ne (fun same => other (congrArg Cell.shell same)) ..

theorem WellFormed.assign (wellFormed : process.WellFormed) {address : Nat}
    (fresh : .shell address ∉ process.cells) (fd : Option Nat) :
    (process.assign address fd).WellFormed := by
  have read : ∀ cell ∈ process.cells,
      (process.assign address fd).read cell = process.read cell := by
    intro cell member
    refine read_assign_of_ne fd ?_
    rintro rfl
    exact fresh member
  refine ⟨wellFormed.nodup, wellFormed.deferred, ?_, ?_⟩
  · intro cell member n holds
    exact wellFormed.opened cell member n ((read cell member).symm.trans holds)
  · intro first firstMember second secondMember n holds holds'
    exact wellFormed.distinct first firstMember second secondMember n
      ((read first firstMember).symm.trans holds) ((read second secondMember).symm.trans holds')

/-- Registering a variable that holds no descriptor, or one of its own. -/
theorem WellFormed.register (wellFormed : process.WellFormed) {address : Nat}
    (fresh : .shell address ∉ process.cells) (closeonfork : Bool)
    (own : ∀ n, process.shell address = some n → process.table.file n ≠ none ∧
      ∀ cell ∈ process.cells, process.read cell ≠ some n) :
    (registerfd (.shell address) closeonfork process).WellFormed := by
  have cells : (registerfd (.shell address) closeonfork process).cells =
      process.cells ++ [.shell address] := by
    simp [registerfd, Process.cells]
  refine ⟨?_, ?_, ?_, ?_⟩
  · rw [cells, List.nodup_append]
    refine ⟨wellFormed.nodup, List.nodup_singleton _, ?_⟩
    rintro cell member other isNew rfl
    exact fresh (List.mem_singleton.mp isNew ▸ member)
  · intro i
    rw [cells, List.mem_append, List.mem_singleton]
    exact (or_iff_left fun same => by cases same).trans (wellFormed.deferred i)
  · intro cell member n holds
    rw [cells, List.mem_append, List.mem_singleton] at member
    rcases member with inside | rfl
    · exact wellFormed.opened cell inside n holds
    · exact (own n holds).1
  · intro first firstMember second secondMember n holds holds'
    rw [cells, List.mem_append, List.mem_singleton] at firstMember secondMember
    rcases firstMember with inside | rfl <;> rcases secondMember with inside' | rfl
    · exact wellFormed.distinct first inside second inside' n holds holds'
    · exact absurd holds ((own n holds').2 first inside)
    · exact absurd holds' ((own n holds).2 second inside')
    · rfl

/-- The variables of `$&pipe` are not registered. -/
structure Idle (frame : Frame) (process : Process File) : Prop where
  p0p1 : frame.p0 ≠ frame.p1
  p0inpipe : frame.p0 ≠ frame.inpipe
  p1inpipe : frame.p1 ≠ frame.inpipe
  p0 : .shell frame.p0 ∉ process.cells
  p1 : .shell frame.p1 ∉ process.cells
  inpipe : .shell frame.inpipe ∉ process.cells

/-- What holds of the parent between two children: the read end of the last pipe is open under one
number, which no registered variable holds. -/
structure Parent (frame : Frame) (left : Option (Link File)) (process : Process File) : Prop where
  wellFormed : process.WellFormed
  idle : Idle frame process
  opened : ∀ other, left = some other → process.table.file other.fd0 = some other.readEnd
  unheld : ∀ other, left = some other → ∀ cell ∈ process.cells, process.read cell ≠ some other.fd0
  only : ∀ other, left = some other → ∀ n, process.table.file n = some other.readEnd →
    n = other.fd0

/-- The state at the fork of `pipefork`. -/
structure Begun (frame : Frame) (link : Link File) (left : Option (Link File))
    (process begun : Process File) : Prop where
  wellFormed : begun.WellFormed
  reserved : begun.reserved = process.reserved ++
    [⟨.shell frame.p0, false⟩, ⟨.shell frame.p1, false⟩, ⟨.shell frame.inpipe, false⟩]
  file : begun.table.file = Function.update
    (Function.update process.table.file link.fd0 (some link.readEnd)) link.fd1 (some link.writeEnd)
  deftab : begun.deftab = process.deftab
  p0 : begun.shell frame.p0 = some link.fd0
  p1 : begun.shell frame.p1 = some link.fd1
  inpipe : begun.shell frame.inpipe = left.map Link.fd0
  read : ∀ cell ∈ process.cells, begun.read cell = process.read cell

variable {frame : Frame} {link : Link File} {left : Option (Link File)}

theorem Parent.begun (parent : Parent frame left process) (fresh : FreshLink link left process) :
    Begun frame link left process (process.pipeforkBegin frame link left) := by
  have idle := parent.idle
  have p0 : (pipe frame link (process.assign frame.inpipe (left.map Link.fd0))).shell frame.p0 =
      some link.fd0 := by
    simp [pipe, assign, Function.update_of_ne idle.p0p1]
  have p1 : (pipe frame link (process.assign frame.inpipe (left.map Link.fd0))).shell frame.p1 =
      some link.fd1 := by
    simp [pipe, assign]
  have inpipe : (pipe frame link (process.assign frame.inpipe (left.map Link.fd0))).shell
      frame.inpipe = left.map Link.fd0 := by
    simp [pipe, assign, Function.update_of_ne idle.p0inpipe.symm,
      Function.update_of_ne idle.p1inpipe.symm]
  have read : ∀ cell ∈ process.cells,
      (pipe frame link (process.assign frame.inpipe (left.map Link.fd0))).read cell =
        process.read cell := by
    intro cell member
    have notP0 : cell ≠ .shell frame.p0 := fun same => idle.p0 (same ▸ member)
    have notP1 : cell ≠ .shell frame.p1 := fun same => idle.p1 (same ▸ member)
    have notInpipe : cell ≠ .shell frame.inpipe := fun same => idle.inpipe (same ▸ member)
    rw [pipe, read_assign_of_ne _ notP1, read_assign_of_ne _ notP0]
    show (process.assign frame.inpipe (left.map Link.fd0)).read cell = process.read cell
    exact read_assign_of_ne _ notInpipe
  have file : (pipe frame link (process.assign frame.inpipe (left.map Link.fd0))).table.file =
      Function.update (Function.update process.table.file link.fd0 (some link.readEnd)) link.fd1
        (some link.writeEnd) := by
    simp [pipe, assign, Descriptors.file_set]
  have file0 : (pipe frame link (process.assign frame.inpipe (left.map Link.fd0))).table.file
      link.fd0 = some link.readEnd := by
    rw [file, Function.update_of_ne fresh.different, Function.update_self]
  have file1 : (pipe frame link (process.assign frame.inpipe (left.map Link.fd0))).table.file
      link.fd1 = some link.writeEnd := by
    rw [file, Function.update_self]
  have unheld0 := parent.wellFormed.unheld_of_free fresh.free0
  have unheld1 := parent.wellFormed.unheld_of_free fresh.free1
  -- the state before the variables are registered
  have wellFormed : (pipe frame link
      (process.assign frame.inpipe (left.map Link.fd0))).WellFormed := by
    have assigned := parent.wellFormed.assign idle.inpipe (left.map Link.fd0)
    have sameRead : ∀ cell ∈ process.cells,
        (process.assign frame.inpipe (left.map Link.fd0)).read cell = process.read cell :=
      fun cell member => read_assign_of_ne _ fun same => idle.inpipe (same ▸ member)
    have first := assigned.set (fun cell member holds =>
      unheld0 cell member ((sameRead cell member).symm.trans holds)) (some link.readEnd)
    have second := first.set (fun cell member holds =>
      unheld1 cell member ((sameRead cell member).symm.trans holds)) (some link.writeEnd)
    exact (second.assign idle.p0 _).assign idle.p1 _
  have reserved : (pipe frame link (process.assign frame.inpipe (left.map Link.fd0))).reserved =
      process.reserved := rfl
  have deftab : (pipe frame link (process.assign frame.inpipe (left.map Link.fd0))).deftab =
      process.deftab := rfl
  rw [pipeforkBegin]
  generalize pipe frame link (process.assign frame.inpipe (left.map Link.fd0)) = piped at *
  have cells : piped.cells = process.cells := congrArg (List.map Reserve.fdp) reserved
  have registered0 : (registerfd (.shell frame.p0) false piped).WellFormed := by
    refine wellFormed.register (by rw [cells]; exact idle.p0) false fun n holds => ?_
    obtain rfl := Option.some.inj (p0.symm.trans holds)
    refine ⟨by rw [file0]; simp, fun cell member => ?_⟩
    rw [cells] at member
    rw [read cell member]
    exact unheld0 cell member
  have cells0 : (registerfd (.shell frame.p0) false piped).cells =
      process.cells ++ [.shell frame.p0] := by
    simp [registerfd, Process.cells, reserved]
  have registered1 : (registerfd (.shell frame.p1) false
      (registerfd (.shell frame.p0) false piped)).WellFormed := by
    refine registered0.register ?_ false fun n holds => ?_
    · rw [cells0, List.mem_append, List.mem_singleton]
      rintro (inside | same)
      · exact idle.p1 inside
      · exact idle.p0p1 (Cell.shell.inj same).symm
    · obtain rfl := Option.some.inj (p1.symm.trans holds)
      refine ⟨by show piped.table.file link.fd1 ≠ none; rw [file1]; simp, fun cell member => ?_⟩
      rw [cells0, List.mem_append, List.mem_singleton] at member
      rcases member with inside | rfl
      · exact fun holds => unheld1 cell inside ((read cell inside).symm.trans holds)
      · exact fun holds => fresh.different (Option.some.inj (p0.symm.trans holds))
  have cells1 : (registerfd (.shell frame.p1) false
      (registerfd (.shell frame.p0) false piped)).cells =
      process.cells ++ [.shell frame.p0, .shell frame.p1] := by
    simp [registerfd, Process.cells, reserved]
  refine ⟨registered1.register ?_ false fun n holds => ?_, by simp [registerfd, reserved], file,
    deftab, p0, p1, inpipe, read⟩
  · rw [cells1]
    simp [idle.inpipe, idle.p0inpipe.symm, idle.p1inpipe.symm]
  · -- what `inpipe` holds was open before, so it is none of the fresh numbers
    obtain ⟨other, isLeft, rfl⟩ := Option.map_eq_some_iff.mp (inpipe.symm.trans holds)
    have isOpen := parent.opened other isLeft
    have not0 : other.fd0 ≠ link.fd0 := by
      intro same
      rw [same, fresh.free0] at isOpen
      cases isOpen
    have not1 : other.fd0 ≠ link.fd1 := by
      intro same
      rw [same, fresh.free1] at isOpen
      cases isOpen
    constructor
    · show piped.table.file other.fd0 ≠ none
      rw [file, Function.update_of_ne not1, Function.update_of_ne not0, isOpen]
      simp
    · intro cell member
      rw [cells1] at member
      simp only [List.mem_append, List.mem_cons, List.not_mem_nil, or_false] at member
      rcases member with inside | rfl | rfl
      · exact fun holds =>
          parent.unheld other isLeft cell inside ((read cell inside).symm.trans holds)
      · exact fun holds => not0 (Option.some.inj (p0.symm.trans holds)).symm
      · exact fun holds => not1 (Option.some.inj (p1.symm.trans holds)).symm

theorem pipeforkEnd_spec {rest : List Cell}
    (cells : process.cells.Perm
      (.shell frame.p0 :: .shell frame.p1 :: .shell frame.inpipe :: rest)) :
    ∃ reserved, process.pipeforkEnd frame = some { process with reserved } ∧
      (reserved.map Reserve.fdp).Perm rest := by
  obtain ⟨first, reserved0, run0, address0, perm0⟩ :=
    unregisterfd_spec (cells.mem_iff.mpr List.mem_cons_self)
  have left0 := ((cells_of_perm perm0).symm.trans cells)
  rw [address0] at left0
  replace left0 := left0.cons_inv
  obtain ⟨second, reserved1, run1, address1, perm1⟩ :=
    unregisterfd_spec (left0.mem_iff.mpr List.mem_cons_self)
  have left1 := ((cells_of_perm perm1).symm.trans left0)
  rw [address1] at left1
  replace left1 := left1.cons_inv
  obtain ⟨third, reserved2, run2, address2, perm2⟩ :=
    unregisterfd_spec (left1.mem_iff.mpr List.mem_cons_self)
  have left2 := ((cells_of_perm perm2).symm.trans left1)
  rw [address2] at left2
  refine ⟨reserved2, ?_, left2.cons_inv⟩
  rw [pipeforkEnd, run0]
  show (unregisterfd (.shell frame.p1) { process with reserved := reserved0 }).bind _ = _
  rw [run1]
  exact run2

theorem Begun.cells {begun : Process File} (state : Begun frame link left process begun) :
    begun.cells.Perm
      (.shell frame.p0 :: .shell frame.p1 :: .shell frame.inpipe :: process.cells) := by
  have cells : begun.cells = process.cells ++
      [.shell frame.p0, .shell frame.p1, .shell frame.inpipe] := by
    simp [Process.cells, state.reserved]
  rw [cells]
  exact List.perm_append_comm

theorem Parent.next (parent : Parent frame left process) (fresh : FreshLink link left process) :
    ∃ next, process.nextParent frame link left = some next ∧ Parent frame (some link) next ∧
      next.deftab = process.deftab := by
  have state := parent.begun fresh
  obtain ⟨reserved, ended, perm⟩ := pipeforkEnd_spec state.cells
  simp only [nextParent]
  generalize process.pipeforkBegin frame link left = begun at *
  let undone : Process File := { begun with reserved }
  have read : ∀ cell ∈ undone.cells, undone.read cell = process.read cell := by
    intro cell member
    exact state.read cell (perm.mem_iff.mp member)
  have wellFormed : undone.WellFormed := by
    have inBegun : ∀ cell ∈ undone.cells, cell ∈ begun.cells := by
      intro cell member
      have inside := perm.mem_iff.mp member
      exact state.cells.mem_iff.mpr
        (List.mem_cons_of_mem _ (List.mem_cons_of_mem _ (List.mem_cons_of_mem _ inside)))
    refine ⟨perm.nodup_iff.mpr parent.wellFormed.nodup, ?_, ?_, ?_⟩
    · intro i
      show Cell.deferred i ∈ undone.cells ↔ i < begun.deftab.length
      rw [state.deftab]
      exact perm.mem_iff.trans (parent.wellFormed.deferred i)
    · exact fun cell member => state.wellFormed.opened cell (inBegun cell member)
    · exact fun first firstMember second secondMember => state.wellFormed.distinct first
        (inBegun first firstMember) second (inBegun second secondMember)
  have unheld : ∀ n, (∀ cell ∈ process.cells, process.read cell ≠ some n) →
      ∀ cell ∈ undone.cells, undone.read cell ≠ some n := by
    intro n before cell member
    rw [read cell member]
    exact before cell (perm.mem_iff.mp member)
  have unheld0 := unheld _ (parent.wellFormed.unheld_of_free fresh.free0)
  have unheld1 := unheld _ (parent.wellFormed.unheld_of_free fresh.free1)
  -- what is closed: the number of the pipe on the left, then the write end
  let table := left.elim undone.table fun other => undone.table.close other.fd0
  have closed : ({ undone with table } : Process File).WellFormed := by
    cases isLeft : left with
    | none => simpa [table, isLeft] using wellFormed
    | some other =>
      have closing := wellFormed.set (unheld _ (parent.unheld other isLeft)) none
      simpa [table, isLeft, Descriptors.close] using closing
  have file : ∀ n, table.file n = if ∃ other, left = some other ∧ n = other.fd0 then none
      else begun.table.file n := by
    intro n
    cases isLeft : left with
    | none => simp [table, isLeft, undone]
    | some other =>
      by_cases same : n = other.fd0 <;>
        simp [table, isLeft, undone, Descriptors.close, Descriptors.file_set, same]
  have notLeft : ¬∃ other, left = some other ∧ link.fd0 = other.fd0 := by
    rintro ⟨other, isLeft, same⟩
    have isOpen := parent.opened other isLeft
    rw [← same, fresh.free0] at isOpen
    cases isOpen
  refine ⟨{ undone with table := table.close link.fd1 }, ?_,
    ⟨closed.set unheld1 none, ?_, ?_, ?_, ?_⟩,
    state.deftab⟩
  · rw [ended]
    rfl
  · exact ⟨parent.idle.p0p1, parent.idle.p0inpipe, parent.idle.p1inpipe,
      fun member => parent.idle.p0 (perm.mem_iff.mp member),
      fun member => parent.idle.p1 (perm.mem_iff.mp member),
      fun member => parent.idle.inpipe (perm.mem_iff.mp member)⟩
  · rintro other same
    obtain rfl := Option.some.inj same
    show (table.close link.fd1).file link.fd0 = _
    rw [Descriptors.close, Descriptors.file_set, Function.update_of_ne fresh.different, file,
      if_neg notLeft, state.file, Function.update_of_ne fresh.different, Function.update_self]
  · rintro other same
    obtain rfl := Option.some.inj same
    exact unheld0
  · rintro other same n isEnd
    obtain rfl := Option.some.inj same
    change (table.close link.fd1).file n = _ at isEnd
    by_contra notEnd
    rw [Descriptors.close, Descriptors.file_set] at isEnd
    by_cases same1 : n = link.fd1
    · rw [same1, Function.update_self] at isEnd
      cases isEnd
    · rw [Function.update_of_ne same1, file] at isEnd
      split_ifs at isEnd
      rw [state.file, Function.update_of_ne same1, Function.update_of_ne notEnd] at isEnd
      exact fresh.newRead n isEnd

/-! ### Variables that are not registered -/

theorem releaseStep_shell {n address : Nat} {reserve : Reserve} {result : Process File}
    (other : reserve.fdp ≠ .shell address) (run : releaseStep n process reserve = some result) :
    result.shell address = process.shell address ∧ result.reserved = process.reserved := by
  rw [releaseStep] at run
  split_ifs at run with holds
  · obtain ⟨⟨fd, table⟩, -, rfl⟩ := Option.map_eq_some_iff.mp run
    refine ⟨?_, write_reserved ..⟩
    cases isCell : reserve.fdp with
    | deferred i => rfl
    | shell address' =>
      rw [isCell] at other
      exact Function.update_of_ne (fun same => other (congrArg Cell.shell same.symm)) ..
  · obtain rfl := Option.some.inj run
    exact ⟨rfl, rfl⟩

theorem releasefd_shell {n address : Nat} {result : Process File}
    (fresh : .shell address ∉ process.cells) (run : process.releasefd n = some result) :
    result.shell address = process.shell address ∧ result.reserved = process.reserved := by
  have fold : ∀ (reserved : List Reserve) (process : Process File),
      .shell address ∉ reserved.map Reserve.fdp →
      reserved.foldlM (releaseStep n) process = some result →
      result.shell address = process.shell address ∧ result.reserved = process.reserved := by
    intro reserved
    induction reserved with
    | nil =>
      intro process _ run
      obtain rfl := Option.some.inj run
      exact ⟨rfl, rfl⟩
    | cons reserve reserved inductionHypothesis =>
      intro process fresh run
      rw [List.map_cons, List.mem_cons, not_or] at fresh
      rw [List.foldlM_cons] at run
      obtain ⟨between, step, rest⟩ := Option.bind_eq_some_iff.mp run
      obtain ⟨shell, listed⟩ := releaseStep_shell (Ne.symm fresh.1) step
      obtain ⟨shell', listed'⟩ := inductionHypothesis between fresh.2 rest
      exact ⟨shell'.trans shell, listed'.trans listed⟩
  exact fold process.reserved process fresh run

theorem mvfd_fields {oldfd newfd : Nat} {result : Process File}
    (run : process.mvfd oldfd newfd = some result) :
    result.shell = process.shell ∧ result.reserved = process.reserved := by
  rw [mvfd] at run
  split_ifs at run
  · obtain rfl := Option.some.inj run
    exact ⟨rfl, rfl⟩
  · obtain ⟨table, -, rfl⟩ := Option.map_eq_some_iff.mp run
    exact ⟨rfl, rfl⟩

theorem dodeferred_shell {realfd : Option Nat} {userfd address : Nat} {result : Process File}
    (fresh : .shell address ∉ process.cells)
    (run : process.dodeferred realfd userfd = some result) :
    result.shell address = process.shell address ∧ result.reserved = process.reserved := by
  obtain ⟨released, release, rest⟩ := Option.bind_eq_some_iff.mp run
  obtain ⟨shell, listed⟩ := releasefd_shell fresh release
  cases realfd with
  | none =>
    obtain rfl := Option.some.inj rest
    exact ⟨shell, listed⟩
  | some realfd =>
    obtain ⟨shell', listed'⟩ := mvfd_fields rest
    exact ⟨(congrFun shell' address).trans shell, listed'.trans listed⟩

theorem unregisterfd_fields {fdp : Cell} {result : Process File}
    (run : process.unregisterfd fdp = some result) :
    result.shell = process.shell ∧ ∀ cell ∈ result.cells, cell ∈ process.cells := by
  rw [unregisterfd] at run
  split at run
  · cases run
  · split at run
    · cases run
    · rename_i i _ last isLast
      obtain rfl := Option.some.inj run
      refine ⟨rfl, fun cell member => ?_⟩
      obtain ⟨reserve, listed, rfl⟩ := List.mem_map.mp member
      rcases List.mem_or_eq_of_mem_set (List.mem_of_mem_dropLast listed) with inside | rfl
      · exact List.mem_map_of_mem inside
      · exact List.mem_map_of_mem (List.mem_of_getLast? isLast)

theorem remapSteps_shell {count address : Nat} {result : Process File}
    (fresh : .shell address ∉ process.cells) (run : remapSteps count process = some result) :
    result.shell address = process.shell address ∧ .shell address ∉ result.cells := by
  induction count generalizing result with
  | zero =>
    obtain rfl := Option.some.inj run
    exact ⟨rfl, fresh⟩
  | succ count inductionHypothesis =>
    obtain ⟨between, before, step⟩ := Option.bind_eq_some_iff.mp run
    obtain ⟨shell, fresh'⟩ := inductionHypothesis before
    obtain ⟨unregistered, unregister, rest⟩ := Option.bind_eq_some_iff.mp step
    obtain ⟨shell', fewer⟩ := unregisterfd_fields unregister
    obtain ⟨defer, -, applied⟩ := Option.bind_eq_some_iff.mp rest
    have fresh'' : .shell address ∉ unregistered.cells := fun member => fresh' (fewer _ member)
    obtain ⟨shell'', listed⟩ := dodeferred_shell fresh'' applied
    refine ⟨shell''.trans ((congrFun shell' address).trans shell), fun member => fresh'' ?_⟩
    rwa [Process.cells, listed] at member

theorem closefds_shell {address : Nat} {child : Process File}
    (fresh : .shell address ∉ process.cells) (run : process.closefds = some child) :
    child.shell address = process.shell address ∧ .shell address ∉ child.cells := by
  obtain ⟨remapped, remap, rfl⟩ := Option.map_eq_some_iff.mp run
  obtain ⟨result, steps, rfl⟩ := Option.map_eq_some_iff.mp remap
  obtain ⟨shell, fresh'⟩ := remapSteps_shell fresh steps
  constructor
  · have other : ∀ reserve ∈ result.reserved, reserve.closeonfork = true →
        reserve.fdp ≠ .shell address :=
      fun reserve listed _ same => fresh' (same ▸ List.mem_map_of_mem listed)
    exact (foldl_closeStep_read other).trans shell
  · rwa [Process.cells, foldl_closeStep_reserved]

/-! ### Connecting a child -/

/-- What `connect` does when the old number is open and nobody else's. -/
theorem connect_spec (owned : Owned process.table process.cells process.read held visible)
    {oldfd : Nat} (shown : visible oldfd ≠ none) (newfd : Nat) :
    ∃ result, process.connect (some oldfd) newfd = some result ∧
      Owned result.table result.cells result.read held
        (Function.update (Function.update visible oldfd none) newfd (visible oldfd)) ∧
      (∀ cell ∈ result.cells, result.read cell ≠ some newfd) ∧
      result.cells = process.cells ∧
      ∀ address, .shell address ∉ process.cells →
        result.shell address = process.shell address := by
  obtain ⟨released, run, effect, kept⟩ := releasefd_spec owned newfd
  have unheld := effect.unheld owned
  obtain ⟨table, moved, result⟩ := mvfd_owned kept shown unheld
  refine ⟨{ released with table }, ?_, result, unheld,
    congrArg (List.map Reserve.fdp) effect.reserved, fun address fresh =>
      (releasefd_shell fresh run).1⟩
  rw [connect, run]
  exact moved

/-- The child of `pipefork`: the ends of its pipes are open under numbers of their own, and no
other variable has the read end of the pipe on the left. -/
structure Piped (frame : Frame) (link : Link File) (left : Option (Link File))
    (child : Process File) (held : Cell → Option File) (visible : Nat → Option File)
    (p0 p1 : Nat) : Prop where
  owned : Owned child.table child.cells child.read held visible
  idle : Idle frame child
  shell0 : child.shell frame.p0 = some p0
  shell1 : child.shell frame.p1 = some p1
  different : p0 ≠ p1
  readEnd : visible p0 = some link.readEnd
  writeEnd : visible p1 = some link.writeEnd
  inpipe : ∀ other, left = some other → ∃ q, child.shell frame.inpipe = some q ∧
    visible q = some other.readEnd ∧ q ≠ p0 ∧ q ≠ p1
  others : ∀ other, left = some other → ∀ cell ∈ child.cells, held cell ≠ some other.readEnd

/-- No registered variable has the read end of the pipe on the left. -/
theorem Parent.held_ne (parent : Parent frame left process) {other : Link File}
    (isLeft : left = some other) {cell : Cell} (member : cell ∈ process.cells) :
    process.held cell ≠ some other.readEnd := by
  intro holds
  obtain ⟨n, isNumber, isFile⟩ := Option.bind_eq_some_iff.mp holds
  rw [parent.only other isLeft n isFile] at isNumber
  exact parent.unheld other isLeft cell member isNumber

theorem Parent.piped (parent : Parent frame left process) (fresh : FreshLink link left process) :
    ∃ child held visible p0 p1, process.pipeforkChild frame link left = some child ∧
      Piped frame link left child held visible p0 p1 := by
  have state := parent.begun fresh
  simp only [pipeforkChild]
  generalize process.pipeforkBegin frame link left = begun at *
  obtain ⟨forked, held, visible, closes, fork⟩ := closefds_forked state.wellFormed
  have idle := parent.idle
  -- the three variables are still registered, and own what they did
  have registered : ∀ address, ⟨.shell address, false⟩ ∈ begun.reserved →
      .shell address ∈ forked.cells ∧ held (.shell address) = begun.held (.shell address) := by
    intro address listed
    exact ⟨(fork.cells _).mpr ⟨List.mem_map_of_mem listed, fun i same => by cases same⟩,
      fork.kept _ listed rfl fun i same => by cases same⟩
  have listed : ∀ address, address = frame.p0 ∨ address = frame.p1 ∨ address = frame.inpipe →
      (⟨.shell address, false⟩ : Reserve) ∈ begun.reserved := by
    rintro address (rfl | rfl | rfl) <;> simp [state.reserved]
  obtain ⟨member0, held0⟩ := registered _ (listed _ (.inl rfl))
  obtain ⟨member1, held1⟩ := registered _ (listed _ (.inr (.inl rfl)))
  obtain ⟨memberIn, heldIn⟩ := registered _ (listed _ (.inr (.inr rfl)))
  have isHeld0 : begun.held (.shell frame.p0) = some link.readEnd := by
    simp only [Process.held, read, state.p0, Option.bind_some, state.file,
      Function.update_of_ne fresh.different, Function.update_self]
  have isHeld1 : begun.held (.shell frame.p1) = some link.writeEnd := by
    simp only [Process.held, read, state.p1, Option.bind_some, state.file, Function.update_self]
  obtain ⟨p0, read0⟩ : ∃ p0, forked.read (.shell frame.p0) = some p0 := by
    rw [← Option.isSome_iff_exists, ← fork.owned.isSome_held _ member0, held0, isHeld0]
    rfl
  obtain ⟨p1, read1⟩ : ∃ p1, forked.read (.shell frame.p1) = some p1 := by
    rw [← Option.isSome_iff_exists, ← fork.owned.isSome_held _ member1, held1, isHeld1]
    rfl
  have different : p0 ≠ p1 := by
    rintro rfl
    exact idle.p0p1 (Cell.shell.inj (fork.owned.distinct _ member0 _ member1 p0 read0 read1))
  -- they are unregistered, and their descriptors become ordinary ones
  have perm0 := List.perm_cons_erase member0
  have perm1 := List.perm_cons_erase ((List.mem_erase_of_ne
    fun same => idle.p0p1 (Cell.shell.inj same).symm).mpr member1)
  have perm2 := List.perm_cons_erase ((List.mem_erase_of_ne
    fun same => idle.p1inpipe (Cell.shell.inj same).symm).mpr ((List.mem_erase_of_ne
      fun same => idle.p0inpipe (Cell.shell.inj same).symm).mpr memberIn))
  have perm := perm0.trans ((perm1.trans (perm2.cons _)).cons _)
  generalize ((forked.cells.erase (.shell frame.p0)).erase (.shell frame.p1)).erase
    (.shell frame.inpipe) = rest at perm
  obtain ⟨reserved, ended, left'⟩ := pipeforkEnd_spec perm
  have nodup := perm.nodup_iff.mp fork.nodup
  obtain ⟨fresh0, nodup1⟩ := List.nodup_cons.mp nodup
  obtain ⟨fresh1, nodup2⟩ := List.nodup_cons.mp nodup1
  obtain ⟨freshIn, -⟩ := List.nodup_cons.mp nodup2
  have given0 := (fork.owned.mono fun cell => perm.mem_iff.symm).giveUp fresh0 read0
  have given1 := given0.giveUp fresh1 read1
  rw [held0, isHeld0, held1, isHeld1] at given1
  let child : Process File := { forked with reserved }
  have childCells : ∀ cell, cell ∈ child.cells ↔ cell ∈ rest := fun cell => left'.mem_iff
  have sameRead : ∀ cell ∈ child.cells, child.read cell = forked.read cell :=
    fun cell _ => by cases cell <;> rfl
  have idle' : Idle frame child := by
    refine ⟨idle.p0p1, idle.p0inpipe, idle.p1inpipe, ?_, ?_, ?_⟩ <;> rw [childCells]
    · exact fun inside => fresh0 (List.mem_cons_of_mem _ (List.mem_cons_of_mem _ inside))
    · exact fun inside => fresh1 (List.mem_cons_of_mem _ inside)
    · exact freshIn
  have others : ∀ other, left = some other → ∀ cell ∈ child.cells,
      held cell ≠ some other.readEnd := by
    intro other isLeft cell member holds
    have inForked : cell ∈ forked.cells := perm.mem_iff.mpr (List.mem_cons_of_mem _
      (List.mem_cons_of_mem _ (List.mem_cons_of_mem _ ((childCells cell).mp member))))
    obtain ⟨n, isNumber, isFile⟩ := Option.bind_eq_some_iff.mp
      (fork.held_cases cell inForked _ holds)
    have inProcess : cell ∈ process.cells := by
      have inBegun := state.cells.mem_iff.mp ((fork.cells cell).mp inForked).1
      simp only [List.mem_cons] at inBegun
      rcases inBegun with rfl | rfl | rfl | inside
      · exact absurd member idle'.p0
      · exact absurd member idle'.p1
      · exact absurd member idle'.inpipe
      · exact inside
    rw [state.read cell inProcess] at isNumber
    rw [state.file] at isFile
    have isEnd := parent.opened other isLeft
    by_cases same1 : n = link.fd1
    · rw [same1, Function.update_self] at isFile
      exact fresh.newWrite other.fd0 (isEnd.trans isFile.symm)
    · rw [Function.update_of_ne same1] at isFile
      by_cases same0 : n = link.fd0
      · rw [same0, Function.update_self] at isFile
        exact fresh.newRead other.fd0 (isEnd.trans isFile.symm)
      · rw [Function.update_of_ne same0] at isFile
        refine parent.held_ne isLeft inProcess ?_
        rw [Process.held, isNumber]
        exact isFile
  have ends : (do let child ← begun.closefds; child.pipeforkEnd frame) = some child := by
    rw [closes]
    exact ended
  cases isLeft : left with
  | none =>
    have readIn : forked.read (.shell frame.inpipe) = none := by
      rw [← Option.isNone_iff_eq_none, ← Option.not_isSome, ← fork.owned.isSome_held _ memberIn,
        heldIn]
      simp [Process.held, read, state.inpipe, isLeft]
    refine ⟨child, held, _, p0, p1, ends, ⟨(((given1.giveUp_none readIn).mono childCells).congr
      sameRead fun _ _ => rfl), idle', read0, read1, different, ?_, ?_,
      fun _ same => (by cases same),
      fun _ same => (by cases same)⟩⟩
    · rw [Function.update_of_ne different, Function.update_self]
    · rw [Function.update_self]
  | some other =>
    have isHeldIn : begun.held (.shell frame.inpipe) = some other.readEnd := by
      have isEnd := parent.opened other isLeft
      have not0 : other.fd0 ≠ link.fd0 := by
        intro same
        rw [same, fresh.free0] at isEnd
        cases isEnd
      have not1 : other.fd0 ≠ link.fd1 := by
        intro same
        rw [same, fresh.free1] at isEnd
        cases isEnd
      simp only [Process.held, read, state.inpipe, isLeft, Option.map_some, Option.bind_some,
        state.file, Function.update_of_ne not1, Function.update_of_ne not0, isEnd]
    obtain ⟨q, readIn⟩ : ∃ q, forked.read (.shell frame.inpipe) = some q := by
      rw [← Option.isSome_iff_exists, ← fork.owned.isSome_held _ memberIn, heldIn, isHeldIn]
      rfl
    have not0 : q ≠ p0 := by
      rintro rfl
      exact idle.p0inpipe
        (Cell.shell.inj (fork.owned.distinct _ member0 _ memberIn q read0 readIn))
    have not1 : q ≠ p1 := by
      rintro rfl
      exact idle.p1inpipe
        (Cell.shell.inj (fork.owned.distinct _ member1 _ memberIn q read1 readIn))
    have given := given1.giveUp freshIn readIn
    rw [heldIn, isHeldIn] at given
    refine ⟨child, held, _, p0, p1, ends, ⟨((given.mono childCells).congr sameRead
      fun _ _ => rfl), idle', read0, read1, different, ?_, ?_, ?_, ?_⟩⟩
    · rw [Function.update_of_ne not0.symm, Function.update_of_ne different, Function.update_self]
    · rw [Function.update_of_ne not1.symm, Function.update_self]
    · intro other' same
      obtain rfl := Option.some.inj same
      exact ⟨q, readIn, Function.update_self .., not0, not1⟩
    · rw [← isLeft]
      exact others

/-- What is seen after `connectRight`. -/
def seenRight (visible : Nat → Option File) (p0 p1 outfd : Nat) : Nat → Option File :=
  Function.update (Function.update (Function.update visible p1 none) outfd (visible p1)) p0 none

theorem seenRight_outfd (visible : Nat → Option File) (p0 p1 outfd : Nat) :
    seenRight visible p0 p1 outfd outfd = if p0 = outfd then none else visible p1 := by
  by_cases same : p0 = outfd
  · rw [seenRight, same, Function.update_self, if_pos rfl]
  · rw [seenRight, Function.update_of_ne (Ne.symm same), Function.update_self, if_neg same]

theorem seenRight_of_ne (visible : Nat → Option File) (p0 p1 : Nat) {outfd n : Nat}
    (other : n ≠ outfd) :
    seenRight visible p0 p1 outfd n = if p0 = n ∨ p1 = n then none else visible n := by
  by_cases same0 : p0 = n
  · rw [seenRight, same0, Function.update_self, if_pos (.inl rfl)]
  · rw [seenRight, Function.update_of_ne (Ne.symm same0), Function.update_of_ne other]
    by_cases same1 : p1 = n
    · rw [same1, Function.update_self, if_pos (.inr rfl)]
    · rw [Function.update_of_ne (Ne.symm same1), if_neg (not_or.mpr ⟨same0, same1⟩)]

theorem connectRight_spec (link : Link File)
    (owned : Owned process.table process.cells process.read held visible)
    (idle : .shell frame.p0 ∉ process.cells) {p0 p1 : Nat} (different : p0 ≠ p1)
    (shell0 : process.shell frame.p0 = some p0) (shell1 : process.shell frame.p1 = some p1)
    (shown0 : visible p0 ≠ none) (shown1 : visible p1 ≠ none) :
    ∃ result, process.connectRight frame link = some result ∧ result.cells = process.cells ∧
      Owned result.table result.cells result.read held (seenRight visible p0 p1 link.outfd) ∧
      ∀ cell ∈ result.cells, result.read cell ≠ some link.outfd := by
  obtain ⟨between, run, owned', unheld, cells, shell⟩ := connect_spec owned shown1 link.outfd
  have stillShown : Function.update (Function.update visible p1 none) link.outfd (visible p1) p0 ≠
      none := by
    by_cases same : p0 = link.outfd
    · rw [same, Function.update_self]
      exact shown1
    · rw [Function.update_of_ne same, Function.update_of_ne different]
      exact shown0
  refine ⟨{ between with table := between.table.close p0 }, ?_, cells,
    owned'.set (owned'.unheld_of_visible stillShown) none, unheld⟩
  rw [connectRight, shell1, run]
  show (do let p0 ← between.shell frame.p0; some _) = _
  rw [shell _ idle, shell0]
  rfl

/-- A child with a right neighbour is connected exactly if the numbers it is asked for are none of
those it still needs. -/
theorem Parent.innerChild_iff (parent : Parent frame left process)
    (fresh : FreshLink link left process) :
    Connected left (some link) (process.innerChild frame link left) ↔
      InnerClear frame link left process := by
  obtain ⟨child, held, visible, p0, p1, run, piped⟩ := parent.piped fresh
  have clear : InnerClear frame link left process ↔ p0 ≠ link.outfd ∧
      ∀ other, left = some other → p0 ≠ other.infd ∧ p1 ≠ other.infd := by
    have each : ∀ (n : Nat), (some p0 ≠ some n ↔ p0 ≠ n) ∧ (some p1 ≠ some n ↔ p1 ≠ n) := by simp
    constructor
    · intro all
      have here := all child run
      rw [piped.shell0, piped.shell1] at here
      simpa using here
    · rintro numbers other isChild
      obtain rfl := Option.some.inj (run.symm.trans isChild)
      rw [piped.shell0, piped.shell1]
      simpa using numbers
  rw [clear]
  have connected : ∀ result, Connected left (some link) (some result) ↔
      (∀ other, left = some other → result.table.file other.infd = some other.readEnd) ∧
        result.table.file link.outfd = some link.writeEnd := by
    intro result
    simp [Connected]
  cases isLeft : left with
  | none =>
    obtain ⟨result, right, cells, owned, unheld⟩ := connectRight_spec link piped.owned
      piped.idle.p0 piped.different piped.shell0 piped.shell1 (by simp [piped.readEnd])
      (by simp [piped.writeEnd])
    have all : process.innerChild frame link left = some result := by
      rw [innerChild, run, isLeft]
      exact right
    rw [← isLeft, all, connected, isLeft, owned.shown _ unheld, seenRight_outfd, piped.writeEnd]
    by_cases same : p0 = link.outfd <;> simp [same]
  | some other =>
    obtain ⟨q, shellIn, inpipe, not0, not1⟩ := piped.inpipe other isLeft
    obtain ⟨between, joined, owned', unheld', cells', shell'⟩ :=
      connect_spec piped.owned (by simp [inpipe] : visible q ≠ none) other.infd
    rw [inpipe] at owned'
    -- what is seen once the pipe on the left has been moved
    have seen : ∀ n, n ≠ q → Function.update (Function.update visible q none) other.infd
        (some other.readEnd) n = if n = other.infd then some other.readEnd else visible n := by
      intro n notQ
      by_cases same : n = other.infd
      · rw [same, Function.update_self, if_pos rfl]
      · rw [Function.update_of_ne same, Function.update_of_ne notQ, if_neg same]
    have shown0 := seen p0 not0.symm
    have shown1 := seen p1 not1.symm
    have idle0 : .shell frame.p0 ∉ between.cells := by
      rw [cells']
      exact piped.idle.p0
    obtain ⟨result, right, cells, owned, unheld⟩ := connectRight_spec link owned' idle0
      piped.different ((shell' _ piped.idle.p0).trans piped.shell0)
      ((shell' _ piped.idle.p1).trans piped.shell1)
      (by rw [shown0]; split_ifs <;> simp [piped.readEnd])
      (by rw [shown1]; split_ifs <;> simp [piped.writeEnd])
    have all : process.innerChild frame link left = some result := by
      rw [innerChild, run, isLeft]
      show (do let child ← child.connectLeft frame (some other); child.connectRight frame link) = _
      rw [connectLeft, shellIn, joined]
      exact right
    have numbers := fresh.numbers other isLeft
    have distinctEnds : other.readEnd ≠ link.writeEnd := by
      intro same
      exact fresh.newWrite other.fd0 (by rw [parent.opened other isLeft, same])
    have leftEnd : result.table.file other.infd = some other.readEnd ↔
        p0 ≠ other.infd ∧ p1 ≠ other.infd := by
      have isSeen : result.table.file other.infd = some other.readEnd ↔
          seenRight (Function.update (Function.update visible q none) other.infd
            (some other.readEnd)) p0 p1 link.outfd other.infd = some other.readEnd := by
        constructor
        · intro isFile
          rcases owned.file_cases isFile with ⟨cell, member, -, holds⟩ | isSeen
          · rw [cells, cells'] at member
            exact absurd holds (piped.others other isLeft cell member)
          · exact isSeen
        · intro isSeen
          rw [owned.shown _ (owned.unheld_of_visible (by rw [isSeen]; simp)), isSeen]
      rw [isSeen, seenRight_of_ne _ _ _ numbers.symm, Function.update_self]
      by_cases same0 : p0 = other.infd <;> by_cases same1 : p1 = other.infd <;> simp [same0, same1]
    have rightEnd : result.table.file link.outfd = some link.writeEnd ↔
        p0 ≠ link.outfd ∧ p1 ≠ other.infd := by
      rw [owned.shown _ unheld, seenRight_outfd, shown1, piped.writeEnd]
      by_cases same0 : p0 = link.outfd <;> by_cases same1 : p1 = other.infd <;>
        simp [same0, same1, distinctEnds]
    rw [← isLeft, all, connected, rightEnd]
    simp only [isLeft, Option.some.injEq, forall_eq']
    rw [leftEnd]
    tauto

theorem connect_file {oldfd : Option Nat} {newfd : Nat} {result : Process File}
    (owned : Owned process.table process.cells process.read held visible)
    (run : process.connect oldfd newfd = some result) {file : File}
    (notHeld : ∀ cell ∈ process.cells, held cell ≠ some file) (notSeen : ∀ n, visible n ≠ some file)
    (n : Nat) : result.table.file n ≠ some file := by
  obtain ⟨released, release, rest⟩ := Option.bind_eq_some_iff.mp run
  obtain ⟨old, -, moved⟩ := Option.bind_eq_some_iff.mp rest
  obtain ⟨released', release', effect, owned'⟩ := releasefd_spec owned newfd
  obtain rfl := Option.some.inj (release.symm.trans release')
  have absent : ∀ m, released.table.file m ≠ some file := by
    intro m isFile
    rcases owned'.file_cases isFile with ⟨cell, member, -, holds⟩ | isSeen
    · rw [Process.cells, effect.reserved] at member
      exact notHeld cell member holds
    · exact notSeen m isSeen
  rw [mvfd] at moved
  split_ifs at moved with same
  · obtain rfl := Option.some.inj moved
    exact absent n
  · obtain ⟨table, dup, rfl⟩ := Option.map_eq_some_iff.mp moved
    obtain ⟨other, isOther, rfl⟩ := Option.map_eq_some_iff.mp dup
    show ((released.table.set newfd (some other)).close old).file n ≠ some file
    rw [Descriptors.close, Descriptors.file_set, Descriptors.file_set]
    by_cases isOld : n = old
    · rw [isOld, Function.update_self]
      simp
    · rw [Function.update_of_ne isOld]
      by_cases isNew : n = newfd
      · rw [isNew, Function.update_self, ← isOther]
        exact absent old
      · rw [Function.update_of_ne isNew]
        exact absent n

theorem Parent.assign (parent : Parent frame left process) (fd : Option Nat) :
    Parent frame left (process.assign frame.inpipe fd) := by
  have idle := parent.idle
  refine ⟨parent.wellFormed.assign idle.inpipe fd,
    ⟨idle.p0p1, idle.p0inpipe, idle.p1inpipe, idle.p0, idle.p1, idle.inpipe⟩, parent.opened, ?_,
    parent.only⟩
  intro other isLeft cell member
  rw [read_assign_of_ne fd fun same => idle.inpipe (same ▸ member)]
  exact parent.unheld other isLeft cell member

/-- The last child is connected exactly if no pending redirection is for its `inpipe`. -/
theorem Parent.lastChild_iff (parent : Parent frame left process) :
    Connected left none (process.lastChild frame left) ↔ LastClear left process := by
  have isInpipe : (process.assign frame.inpipe (left.map Link.fd0)).shell frame.inpipe =
      left.map Link.fd0 := Function.update_self ..
  have sameClear : LastClear left process ↔
      LastClear left (process.assign frame.inpipe (left.map Link.fd0)) := Iff.rfl
  rw [sameClear, lastChild]
  replace parent := parent.assign (left.map Link.fd0)
  generalize process.assign frame.inpipe (left.map Link.fd0) = forking at *
  obtain ⟨child, held, visible, closes, fork⟩ := closefds_forked parent.wellFormed
  have inpipe := (closefds_shell parent.idle.inpipe closes).1.trans isInpipe
  rw [closes]
  show Connected left none (child.connectLeft frame left) ↔ _
  cases isLeft : left with
  | none =>
    exact iff_of_true ⟨child, rfl, fun _ same => (by cases same), fun _ same => (by cases same)⟩
      fun _ same => (by cases same)
  | some other =>
    rw [connectLeft, inpipe, isLeft, Option.map_some]
    have notHeld : ∀ cell ∈ child.cells, held cell ≠ some other.readEnd := fun cell member holds =>
      parent.held_ne isLeft ((fork.cells cell).mp member).1 (fork.held_cases cell member _ holds)
    have isVisible : forking.visible other.fd0 = some other.readEnd := by
      rw [visible_of_unheld (parent.unheld other isLeft)]
      exact parent.opened other isLeft
    constructor
    · rintro ⟨result, run, leftEnd, -⟩ other' same defer listed use
      obtain rfl := Option.some.inj same
      refine connect_file fork.owned run notHeld ?_ other.infd (leftEnd other rfl)
      -- the redirection has replaced the read end, and it is nowhere else
      intro n seen
      rcases fork.visible_cases n _ seen with redirected | ⟨cell, member, holds⟩
      · obtain ⟨used, unused⟩ := redirected_lastUse forking (le_refl forking.deftab.length) n
        by_cases last : ∃ i, LastUse forking.deftab forking.deftab.length n i
        · obtain ⟨i, isLast⟩ := last
          rw [used i isLast] at redirected
          exact parent.held_ne isLeft ((parent.wellFormed.deferred i).mpr isLast.1) redirected
        · rw [unused fun i isLast => last ⟨i, isLast⟩, Process.visible] at redirected
          split_ifs at redirected
          refine last (exists_lastUse listed (use.trans ?_))
          exact (parent.only other isLeft n redirected).symm
      · exact parent.held_ne isLeft member holds
    · intro clear
      have seen : visible other.fd0 = some other.readEnd := by
        refine fork.shown _ _ ?_
        rw [(redirected_lastUse forking (le_refl _) other.fd0).2, isVisible]
        rintro i ⟨inside, use, -⟩
        obtain ⟨defer, entry, isUse⟩ := Option.map_eq_some_iff.mp use
        exact clear other rfl defer (List.mem_of_getElem? entry) isUse
      obtain ⟨result, run, owned, unheld, -, -⟩ :=
        connect_spec fork.owned (by simp [seen] : visible other.fd0 ≠ none) other.infd
      refine ⟨result, run, ?_, fun _ same => (by cases same)⟩
      intro other' same
      obtain rfl := Option.some.inj same
      rw [owned.shown _ unheld, Function.update_self, seen]

theorem pipeforkEnd_shell {result : Process File} (run : process.pipeforkEnd frame = some result) :
    result.shell = process.shell := by
  obtain ⟨first, run0, rest⟩ := Option.bind_eq_some_iff.mp run
  obtain ⟨second, run1, run2⟩ := Option.bind_eq_some_iff.mp rest
  rw [(unregisterfd_fields run2).1, (unregisterfd_fields run1).1, (unregisterfd_fields run0).1]

/-- A child finds the pipe under the numbers `pipe` has returned if no pending redirection is for
them. -/
theorem Parent.pipeforkChild_shell (parent : Parent frame left process)
    (fresh : FreshLink link left process)
    (unused : ∀ defer ∈ process.deftab, defer.userfd ≠ link.fd0 ∧ defer.userfd ≠ link.fd1)
    {child : Process File} (run : process.pipeforkChild frame link left = some child) :
    child.shell frame.p0 = some link.fd0 ∧ child.shell frame.p1 = some link.fd1 := by
  have state := parent.begun fresh
  rw [pipeforkChild] at run
  generalize process.pipeforkBegin frame link left = begun at *
  obtain ⟨forked, held, visible, closes, fork⟩ := closefds_forked state.wellFormed
  rw [closes] at run
  rw [pipeforkEnd_shell run]
  have reserved := state.reserved
  rw [← state.deftab] at unused
  exact ⟨fork.read ⟨.shell frame.p0, false⟩ (by simp [reserved]) rfl (fun i same => (by cases same))
      link.fd0 state.p0 fun defer listed => (unused defer listed).1,
    fork.read ⟨.shell frame.p1, false⟩ (by simp [reserved]) rfl (fun i same => (by cases same))
      link.fd1 state.p1 fun defer listed => (unused defer listed).2⟩

/-- Where no pending redirection is for the numbers `pipe` has returned, they are the numbers to
look at. -/
theorem Parent.innerClear_iff (parent : Parent frame left process)
    (fresh : FreshLink link left process)
    (unused : ∀ defer ∈ process.deftab, defer.userfd ≠ link.fd0 ∧ defer.userfd ≠ link.fd1) :
    InnerClear frame link left process ↔ link.fd0 ≠ link.outfd ∧
      ∀ other, left = some other → link.fd0 ≠ other.infd ∧ link.fd1 ≠ other.infd := by
  obtain ⟨child, -, -, -, -, run, -⟩ := parent.piped fresh
  obtain ⟨p0, p1⟩ := parent.pipeforkChild_shell fresh unused run
  constructor
  · intro clear
    obtain ⟨right, left⟩ := clear child run
    simp only [p0, p1, ne_eq, Option.some.injEq] at right left
    exact ⟨right, left⟩
  · rintro ⟨right, left⟩ child' run'
    obtain rfl := Option.some.inj (run.symm.trans run')
    simp only [p0, p1, ne_eq, Option.some.injEq]
    exact ⟨right, left⟩

/-! ### The whole pipeline -/

theorem Parent.children_connected_iff {links : List (Link File)}
    (parent : Parent frame left process)
    (fresh : AllFresh frame links left process) :
    (∃ children, prim_pipe frame links left process = some children ∧
        AllConnected links left children) ↔
      AllClear frame links left process := by
  induction links generalizing left process with
  | nil =>
    rw [AllClear, ← parent.lastChild_iff]
    constructor
    · rintro ⟨children, run, connected⟩
      obtain rfl := Option.some.inj run
      exact connected
    · exact fun connected => ⟨_, rfl, connected⟩
  | cons link links inductionHypothesis =>
    obtain ⟨next, step, parent', -⟩ := parent.next fresh.1
    have rest := inductionHypothesis parent' (fresh.2 next step)
    have onward : (∀ parent, process.nextParent frame link left = some parent →
        AllClear frame links (some link) parent) ↔ AllClear frame links (some link) next := by
      simp [step]
    rw [AllClear, onward, ← rest, ← parent.innerChild_iff fresh.1]
    constructor
    · rintro ⟨children, run, connected⟩
      rw [prim_pipe, step, Option.bind_eq_bind, Option.bind_some] at run
      obtain ⟨others, run', same⟩ := Option.bind_eq_some_iff.mp run
      obtain rfl := Option.some.inj same
      exact ⟨connected.1, others, run', connected.2⟩
    · rintro ⟨first, others, run', connected⟩
      refine ⟨process.innerChild frame link left :: others, ?_, first, connected⟩
      rw [prim_pipe, step]
      show (do let children ← prim_pipe frame links (some link) next; some _) = _
      rw [run']
      rfl

/-- Every command of a pipeline is evaluated with `outfd` on the write end of the pipe to its right
neighbour and `infd` on the read end of the one from its left neighbour exactly if no number is in
the way. -/
theorem prim_pipe_iff (links : List (Link File)) (wellFormed : process.WellFormed)
    (idle : Idle frame process) (fresh : AllFresh frame links none process) :
    (∃ children, prim_pipe frame links none process = some children ∧
        AllConnected links none children) ↔
      AllClear frame links none process :=
  Parent.children_connected_iff ⟨wellFormed, idle, fun _ same => (by cases same),
    fun _ same => (by cases same), fun _ same => (by cases same)⟩ fresh

/-- A shell on a terminal, with two free numbers. -/
def freeTerminal : Process String where
  table := ⟨[some "tty", some "tty", some "tty"]⟩
  deftab := []
  defmax := 0
  reserved := []
  shell := fun _ => none

def locals : Frame := ⟨0, 1, 2⟩

theorem freeTerminal_valid : freeTerminal.WellFormed ∧ Idle locals freeTerminal := by
  refine ⟨⟨by decide, ?_, by decide, by decide⟩,
    ⟨by decide, by decide, by decide, by decide, by decide, by decide⟩⟩
  intro i
  simp [freeTerminal, cells]

theorem file_ne_of_not_mem {table : Descriptors File} {file : File}
    (absent : some file ∉ table.slots) (n : Nat) : table.file n ≠ some file := by
  intro isFile
  rw [Descriptors.file, Option.join_eq_some_iff] at isFile
  exact absent (List.mem_of_getElem? isFile)

/-- `a | b`, where `pipe` returns the two lowest free numbers. -/
def onePipe : List (Link String) := [⟨1, 0, 3, 4, "read", "write"⟩]

theorem onePipe_fresh : AllFresh locals onePipe none freeTerminal :=
  ⟨⟨by decide, by decide, by decide, file_ne_of_not_mem (by decide), file_ne_of_not_mem (by decide),
    by decide, fun _ same => (by cases same)⟩, fun _ _ => trivial⟩

/-- Both commands are connected. -/
theorem prim_pipe_onePipe :
    ∃ children, prim_pipe locals onePipe none freeTerminal = some children ∧
      AllConnected onePipe none children := by
  refine (prim_pipe_iff onePipe freeTerminal_valid.1 freeTerminal_valid.2 onePipe_fresh).mpr
    ⟨?_, ?_⟩
  · intro child isChild
    have number : (freeTerminal.pipeforkChild locals ⟨1, 0, 3, 4, "read", "write"⟩ none).map
        (fun child => child.shell 0) = some (some 3) := by decide +kernel
    rw [isChild, Option.map_some, Option.some.injEq] at number
    exact ⟨by rw [show child.shell locals.p0 = some 3 from number]; decide,
      fun _ same => (by cases same)⟩
  · intro next step other same defer listed
    have table : (freeTerminal.nextParent locals ⟨1, 0, 3, 4, "read", "write"⟩ none).map
        Process.deftab = some [] := by decide +kernel
    rw [step, Option.map_some, Option.some.injEq] at table
    rw [table] at listed
    cases listed

/-- `a |[1=5] b | c`: the second `pipe` returns 4 and 5. -/
def twoPipes : List (Link String) :=
  [⟨1, 5, 3, 4, "read 1", "write 1"⟩, ⟨1, 0, 4, 5, "read 2", "write 2"⟩]

theorem twoPipes_fresh : AllFresh locals twoPipes none freeTerminal := by
  refine ⟨⟨by decide, by decide, by decide, file_ne_of_not_mem (by decide),
    file_ne_of_not_mem (by decide), by decide, fun _ same => (by cases same)⟩, ?_⟩
  intro next step
  have table : (freeTerminal.nextParent locals ⟨1, 5, 3, 4, "read 1", "write 1"⟩ none).map
      Process.table = some ⟨[some "tty", some "tty", some "tty", some "read 1", none]⟩ := by
    decide +kernel
  rw [step, Option.map_some, Option.some.injEq] at table
  refine ⟨⟨by decide, ?_, ?_, ?_, ?_, by decide, ?_⟩, fun _ _ => trivial⟩
  · rw [table]
    decide
  · rw [table]
    decide
  · rw [table]
    exact file_ne_of_not_mem (by decide)
  · rw [table]
    exact file_ne_of_not_mem (by decide)
  · rintro other same
    obtain rfl := Option.some.inj same
    decide

/-- The second command is evaluated with its output on the read end of the pipe on its left. -/
theorem not_allConnected_twoPipes :
    freeTerminal.WellFormed ∧ Idle locals freeTerminal ∧
      AllFresh locals twoPipes none freeTerminal ∧
      ((prim_pipe locals twoPipes none freeTerminal).map fun children =>
        children.map (Option.map fun child => child.table.file 1)) =
        some [some (some "write 1"), some (some "read 1"), some (some "tty")] ∧
      ¬∃ children, prim_pipe locals twoPipes none freeTerminal = some children ∧
        AllConnected twoPipes none children := by
  have files : ((prim_pipe locals twoPipes none freeTerminal).map fun children =>
      children.map (Option.map fun child => child.table.file 1)) =
      some [some (some "write 1"), some (some "read 1"), some (some "tty")] := by decide +kernel
  refine ⟨freeTerminal_valid.1, freeTerminal_valid.2, twoPipes_fresh, files, ?_⟩
  rintro ⟨children, run, connected⟩
  rw [run, Option.map_some, Option.some.injEq] at files
  match children, connected with
  | [_, _, _], ⟨_, ⟨child, isChild, _, right⟩, _⟩ =>
    have output := right _ rfl
    simp only [List.map_cons, isChild, Option.map_some, List.cons.injEq] at files
    rw [show child.table.file 1 = _ from Option.some.inj files.2.1] at output
    exact absurd output (by decide)

end Process

end Desh
