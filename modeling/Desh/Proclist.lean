/-
This file proves when the process list keeps every process. The list in memory
represents the table of the processes to be listed: they are the cells of one
chain, which is all that is allocated. Every step keeps that, except for a fork
whose process number a listed process has: its cell is used again where it
stands and made the head, so the cells before it are lost, or it becomes its own
predecessor.
-/

import Desh.Proc

namespace Desh

namespace Procs

/-! ### The list and the table -/

/-- The processes of the list in memory, and nothing else is allocated. -/
structure Lists (procs : Procs) (list : List (Nat × Proc)) : Prop where
  chain : Chain procs.memory none procs.proclist list
  allocated : ∀ a, (procs.memory a).isSome → ∃ cell ∈ list, cell.1 = a

/-- The list in memory is well formed, and it lists the processes of the table, each once. -/
def Represents (procs : Procs) (table : Table) : Prop :=
  ∃ list, procs.Lists list ∧ list.map Prod.snd = table

variable {procs procs' : Procs} {list : List (Nat × Proc)}

theorem Lists.initial : Procs.initial.Lists [] :=
  ⟨rfl, fun a isSome => by cases isSome⟩

theorem find_spec {memory : Memory Nat Proc} {before start : Option Nat} {kind : Proc → Bool}
    {fuel : Nat} {found : Option Nat} (chain : Chain memory before start list)
    (run : find kind memory fuel start = some found) :
    found = (list.find? fun cell => kind cell.2).map Prod.fst := by
  induction list generalizing fuel start before with
  | nil =>
    obtain rfl : start = none := chain
    cases fuel with
    | zero => cases run
    | succ fuel => exact (Option.some.inj run).symm
  | cons cell rest inductionHypothesis =>
    obtain ⟨rfl, next, isCell, tail⟩ := chain
    cases fuel with
    | zero => cases run
    | succ fuel =>
      rw [find, isCell, Option.bind_some] at run
      rw [List.find?_cons]
      cases isKind : kind cell.2 with
      | true =>
        rw [if_pos isKind] at run
        exact (Option.some.inj run).symm
      | false =>
        rw [if_neg (by rw [isKind]; decide)] at run
        exact inductionHypothesis tail run

/-- What `find` returns leads to the first process of the kind. -/
theorem Lists.of_find (lists : procs.Lists list) {kind : Proc → Bool} {fuel a : Nat}
    (run : find kind procs.memory fuel procs.proclist = some (some a)) :
    ∃ proc, (a, proc) ∈ list ∧ list.find? (fun cell => kind cell.2) = some (a, proc) := by
  obtain ⟨cell, found, rfl⟩ := Option.map_eq_some_iff.mp (find_spec lists.chain run).symm
  exact ⟨cell.2, List.mem_of_find?_eq_some found, found⟩

/-! ### Writing and unlinking -/

theorem write_memory (procs : Procs) (a : Nat) (f : Proc → Proc) (b : Nat) :
    (procs.write a f).memory b =
      (procs.memory b).map fun c => { c with data := if b = a then f c.data else c.data } := by
  show Function.update procs.memory a _ b = _
  by_cases same : b = a
  · subst same
    simp
  · rw [Function.update_of_ne same]
    cases procs.memory b <;> simp [same]

/-- The list after a write. -/
def written (a : Nat) (f : Proc → Proc) (list : List (Nat × Proc)) : List (Nat × Proc) :=
  list.map fun cell => (cell.1, if cell.1 = a then f cell.2 else cell.2)

theorem Lists.write (lists : procs.Lists list) (a : Nat) (f : Proc → Proc) :
    (procs.write a f).Lists (written a f list) := by
  refine ⟨lists.chain.mapData (fun b proc => if b = a then f proc else proc)
    fun cell _ => procs.write_memory a f cell.1, ?_⟩
  intro b isSome
  rw [write_memory, Option.isSome_map] at isSome
  obtain ⟨cell, member, rfl⟩ := lists.allocated b isSome
  exact ⟨_, List.mem_map.mpr ⟨cell, member, rfl⟩, rfl⟩

theorem written_of_ne {a : Nat} (f : Proc → Proc) (others : ∀ cell ∈ list, cell.1 ≠ a) :
    written a f list = list := by
  refine (List.map_congr_left fun cell member => ?_).trans (List.map_id list)
  rw [if_neg (others cell member)]
  rfl

theorem map_snd_written (distinct : (list.map Prod.fst).Nodup) {kind : Proc → Bool}
    (f : Proc → Proc) {cell : Nat × Proc}
    (found : list.find? (fun cell => kind cell.2) = some cell) :
    (written cell.1 f list).map Prod.snd = Table.writeFirst kind f (list.map Prod.snd) := by
  induction list with
  | nil => cases found
  | cons first rest inductionHypothesis =>
    rw [List.map_cons, List.nodup_cons] at distinct
    rw [List.find?_cons] at found
    rw [written, List.map_cons, List.map_cons, List.map_cons, Table.writeFirst]
    cases isKind : kind first.2 with
    | true =>
      rw [isKind] at found
      obtain rfl := Option.some.inj found
      have others : written first.1 f rest = rest := written_of_ne f fun other member same =>
        distinct.1 (List.mem_map.mpr ⟨other, member, same⟩)
      rw [written] at others
      rw [others, if_pos rfl]
      exact (List.replaceF_cons_of_some _ (by rw [if_pos isKind])).symm
    | false =>
      rw [isKind] at found
      have different : first.1 ≠ cell.1 := fun same =>
        distinct.1 (List.mem_map.mpr ⟨cell, List.mem_of_find?_eq_some found, same.symm⟩)
      have notKind : ¬kind first.2 = true := by rw [isKind]; decide
      rw [if_neg different]
      refine Eq.trans ?_ (List.replaceF_cons_of_none _ (by rw [if_neg notKind])).symm
      exact congrArg (first.2 :: ·) (inductionHypothesis distinct.2 found)

/-- The list without a cell. -/
def without (a : Nat) (list : List (Nat × Proc)) : List (Nat × Proc) :=
  list.filter fun cell => cell.1 ≠ a

theorem Lists.unlinkproc (lists : procs.Lists list) {cell : Nat × Proc} (member : cell ∈ list)
    (run : procs.unlinkproc cell.1 = some procs') : procs'.Lists (without cell.1 list) := by
  obtain ⟨next, prev, found⟩ := lists.chain.get member
  rw [Procs.unlinkproc, found, Option.map_some] at run
  obtain rfl := Option.some.inj run
  refine ⟨lists.chain.unlink member found, fun a isSome => ?_⟩
  dsimp only at isSome
  by_cases same : a = cell.1
  · subst same
    rw [Function.update_self] at isSome
    cases isSome
  · rw [Function.update_of_ne same, Memory.setNext_apply, Memory.setPrev_apply, Option.isSome_map,
      Option.isSome_map] at isSome
    obtain ⟨other, inside, rfl⟩ := lists.allocated a isSome
    exact ⟨other, List.mem_filter.mpr ⟨inside, by simpa using same⟩, rfl⟩

theorem without_append (front rest : List (Nat × Proc)) (cell : Nat × Proc)
    (distinct : ((front ++ cell :: rest).map Prod.fst).Nodup) :
    without cell.1 (front ++ cell :: rest) = front ++ rest := by
  rw [List.map_append, List.map_cons, List.nodup_middle, List.nodup_cons, ← List.map_append]
    at distinct
  have others : ∀ other ∈ front ++ rest, other.1 ≠ cell.1 := fun other member same =>
    distinct.1 (List.mem_map.mpr ⟨other, member, same⟩)
  rw [without, List.filter_append, List.filter_cons_of_neg (by simp), ← List.filter_append,
    List.filter_eq_self.mpr (by simpa using others)]

theorem map_snd_without (distinct : (list.map Prod.fst).Nodup) {kind : Proc → Bool}
    {cell : Nat × Proc} (found : list.find? (fun cell => kind cell.2) = some cell) :
    (without cell.1 list).map Prod.snd = (list.map Prod.snd).eraseP kind := by
  obtain ⟨isKind, front, rest, rfl, before⟩ := List.find?_eq_some_iff_append.mp found
  rw [without_append front rest cell distinct, List.map_append, List.map_append, List.map_cons,
    List.eraseP_append_right _ ?_, List.eraseP_cons_of_pos isKind]
  intro proc member
  obtain ⟨other, inside, rfl⟩ := List.mem_map.mp member
  simpa using before other inside

theorem without_written (a : Nat) (f : Proc → Proc) (list : List (Nat × Proc)) :
    without a (written a f list) = without a list := by
  induction list with
  | nil => rfl
  | cons cell rest inductionHypothesis =>
    rw [without, written] at inductionHypothesis ⊢
    rw [List.map_cons, List.filter_cons, inductionHypothesis, without, without, List.filter_cons]
    by_cases same : cell.1 = a <;> simp [same]

/-! ### The loops -/

theorem head_of_chain {memory : Memory Nat Proc} {before start : Option Nat}
    (chain : Chain memory before start list) : start = list.head?.map Prod.fst := by
  cases list with
  | nil => exact chain
  | cons cell rest => exact chain.1

/-- What a loop reads at a cell: it goes on at the cell after it. -/
theorem Lists.read (lists : procs.Lists list) {front rest : List (Nat × Proc)} {cell : Nat × Proc}
    (split : list = front ++ cell :: rest) :
    ∃ prev, procs.memory cell.1 = some ⟨rest.head?.map Prod.fst, prev, cell.2⟩ := by
  subst split
  obtain ⟨prev, -, next, found, tail⟩ := lists.chain.drop
  exact ⟨prev, by rw [found, head_of_chain tail]⟩

theorem cleanproclistLoop_spec {front rest : List (Nat × Proc)} {fuel : Nat}
    (lists : procs.Lists (front ++ rest))
    (run : cleanproclistLoop fuel (rest.head?.map Prod.fst) procs = some procs') :
    procs'.Lists (front ++ rest.filter fun cell => cell.2.alive) := by
  induction rest generalizing front fuel procs with
  | nil =>
    cases fuel with
    | zero => cases run
    | succ fuel =>
      obtain rfl := Option.some.inj run
      exact lists
  | cons cell rest inductionHypothesis =>
    cases fuel with
    | zero => cases run
    | succ fuel =>
      obtain ⟨prev, found⟩ := lists.read rfl
      rw [List.head?_cons, Option.map_some, cleanproclistLoop, found] at run
      cases isAlive : cell.2.alive with
      | true =>
        rw [List.filter_cons_of_pos (p := fun cell : Nat × Proc => cell.2.alive) isAlive]
        simp only [Option.bind_eq_bind, Option.bind_some, isAlive, if_true] at run
        rw [List.append_cons] at lists ⊢
        exact inductionHypothesis lists run
      | false =>
        rw [List.filter_cons_of_neg (by rw [isAlive]; decide)]
        simp only [Option.bind_eq_bind, Option.bind_some, isAlive, Bool.false_eq_true, if_false]
          at run
        obtain ⟨between, unlinked, onward⟩ := Option.bind_eq_some_iff.mp run
        have kept := lists.unlinkproc (List.mem_append_right _ List.mem_cons_self) unlinked
        rw [without_append _ _ _ lists.chain.nodup] at kept
        exact inductionHypothesis kept onward

theorem donotwaitLoop_spec {exited : Int → Option Int} {front rest : List (Nat × Proc)} {fuel : Nat}
    (lists : procs.Lists (front ++ rest))
    (run : donotwaitLoop exited fuel (rest.head?.map Prod.fst) procs = some procs') :
    procs'.Lists (front ++ rest.map fun cell => (cell.1, cell.2.reap exited)) := by
  induction rest generalizing front fuel procs with
  | nil =>
    cases fuel with
    | zero => cases run
    | succ fuel =>
      obtain rfl := Option.some.inj run
      exact lists
  | cons cell rest inductionHypothesis =>
    cases fuel with
    | zero => cases run
    | succ fuel =>
      obtain ⟨prev, found⟩ := lists.read rfl
      rw [List.head?_cons, Option.map_some, donotwaitLoop, found] at run
      have kept := lists.write cell.1 (Proc.reap exited)
      have distinct := lists.chain.nodup
      rw [List.map_append, List.map_cons, List.nodup_middle, List.nodup_cons, ← List.map_append]
        at distinct
      have others : ∀ other ∈ front ++ rest, other.1 ≠ cell.1 := fun other member same =>
        distinct.1 (List.mem_map.mpr ⟨other, member, same⟩)
      have isWritten : written cell.1 (Proc.reap exited) (front ++ cell :: rest) =
          (front ++ [(cell.1, cell.2.reap exited)]) ++ rest := by
        rw [written, List.map_append, List.map_cons, if_pos rfl, ← written, ← written,
          written_of_ne _ fun other member => others other (List.mem_append_left _ member),
          written_of_ne _ fun other member => others other (List.mem_append_right _ member),
          List.append_cons]
      rw [isWritten] at kept
      rw [List.map_cons, List.append_cons]
      exact inductionHypothesis kept run

/-! ### The steps -/

theorem Represents.initial : Procs.initial.Represents [] := ⟨[], Lists.initial, rfl⟩

variable {table : Table} {session : Session} {fuel : Nat}

theorem Represents.cleanproclist (represents : procs.Represents table)
    (run : procs.cleanproclist fuel = some procs') : procs'.Represents table.clean := by
  obtain ⟨list, lists, rfl⟩ := represents
  rw [Procs.cleanproclist, head_of_chain lists.chain] at run
  have whole : procs.Lists ([] ++ list) := lists
  refine ⟨_, cleanproclistLoop_spec whole run, ?_⟩
  rw [List.nil_append, Table.clean, List.filter_map]
  rfl

theorem Represents.donotwait (represents : procs.Represents table) {exited : Int → Option Int}
    (run : procs.donotwait exited fuel = some procs') : procs'.Represents (table.reap exited) := by
  obtain ⟨list, lists, rfl⟩ := represents
  rw [Procs.donotwait, head_of_chain lists.chain] at run
  have whole : procs.Lists ([] ++ list) := lists
  refine ⟨_, donotwaitLoop_spec whole run, ?_⟩
  rw [List.nil_append, Table.reap, List.map_map, List.map_map]
  rfl

/-- Writing to the process `getproc` finds. -/
theorem Represents.write (represents : procs.Represents table) {pid : Int} {onlyfg : Bool} {a : Nat}
    (run : procs.getproc pid onlyfg fuel = some (some a)) (f : Proc → Proc) :
    (procs.write a f).Represents (table.writeFirst (Proc.isAwaited pid onlyfg) f) := by
  obtain ⟨list, lists, rfl⟩ := represents
  obtain ⟨proc, member, found⟩ := lists.of_find run
  exact ⟨_, lists.write a f, map_snd_written lists.chain.nodup f found⟩

theorem Represents.any_of_getproc (represents : procs.Represents table) {pid : Int} {onlyfg : Bool}
    {found : Option Nat} (run : procs.getproc pid onlyfg fuel = some found) :
    table.any (Proc.isAwaited pid onlyfg) = found.isSome := by
  obtain ⟨list, lists, rfl⟩ := represents
  rw [find_spec lists.chain run, Option.isSome_map, List.any_map, List.isSome_find?]
  rfl

theorem Represents.ewaitLoop (represents : procs.Represents table) {pid : Int}
    {reports : List Waited} {failed : Bool}
    (run : ewaitLoop fuel pid reports procs = some (failed, procs')) :
    (Table.await pid reports table).1 = failed ∧
      procs'.Represents (Table.await pid reports table).2 := by
  induction reports generalizing procs table with
  | nil =>
    unfold Procs.ewaitLoop at run
    unfold Table.await
    obtain ⟨found, isFound, run⟩ := Option.bind_eq_some_iff.mp run
    rw [represents.any_of_getproc isFound]
    cases found with
    | none =>
      obtain ⟨rfl, rfl⟩ := Prod.mk.inj (Option.some.inj run)
      exact ⟨rfl, represents⟩
    | some a => cases run
  | cons report reports inductionHypothesis =>
    unfold Procs.ewaitLoop at run
    unfold Table.await
    obtain ⟨found, isFound, run⟩ := Option.bind_eq_some_iff.mp run
    rw [represents.any_of_getproc isFound]
    cases found with
    | none =>
      obtain ⟨rfl, rfl⟩ := Prod.mk.inj (Option.some.inj run)
      exact ⟨rfl, represents⟩
    | some a =>
      cases report with
      | error =>
        obtain ⟨rfl, rfl⟩ := Prod.mk.inj (Option.some.inj run)
        exact ⟨rfl, represents⟩
      | stopped wpid =>
        obtain ⟨awaited, isAwaited, run⟩ := Option.bind_eq_some_iff.mp run
        cases awaited with
        | none => cases run
        | some b =>
          obtain ⟨rfl, rfl⟩ := Prod.mk.inj (Option.some.inj run)
          exact ⟨rfl, represents.write isAwaited _⟩
      | ended wpid status =>
        obtain ⟨awaited, isAwaited, run⟩ := Option.bind_eq_some_iff.mp run
        cases awaited with
        | none => cases run
        | some b => exact inductionHypothesis (represents.write isAwaited _) run

theorem Represents.ewait (represents : procs.Represents table) {pid : Int}
    {exited : Int → Option Int} {reports : List Waited}
    (run : procs.ewait session fuel pid exited reports = some procs') :
    procs'.Represents (Table.step session table (.ewait pid exited reports)) := by
  obtain ⟨reaped, isReaped, run⟩ := Option.bind_eq_some_iff.mp run
  obtain ⟨⟨failed, waited⟩, isWaited, run⟩ := Option.bind_eq_some_iff.mp run
  obtain ⟨rfl, kept⟩ := (represents.donotwait isReaped).ewaitLoop isWaited
  simp only [Table.step]
  by_cases noCleaning : (Table.await pid reports (table.reap exited)).1 || session.isinteractive
  · rw [if_pos noCleaning]
    obtain rfl := Option.some.inj ((if_pos noCleaning).symm.trans run)
    exact kept
  · rw [if_neg noCleaning]
    exact kept.cleanproclist ((if_neg noCleaning).symm.trans run)

theorem Represents.procfree (represents : procs.Represents table) {pid : Int}
    {status : Option Int} (run : procs.procfree fuel pid status = some procs') :
    procs'.Represents (table.eraseP fun proc => proc.pid == pid) := by
  obtain ⟨list, lists, rfl⟩ := represents
  obtain ⟨found, isFound, run⟩ := Option.bind_eq_some_iff.mp run
  cases found with
  | none =>
    obtain rfl := Option.some.inj run
    refine ⟨list, lists, (List.eraseP_of_forall_not ?_).symm⟩
    have missing := (find_spec lists.chain isFound).symm
    rw [Option.map_eq_none_iff, List.find?_eq_none] at missing
    intro proc inside
    obtain ⟨cell, member, rfl⟩ := List.mem_map.mp inside
    exact missing cell member
  | some a =>
    obtain ⟨proc, member, isFirst⟩ := lists.of_find isFound
    have writtenMember : (a, { proc with status := status <|> proc.status }) ∈
        written a (fun proc => { proc with status := status <|> proc.status }) list :=
      List.mem_map.mpr ⟨_, member, by rw [if_pos rfl]⟩
    refine ⟨_, (lists.write a _).unlinkproc writtenMember run, ?_⟩
    rw [without_written]
    exact @map_snd_without list lists.chain.nodup (fun proc => proc.pid == pid) (a, proc) isFirst

/-- A fork whose number no listed process has puts the new process in front. -/
theorem Represents.efork (represents : procs.Represents table) {fresh : Nat} {pid pgid : Int}
    {background : Bool} {cmd : Text} (unlisted : ∀ proc ∈ table, proc.pid ≠ pid)
    (run : procs.efork session fuel fresh pid background pgid cmd = some procs') :
    procs'.Represents (table.fork session pid background pgid cmd) := by
  obtain ⟨list, lists, rfl⟩ := represents
  obtain ⟨⟨a, made⟩, isMade, run⟩ := Option.bind_eq_some_iff.mp run
  obtain ⟨found, isFound, isMade⟩ := Option.bind_eq_some_iff.mp isMade
  have missing : found = none := by
    rw [find_spec lists.chain isFound, Option.map_eq_none_iff, List.find?_eq_none]
    intro cell member
    simpa using unlisted cell.2 (List.mem_map_of_mem member)
  subst missing
  dsimp only at isMade
  split at isMade
  case isTrue inUse => cases isMade
  case isFalse free =>
    obtain ⟨rfl, rfl⟩ := Prod.mk.inj (Option.some.inj isMade)
    obtain rfl := Option.some.inj run
    have isFree : procs.memory fresh = none := Option.not_isSome_iff_eq_none.mp free
    have others : ∀ cell ∈ list, cell.1 ≠ fresh := by
      rintro cell member rfl
      obtain ⟨next, prev, isCell⟩ := lists.chain.get member
      cases isFree.symm.trans isCell
    -- the group of the new process is written before the old head is linked back to it
    let proc : Proc :=
      { mkProc session pid background none cmd with pgid := newPgid session pid pgid }
    have notHead : procs.proclist ≠ some fresh := by
      rw [head_of_chain lists.chain]
      intro same
      obtain ⟨cell, isHead, rfl⟩ := Option.map_eq_some_iff.mp same
      exact others cell (List.mem_of_head? isHead) rfl
    let made : Procs := ⟨Function.update procs.memory fresh
      (some ⟨procs.proclist, none, mkProc session pid background none cmd⟩), procs.proclist⟩
    have apply : ∀ b, (made.write fresh fun proc =>
          { proc with pgid := newPgid session pid pgid }).memory.setPrev procs.proclist
          (some fresh) b =
        if b = fresh then some ⟨procs.proclist, none, proc⟩
        else procs.memory.setPrev procs.proclist (some fresh) b := by
      intro b
      by_cases same : b = fresh
      · rw [same, Memory.setPrev_apply_of_ne _ notHead, write_memory]
        simp [made, proc]
      · have unchanged : made.memory b = procs.memory b := Function.update_of_ne same ..
        rw [Memory.setPrev_apply, Memory.setPrev_apply, write_memory, unchanged, if_neg same]
        cases procs.memory b <;> simp [same]
    refine ⟨(fresh, proc) :: list, ⟨lists.chain.push others ?_ ?_, ?_⟩, rfl⟩
    · exact (apply fresh).trans (if_pos rfl)
    · intro b different
      exact (apply b).trans (if_neg different)
    · intro b isSome
      by_cases same : b = fresh
      · exact ⟨_, List.mem_cons_self, same.symm⟩
      · replace isSome := (congrArg Option.isSome (apply b)).symm.trans isSome
        rw [if_neg same, Memory.setPrev_apply, Option.isSome_map] at isSome
        obtain ⟨cell, member, rfl⟩ := lists.allocated b isSome
        exact ⟨cell, List.mem_cons_of_mem _ member, rfl⟩

theorem Represents.step (represents : procs.Represents table) {op : ProcOp}
    (unlisted : ∀ fresh pid background pgid cmd, op = .efork fresh pid background pgid cmd →
      ∀ proc ∈ table, proc.pid ≠ pid)
    (run : procs.step session fuel op = some procs') :
    procs'.Represents (table.step session op) := by
  cases op with
  | efork fresh pid background pgid cmd =>
    exact represents.efork (unlisted fresh pid background pgid cmd rfl) run
  | ewait pid exited reports => exact represents.ewait run
  | donotwait exited => exact represents.donotwait run
  | cleanproclist => exact represents.cleanproclist run
  | procfree pid status => exact represents.procfree run

/-! ### Runs -/

/-- A fork that is given the number of a listed process, which then is a dead one. -/
def Recycles (table : Table) : ProcOp → Prop
  | .efork _ pid _ _ _ => ∃ proc ∈ table, proc.pid = pid
  | _ => False

/-- After a fork with the number of a listed process the list is not what it should be: that
process has become its own predecessor, or those before it are not on the list any more. -/
theorem Represents.efork_recycled (represents : procs.Represents table) {fresh : Nat}
    {pid pgid : Int} {background : Bool} {cmd : Text} (listed : ∃ proc ∈ table, proc.pid = pid)
    (run : procs.efork session fuel fresh pid background pgid cmd = some procs')
    {table' : Table} : ¬procs'.Represents table' := by
  rintro ⟨list', lists', -⟩
  obtain ⟨list, lists, rfl⟩ := represents
  obtain ⟨⟨b, made⟩, isMade, run⟩ := Option.bind_eq_some_iff.mp run
  obtain ⟨found, isFound, isMade⟩ := Option.bind_eq_some_iff.mp isMade
  cases found with
  | none =>
    have missing := (find_spec lists.chain isFound).symm
    rw [Option.map_eq_none_iff, List.find?_eq_none] at missing
    obtain ⟨proc, inside, isPid⟩ := listed
    obtain ⟨cell, member, rfl⟩ := List.mem_map.mp inside
    exact missing cell member (beq_iff_eq.mpr isPid)
  | some a =>
    obtain ⟨proc, member, -⟩ := lists.of_find isFound
    obtain ⟨next, prev, isCell⟩ := lists.chain.get member
    dsimp only at isMade
    rw [isCell] at isMade
    obtain ⟨isDead, isMade⟩ := Option.ite_none_left_eq_some.mp isMade
    obtain ⟨rfl, rfl⟩ := Prod.mk.inj (Option.some.inj isMade)
    obtain rfl := Option.some.inj run
    let made : Procs := ⟨Function.update procs.memory a
      (some ⟨next, none, mkProc session pid background proc.status cmd⟩), procs.proclist⟩
    let linked : Memory Nat Proc := (made.write a fun proc =>
      { proc with pgid := newPgid session pid pgid }).memory.setPrev procs.proclist (some a)
    have chain' : Chain linked none (some a) list' := lists'.chain
    have allocated' : ∀ b, (linked b).isSome → ∃ cell ∈ list', cell.1 = b := lists'.allocated
    have isLinked : ∀ b, linked b = (made.memory b).map fun c => { c with
        prev := if procs.proclist = some b then some a else c.prev
        data := if b = a then { c.data with pgid := newPgid session pid pgid } else c.data } := by
      intro b
      show Memory.setPrev _ _ _ b = _
      rw [Memory.setPrev_apply, write_memory]
      cases made.memory b <;> rfl
    cases list with
    | nil => cases member
    | cons head rest =>
      obtain ⟨isHead, after, isOld, -⟩ := id lists.chain
      by_cases same : head.1 = a
      · -- the head has become its own predecessor
        cases list' with
        | nil => cases chain'
        | cons first rest' =>
          obtain ⟨isFirst, next', isCell', -⟩ := chain'
          rw [← Option.some.inj isFirst, isLinked, isHead, same] at isCell'
          simp [made] at isCell'
      · -- the old head is still allocated, and nothing leads to it
        have unchanged : made.memory head.1 = procs.memory head.1 := Function.update_of_ne same ..
        have changed : made.memory a = some ⟨next, none, _⟩ := Function.update_self ..
        have isOld' := isLinked head.1
        have isCell' := isLinked a
        rw [unchanged, isOld, isHead, Option.map_some, if_pos rfl, if_neg same] at isOld'
        rw [changed, isHead, Option.map_some, if_neg fun isA => same (Option.some.inj isA),
          if_pos rfl] at isCell'
        obtain ⟨old, oldMember, isOldHead⟩ := allocated' head.1 (by rw [isOld']; rfl)
        obtain ⟨new, newMember, isNew⟩ := allocated' a (by rw [isCell']; rfl)
        obtain ⟨oldNext, oldPrev, isOldCell⟩ := chain'.get oldMember
        obtain ⟨newNext, newPrev, isNewCell⟩ := chain'.get newMember
        have forth := chain'.next_of_prev (fun _ _ isNone => by cases isNone) newMember oldMember
          isNewCell isOldCell
        rw [isOldHead, isOld'] at isOldCell
        rw [isNew, isCell'] at isNewCell
        obtain ⟨-, rfl, -⟩ := ListCell.mk.inj (Option.some.inj isOldCell)
        obtain ⟨rfl, -, -⟩ := ListCell.mk.inj (Option.some.inj isNewCell)
        rw [isNew, isOldHead] at forth
        obtain ⟨data, next', -, again⟩ := (lists.chain.links member isCell).2 _ (forth rfl)
        cases (ListCell.mk.inj (Option.some.inj (isOld.symm.trans again))).2.1

/-- In a run in which no fork is given the number of a process still on the list, the list is
well formed after every step, and it has every process forked and not yet freed exactly once. -/
theorem represents_run {ops : List ProcOp}
    (fresh : ∀ earlier op later, ops = earlier ++ op :: later →
      ¬Recycles (Table.run session earlier []) op)
    (run : Procs.initial.run session fuel ops = some procs') :
    procs'.Represents (Table.run session ops []) := by
  induction ops using List.reverseRecOn generalizing procs' with
  | nil =>
    obtain rfl := Option.some.inj run
    exact Represents.initial
  | append_singleton ops op inductionHypothesis =>
    rw [Procs.run, List.foldlM_append] at run
    obtain ⟨between, before, last⟩ := Option.bind_eq_some_iff.mp run
    have kept := inductionHypothesis (fun earlier op' later split =>
      fresh earlier op' (later ++ [op]) (by rw [split, List.append_assoc]; rfl)) before
    rw [Table.run, List.foldl_append]
    refine kept.step ?_ (by simpa using last)
    rintro fresh' pid background pgid cmd rfl proc member same
    exact fresh ops _ [] rfl ⟨proc, member, same⟩

/-- The process list is right after every step of a run exactly if no fork is given the number of
a process that is still on the list. -/
theorem represents_run_iff {ops : List ProcOp}
    (run : Procs.initial.run session fuel ops = some procs') :
    (∀ earlier later state, ops = earlier ++ later →
        Procs.initial.run session fuel earlier = some state →
        state.Represents (Table.run session earlier [])) ↔
      ∀ earlier op later, ops = earlier ++ op :: later →
        ¬Recycles (Table.run session earlier []) op := by
  constructor
  · rintro right earlier op later rfl recycles
    rw [Procs.run, List.foldlM_append] at run
    obtain ⟨between, before, rest⟩ := Option.bind_eq_some_iff.mp run
    rw [List.foldlM_cons] at rest
    obtain ⟨after, step, -⟩ := Option.bind_eq_some_iff.mp rest
    have represents := right earlier (op :: later) between rfl before
    have stepped : Procs.initial.run session fuel (earlier ++ [op]) = some after := by
      rw [Procs.run, List.foldlM_append, before]
      simpa using step
    have represents' := right (earlier ++ [op]) later after (by rw [List.append_assoc]; rfl) stepped
    cases op with
    | efork fresh pid background pgid cmd =>
      exact represents.efork_recycled recycles step represents'
    | _ => exact recycles
  · rintro fresh earlier later state rfl before
    refine represents_run (fun first op rest split => ?_) before
    exact fresh first op (rest ++ later) (by rw [split, List.append_assoc]; rfl)

/-- An interactive shell, which keeps dead processes until they are freed. -/
def interactive : Session := ⟨true, true, 100⟩

/-- A job that has ended and one in the background. -/
def twoJobs : List ProcOp :=
  [.efork 0 10 false 0 (lit "cc a.c"), .ewait 10 (fun _ => none) [.ended 10 0],
    .efork 1 11 true 0 (lit "sleep 60")]

/-- In a run without recycled numbers the list is right all the time. -/
theorem represents_run_twoJobs :
    (∀ earlier later state, twoJobs = earlier ++ later →
        Procs.initial.run interactive 4 earlier = some state →
        state.Represents (Table.run interactive earlier [])) ↔
      ∀ earlier op later, twoJobs = earlier ++ op :: later →
        ¬Recycles (Table.run interactive earlier []) op :=
  represents_run_iff (Option.some_get (show (Procs.initial.run interactive 4 twoJobs).isSome from
    by decide +kernel)).symm

/-- A third job is given the number of the first one. -/
def recycledJob : List ProcOp := twoJobs ++ [.efork 2 10 false 0 (lit "cc b.c")]

/-- The job in the background is not on the list any more. -/
theorem not_represents_recycledJob :
    ∃ state, Procs.initial.run interactive 4 recycledJob = some state ∧
      find (fun proc => proc.pid == 11) state.memory 4 state.proclist = some none ∧
      ((Table.run interactive recycledJob []).any fun proc => proc.pid == 11 && proc.alive) = true ∧
      ¬state.Represents (Table.run interactive recycledJob []) := by
  have lost : (Procs.initial.run interactive 4 recycledJob).bind (fun state =>
      find (fun proc => proc.pid == 11) state.memory 4 state.proclist) = some none := by
    decide +kernel
  obtain ⟨state, run, notFound⟩ := Option.bind_eq_some_iff.mp lost
  have listed : ((Table.run interactive recycledJob []).any fun proc =>
      proc.pid == 11 && proc.alive) = true := by decide +kernel
  refine ⟨state, run, notFound, listed, ?_⟩
  rintro ⟨list, lists, isTable⟩
  have missing := (find_spec lists.chain notFound).symm
  rw [Option.map_eq_none_iff, List.find?_eq_none] at missing
  rw [← isTable, List.any_map, List.any_eq_true] at listed
  obtain ⟨cell, member, isJob⟩ := listed
  exact missing cell member (Bool.and_eq_true_iff.mp isJob).1

end Procs

end Desh
