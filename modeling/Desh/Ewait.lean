/-
This file sets the process list against the kernel that runs the processes, and
says what `ewait` returns. A child is collected either by the sweep
`donotwait`, which only writes its status down, or by the loop, which also keeps
it to return it; so the loop has to run. That a wait for a process alive on the
list finds its child is the invariant of the two.
-/

import Desh.Proclist

namespace Desh

/-! ### The kernel -/

/-- A child as the kernel knows it, also after it has been collected. -/
inductive Child where
  | running
  | stopped (status : Int) (reported : Bool)
  | exited (status : Int)
  | reaped (status : Int)
  deriving DecidableEq

/-- Children by their numbers. -/
abbrev Kernel := Int → Option Child

/-- What happens while the shell does other things, or waits; the last is a signal that the shell
catches. -/
inductive KernelEvent where
  | exits (pid status : Int)
  | stops (pid status : Int)
  | continues (pid : Int)
  | interrupts
  deriving DecidableEq

/-- What an event makes of the child it is about. -/
def Child.after : KernelEvent → Child → Child
  | .exits _ status, .running | .exits _ status, .stopped .. => .exited status
  | .stops _ status, .running => .stopped status false
  | .continues _, .stopped .. => .running
  | _, child => child

namespace Kernel

def happen (kernel : Kernel) (event : KernelEvent) : Kernel :=
  match event with
  | .exits pid _ | .stops pid _ | .continues pid =>
      Function.update kernel pid ((kernel pid).map (Child.after event))
  | .interrupts => kernel

/-- What `waitpid` returns for one child, but for its number. -/
inductive Report where
  | error
  | stopped (status : Int)
  | ended (status : Int)
  deriving DecidableEq

/-- What `waitpid` with `WUNTRACED` has to report at once, and what is known afterwards. -/
def report (pid : Int) (kernel : Kernel) : Option (Report × Kernel) :=
  match kernel pid with
  | some (.exited status) =>
      some (.ended status, Function.update kernel pid (some (.reaped status)))
  | some (.stopped status false) =>
      some (.stopped status, Function.update kernel pid (some (.stopped status true)))
  | some .running | some (.stopped _ true) => none
  | some (.reaped _) | none => some (.error, kernel)

/-- `waitpid` with `WUNTRACED`, over the events until it returns; with the events that are left. -/
def waitpid (pid : Int) : List KernelEvent → Kernel → Option (Report × Kernel × List KernelEvent)
  | [], kernel => (kernel.report pid).map fun (result, kernel) => (result, kernel, [])
  | event :: events, kernel =>
      if event = .interrupts then some (.error, kernel, events)
      else
        match kernel.report pid with
        | some (result, kernel) => some (result, kernel, event :: events)
        | none => waitpid pid events (kernel.happen event)

/-- What `waitpid` with `WNOHANG` reports, where no signal interrupts it: the status of a child
that has exited. -/
def exited (kernel : Kernel) (swept : Int → Bool) (pid : Int) : Option Int :=
  if swept pid then
    match kernel pid with
    | some (.exited status) => some status
    | _ => none
  else none

/-- A child that the kernel still keeps for the shell. -/
def Unreaped (kernel : Kernel) (pid : Int) : Prop :=
  ∃ child, kernel pid = some child ∧ ∀ status, child ≠ .reaped status

end Kernel

/-! ### The shell and the kernel -/

/-- The process list and the children. -/
structure Jobs where
  procs : Procs
  kernel : Kernel

/-- How `ewait` ends: it returns `wstatus`, which may be unset, or it raises an exception, or it
follows a null pointer. -/
inductive Ewaited where
  | returns (wstatus : Option Int)
  | fails
  | followsNull
  deriving DecidableEq

/-- A process that `donotwait` asks for. -/
def Proc.isSwept (pid : Int) (proc : Proc) : Bool :=
  proc.pid == pid && proc.alive && proc.background

namespace Jobs

/-- `donotwait`, which collects the children it is told of. -/
def donotwait (fuel : Nat) (swept : Int → Bool) (jobs : Jobs) : Option Jobs := do
  let exited := jobs.kernel.exited swept
  let procs ← jobs.procs.donotwait exited fuel
  let asked (pid : Int) : Bool :=
    match Procs.find (Proc.isSwept pid) jobs.procs.memory fuel jobs.procs.proclist with
    | some (some _) => true
    | _ => false
  some { procs, kernel := fun pid =>
    match exited pid with
    | some status => if asked pid then some (.reaped status) else jobs.kernel pid
    | none => jobs.kernel pid }

/-- The loop of `ewait` for a process number, so that `waitpid` returns this number; with the
value of `wstatus`. -/
def ewaitLoop (fuel : Nat) (pid : Int) : Nat → List KernelEvent → Option Int → Jobs →
    Option (Ewaited × Jobs)
  | 0, _, _, _ => none
  | rounds + 1, events, wstatus, jobs => do
      let some _ ← jobs.procs.getproc pid false fuel | some (.returns wstatus, jobs)
      let (result, kernel, events) ← jobs.kernel.waitpid pid events
      match result with
      | .error => some (.fails, { jobs with kernel })
      | .stopped status =>
          let some a ← jobs.procs.getproc pid false fuel
            | some (.followsNull, { jobs with kernel })
          some (.returns (some status), { procs := jobs.procs.write a Proc.stop, kernel })
      | .ended status =>
          let some a ← jobs.procs.getproc pid false fuel
            | some (.followsNull, { jobs with kernel })
          ewaitLoop fuel pid rounds events (some status)
            { procs := jobs.procs.write a (Proc.finish status), kernel }

/-- `ewait`. -/
def ewait (session : Session) (fuel : Nat) (pid : Int) (swept : Int → Bool)
    (events : List KernelEvent) (jobs : Jobs) : Option (Ewaited × Jobs) := do
  let jobs ← jobs.donotwait fuel swept
  let (outcome, jobs) ← ewaitLoop fuel pid fuel events none jobs
  match outcome with
  | .returns wstatus =>
      if session.isinteractive then some (.returns wstatus, jobs)
      else
        let procs ← jobs.procs.cleanproclist fuel
        some (.returns wstatus, { jobs with procs })
  | outcome => some (outcome, jobs)

/-- The steps of the shell and the kernel. -/
inductive Op where
  | happens (event : KernelEvent)
  | efork (fresh : Nat) (pid : Int) (background : Bool) (pgid : Int) (cmd : Text)
  | donotwait (swept : Int → Bool)
  | ewait (pid : Int) (swept : Int → Bool) (events : List KernelEvent)
  | cleanproclist
  | procfree (pid : Int) (status : Option Int)

/-- A step. The number `fork` returns is of no child that is kept, and no process group has a
negative number. -/
def step (session : Session) (fuel : Nat) (jobs : Jobs) : Op → Option Jobs
  | .happens event => some { jobs with kernel := jobs.kernel.happen event }
  | .efork fresh pid background pgid cmd =>
      let known : Bool :=
        match jobs.kernel pid with
        | none | some (.reaped _) => false
        | _ => true
      if 0 < pid ∧ 0 ≤ newPgid session pid pgid ∧ known = false then do
        let procs ← jobs.procs.efork session fuel fresh pid background pgid cmd
        some { procs, kernel := Function.update jobs.kernel pid (some .running) }
      else none
  | .donotwait swept => jobs.donotwait fuel swept
  | .ewait pid swept events =>
      if 0 < pid then (jobs.ewait session fuel pid swept events).map Prod.snd else none
  | .cleanproclist =>
      (jobs.procs.cleanproclist fuel).map fun procs => { jobs with procs }
  | .procfree pid status =>
      (jobs.procs.procfree fuel pid status).map fun procs => { jobs with procs }

def run (session : Session) (fuel : Nat) (ops : List Op) (jobs : Jobs) : Option Jobs :=
  ops.foldlM (step session fuel) jobs

/-- When the shell starts. -/
def initial : Jobs := ⟨Procs.initial, fun _ => none⟩

end Jobs

/-! ### Waiting -/

namespace Kernel

theorem Unreaped.happen {kernel : Kernel} {pid : Int} (unreaped : kernel.Unreaped pid)
    (event : KernelEvent) : (kernel.happen event).Unreaped pid := by
  obtain ⟨child, known, kept⟩ := unreaped
  have after : ∀ status, Child.after event child ≠ .reaped status := by
    intro status same
    cases child with
    | reaped found => exact kept found rfl
    | running => cases event <;> cases same
    | stopped => cases event <;> cases same
    | exited => cases event <;> cases same
  have updated : ∀ other, Kernel.Unreaped (Function.update kernel other
      ((kernel other).map (Child.after event))) pid := by
    intro other
    by_cases same : pid = other
    · subst same
      exact ⟨Child.after event child, by rw [Function.update_self, known]; rfl, after⟩
    · exact ⟨child, by rw [Function.update_of_ne same, known], kept⟩
  unfold Kernel.happen
  split
  · exact updated _
  · exact updated _
  · exact updated _
  · exact ⟨child, known, kept⟩

theorem Unreaped.update {kernel : Kernel} {pid other : Int} {child : Child}
    (unreaped : kernel.Unreaped pid) (kept : ∀ status, child ≠ .reaped status) :
    Kernel.Unreaped (Function.update kernel other (some child)) pid := by
  by_cases same : pid = other
  · subst same
    exact ⟨child, Function.update_self .., kept⟩
  · obtain ⟨found, known, keeps⟩ := unreaped
    exact ⟨found, by rw [Function.update_of_ne same, known], keeps⟩

/-- What a wait for a child has done: it has reported how the child ended or stopped, or failed
because of a signal or because there is no such child. Other children are kept. -/
structure Waits (kernel : Kernel) (pid : Int) (events : List KernelEvent) (result : Report)
    (after : Kernel) (left : List KernelEvent) : Prop where
  ended : ∀ status, result = .ended status → after pid = some (.reaped status)
  stopped : ∀ status, result = .stopped status → after pid = some (.stopped status true)
  error : result = .error → .interrupts ∈ events ∨ ¬kernel.Unreaped pid
  others : ∀ other, other ≠ pid → kernel.Unreaped other → after.Unreaped other
  kept : (∀ status, result ≠ .ended status) → kernel.Unreaped pid → after.Unreaped pid
  left : left ⊆ events

theorem report_waits {kernel after : Kernel} {pid : Int} {result : Report}
    (reported : kernel.report pid = some (result, after)) (events : List KernelEvent) :
    kernel.Waits pid events result after events := by
  have others : ∀ child other, other ≠ pid → kernel.Unreaped other →
      Kernel.Unreaped (Function.update kernel pid (some child)) other := by
    rintro child other differs ⟨found, known, kept⟩
    exact ⟨found, by rw [Function.update_of_ne differs, known], kept⟩
  unfold report at reported
  split at reported
  · cases reported
    refine ⟨?_, nofun, nofun, others _, fun unended => absurd rfl (unended _), fun _ => id⟩
    rintro _ ⟨⟩
    exact Function.update_self ..
  · cases reported
    refine ⟨nofun, ?_, nofun, others _, fun _ unreaped => unreaped.update nofun, fun _ => id⟩
    rintro _ ⟨⟩
    exact Function.update_self ..
  · cases reported
  · cases reported
  · rename_i status known
    cases reported
    refine ⟨nofun, nofun, fun _ => .inr ?_, fun _ _ => id, fun _ => id, fun _ => id⟩
    rintro ⟨child, found, kept⟩
    exact kept status (Option.some.inj (found.symm.trans known))
  · rename_i known
    cases reported
    refine ⟨nofun, nofun, fun _ => .inr ?_, fun _ _ => id, fun _ => id, fun _ => id⟩
    rintro ⟨child, found, -⟩
    cases found.symm.trans known

theorem waitpid_waits {kernel after : Kernel} {pid : Int} {events left : List KernelEvent}
    {result : Report} (waited : kernel.waitpid pid events = some (result, after, left)) :
    kernel.Waits pid events result after left := by
  induction events generalizing kernel with
  | nil =>
    obtain ⟨⟨result', after'⟩, reported, same⟩ := Option.map_eq_some_iff.mp waited
    cases same
    exact report_waits reported []
  | cons event events inductionHypothesis =>
    rw [waitpid] at waited
    split at waited
    · rename_i interrupts
      cases waited
      exact ⟨nofun, nofun, fun _ => .inl (interrupts ▸ List.mem_cons_self), fun _ _ => id,
        fun _ => id, List.subset_cons_self _ _⟩
    · split at waited
      · rename_i reported
        cases waited
        exact report_waits reported _
      · rename_i blocked
        have rest := inductionHypothesis waited
        refine ⟨rest.ended, rest.stopped, fun failed => ?_, fun other differs unreaped =>
          rest.others other differs (unreaped.happen event), fun unended unreaped =>
            rest.kept unended (unreaped.happen event), fun _ member =>
              List.mem_cons_of_mem _ (rest.left member)⟩
        rcases rest.error failed with interrupted | gone
        · exact .inl (List.mem_cons_of_mem _ interrupted)
        · exact .inr fun unreaped => gone (unreaped.happen event)

end Kernel

/-! ### The list between the waits -/

/-- A change that leaves numbers and groups alone and brings no process to life. -/
def Proc.Fades (f : Proc → Proc) : Prop :=
  ∀ proc, (f proc).pid = proc.pid ∧ (f proc).pgid = proc.pgid ∧
    ((f proc).alive = true → proc.alive = true)

theorem Proc.fades_stop : Proc.Fades Proc.stop := fun _ => ⟨rfl, rfl, id⟩

theorem Proc.fades_finish (status : Int) : Proc.Fades (Proc.finish status) :=
  fun _ => ⟨rfl, rfl, nofun⟩

theorem Proc.fades_reap (exited : Int → Option Int) : Proc.Fades (Proc.reap exited) := by
  intro proc
  unfold Proc.reap
  split
  · split
    · exact ⟨rfl, rfl, nofun⟩
    · exact ⟨rfl, rfl, id⟩
  · exact ⟨rfl, rfl, id⟩

namespace Procs

/-- Every process was there before, with its number and group, and alive if it is. -/
def Lesser (new old : Procs) : Prop :=
  ∀ a cell, new.memory a = some cell → ∃ before, old.memory a = some before ∧
    cell.data.pid = before.data.pid ∧ cell.data.pgid = before.data.pgid ∧
      (cell.data.alive = true → before.data.alive = true)

theorem Lesser.refl (procs : Procs) : procs.Lesser procs :=
  fun _ cell found => ⟨cell, found, rfl, rfl, id⟩

theorem Lesser.trans {first second third : Procs} (later : third.Lesser second)
    (earlier : second.Lesser first) : third.Lesser first := by
  intro a cell found
  obtain ⟨middle, known, pid, pgid, alive⟩ := later a cell found
  obtain ⟨before, there, pid', pgid', alive'⟩ := earlier a middle known
  exact ⟨before, there, pid.trans pid', pgid.trans pgid', alive' ∘ alive⟩

theorem lesser_write (procs : Procs) (a : Nat) {f : Proc → Proc} (fades : Proc.Fades f) :
    (procs.write a f).Lesser procs := by
  intro b cell found
  rw [write_memory] at found
  obtain ⟨before, there, rfl⟩ := Option.map_eq_some_iff.mp found
  refine ⟨before, there, ?_⟩
  dsimp only
  split
  · exact fades before.data
  · exact ⟨rfl, rfl, id⟩

theorem lesser_unlinkproc {procs procs' : Procs} {a : Nat}
    (unlinked : procs.unlinkproc a = some procs') : procs'.Lesser procs := by
  obtain ⟨cell, there, rfl⟩ := Option.map_eq_some_iff.mp unlinked
  intro b found known
  dsimp only at known
  by_cases same : b = a
  · rw [same, Function.update_self] at known
    cases known
  · rw [Function.update_of_ne same, Memory.setNext_apply, Memory.setPrev_apply] at known
    obtain ⟨middle, between, rfl⟩ := Option.map_eq_some_iff.mp known
    obtain ⟨before, first, rfl⟩ := Option.map_eq_some_iff.mp between
    exact ⟨before, first, rfl, rfl, id⟩

theorem lesser_cleanproclistLoop {fuel : Nat} {start : Option Nat} {procs procs' : Procs}
    (cleaned : cleanproclistLoop fuel start procs = some procs') : procs'.Lesser procs := by
  induction fuel generalizing start procs with
  | zero => cases cleaned
  | succ fuel inductionHypothesis =>
    cases start with
    | none =>
      cases cleaned
      exact Lesser.refl _
    | some a =>
      rw [cleanproclistLoop, Option.bind_eq_bind] at cleaned
      obtain ⟨cell, there, rest⟩ := Option.bind_eq_some_iff.mp cleaned
      dsimp only at rest
      split at rest
      · exact inductionHypothesis rest
      · obtain ⟨middle, unlinked, loop⟩ := Option.bind_eq_some_iff.mp rest
        exact (inductionHypothesis loop).trans (lesser_unlinkproc unlinked)

theorem lesser_procfree {fuel : Nat} {pid : Int} {status : Option Int} {procs procs' : Procs}
    (freed : procs.procfree fuel pid status = some procs') : procs'.Lesser procs := by
  unfold procfree at freed
  rw [Option.bind_eq_bind] at freed
  obtain ⟨found, -, rest⟩ := Option.bind_eq_some_iff.mp freed
  cases found with
  | none =>
    cases rest
    exact Lesser.refl procs
  | some a =>
    exact (lesser_unlinkproc rest).trans
      (lesser_write procs a fun _ => ⟨rfl, rfl, id⟩)

theorem find_some {kind : Proc → Bool} {memory : Memory Nat Proc} {fuel : Nat}
    {start : Option Nat} {a : Nat} (found : find kind memory fuel start = some (some a)) :
    ∃ cell, memory a = some cell ∧ kind cell.data = true := by
  induction fuel generalizing start with
  | zero => cases found
  | succ fuel inductionHypothesis =>
    cases start with
    | none => cases found
    | some b =>
      rw [find] at found
      obtain ⟨cell, there, rest⟩ := Option.bind_eq_some_iff.mp found
      split at rest
      · rename_i isKind
        cases rest
        exact ⟨cell, there, isKind⟩
      · exact inductionHypothesis rest

/-- The search sees only the links and which processes are of the kind. -/
theorem find_congr {kind kind' : Proc → Bool} {memory memory' : Memory Nat Proc}
    (same : ∀ a, (memory' a).map (fun cell => (kind' cell.data, cell.next)) =
      (memory a).map fun cell => (kind cell.data, cell.next)) (fuel : Nat) (start : Option Nat) :
    find kind' memory' fuel start = find kind memory fuel start := by
  induction fuel generalizing start with
  | zero => rfl
  | succ fuel inductionHypothesis =>
    cases start with
    | none => rfl
    | some a =>
      rw [find, find]
      have here := same a
      cases first : memory a with
      | none =>
        rw [first, Option.map_none, Option.map_eq_none_iff] at here
        rw [here, Option.bind_none, Option.bind_none]
      | some cell =>
        rw [first, Option.map_some] at here
        obtain ⟨cell', there, both⟩ := Option.map_eq_some_iff.mp here
        obtain ⟨kinds, links⟩ := Prod.mk.inj both
        rw [there, Option.bind_some, Option.bind_some, kinds, links, inductionHypothesis]

theorem reap_reap (exited : Int → Option Int) (proc : Proc) :
    (proc.reap exited).reap exited = proc.reap exited := by
  unfold Proc.reap
  by_cases swept : (proc.alive && proc.background) = true
  · rw [if_pos swept]
    cases found : exited proc.pid with
    | none =>
      dsimp only
      rw [if_pos swept, found]
    | some status => rfl
  · rw [if_neg swept, if_neg swept]

/-- What the sweep makes of a cell. -/
def reapCell (exited : Int → Option Int) (cell : ListCell Nat Proc) : ListCell Nat Proc :=
  { cell with data := cell.data.reap exited }

theorem write_reap (exited : Int → Option Int) (procs : Procs) (a b : Nat) :
    (procs.write a (Proc.reap exited)).memory b =
      if b = a then (procs.memory b).map (reapCell exited) else procs.memory b := by
  rw [write_memory]
  split
  · rfl
  · exact Option.map_id'

theorem map_reapCell (exited : Int → Option Int) (cell : Option (ListCell Nat Proc)) :
    (cell.map (reapCell exited)).map (reapCell exited) = cell.map (reapCell exited) := by
  cases cell with
  | none => rfl
  | some cell => simp only [Option.map_some, reapCell, reap_reap]

section

variable {exited : Int → Option Int} {fuel : Nat} {start : Option Nat} {procs procs' : Procs}

/-- The sweep leaves each process as it is, or writes down that it has exited. -/
theorem donotwaitLoop_memory (swept : donotwaitLoop exited fuel start procs = some procs') :
    procs'.proclist = procs.proclist ∧ ∀ a, procs'.memory a = procs.memory a ∨
      procs'.memory a = (procs.memory a).map (reapCell exited) := by
  induction fuel generalizing start procs with
  | zero => cases swept
  | succ fuel inductionHypothesis =>
    cases start with
    | none =>
      cases swept
      exact ⟨rfl, fun _ => .inl rfl⟩
    | some b =>
      rw [donotwaitLoop, Option.bind_eq_bind] at swept
      obtain ⟨cell, -, loop⟩ := Option.bind_eq_some_iff.mp swept
      obtain ⟨head, each⟩ := inductionHypothesis loop
      refine ⟨head, fun a => ?_⟩
      have rest := each a
      rw [write_reap] at rest
      by_cases same : a = b
      · rw [if_pos same, map_reapCell] at rest
        exact .inr (rest.elim id id)
      · rwa [if_neg same] at rest

/-- A search of the list after the sweep. -/
theorem find_donotwaitLoop (kind : Proc → Bool)
    (swept : donotwaitLoop exited fuel start procs = some procs') :
    find kind procs'.memory fuel start =
      find (fun proc => kind (proc.reap exited)) procs.memory fuel start := by
  induction fuel generalizing start procs with
  | zero => cases swept
  | succ fuel inductionHypothesis =>
    cases start with
    | none => rfl
    | some a =>
      rw [donotwaitLoop, Option.bind_eq_bind] at swept
      obtain ⟨cell, there, loop⟩ := Option.bind_eq_some_iff.mp swept
      have after : procs'.memory a = some (reapCell exited cell) := by
        have here := (donotwaitLoop_memory loop).2 a
        rw [write_reap, if_pos rfl, map_reapCell, there] at here
        exact here.elim id id
      have earlier : find (fun proc => kind (proc.reap exited))
          (procs.write a (Proc.reap exited)).memory fuel cell.next =
            find (fun proc => kind (proc.reap exited)) procs.memory fuel cell.next := by
        refine find_congr (fun b => ?_) fuel cell.next
        rw [write_reap]
        split
        · rw [Option.map_map]
          refine congrArg (fun f => (procs.memory b).map f) (funext fun cell => ?_)
          exact congrArg (fun proc => (kind proc, cell.next)) (reap_reap exited cell.data)
        · rfl
      rw [find, find, after, there, Option.bind_some, Option.bind_some]
      exact congrArg (fun rest => if kind (cell.data.reap exited) then some (some a) else rest)
        ((inductionHypothesis loop).trans earlier)

/-- The sweep comes to each process that a search finds, if it does not bring any to the kind. -/
theorem donotwaitLoop_found {kind : Proc → Bool} {a : Nat}
    (fades : ∀ proc, kind (proc.reap exited) = true → kind proc = true)
    (swept : donotwaitLoop exited fuel start procs = some procs')
    (found : find kind procs.memory fuel start = some (some a)) :
    procs'.memory a = (procs.memory a).map (reapCell exited) := by
  induction fuel generalizing start procs with
  | zero => cases swept
  | succ fuel inductionHypothesis =>
    cases start with
    | none => cases found
    | some b =>
      rw [donotwaitLoop, Option.bind_eq_bind] at swept
      obtain ⟨cell, there, loop⟩ := Option.bind_eq_some_iff.mp swept
      rw [find, there, Option.bind_some] at found
      by_cases isKind : kind cell.data = true
      · rw [if_pos isKind] at found
        cases found
        have here := (donotwaitLoop_memory loop).2 a
        rw [write_reap, if_pos rfl, map_reapCell] at here
        exact here.elim id id
      · rw [if_neg isKind] at found
        have earlier : find kind (procs.write b (Proc.reap exited)).memory fuel cell.next =
            find kind procs.memory fuel cell.next := by
          refine find_congr (fun c => ?_) fuel cell.next
          rw [write_reap]
          split
          · rename_i same
            have other : kind (cell.data.reap exited) = false :=
              Bool.eq_false_iff.mpr fun isReaped => isKind (fades _ isReaped)
            rw [same, there]
            simp only [Option.map_some, reapCell, other, Bool.eq_false_iff.mpr isKind]
          · rfl
        rw [inductionHypothesis loop (earlier.trans found), write_reap]
        split
        · exact map_reapCell exited _
        · rfl

end

theorem lesser_donotwait {exited : Int → Option Int} {fuel : Nat} {procs procs' : Procs}
    (swept : procs.donotwait exited fuel = some procs') : procs'.Lesser procs := by
  intro a cell found
  rcases (donotwaitLoop_memory swept).2 a with same | same
  · exact ⟨cell, same ▸ found, rfl, rfl, id⟩
  · rw [same] at found
    obtain ⟨before, there, rfl⟩ := Option.map_eq_some_iff.mp found
    exact ⟨before, there, Proc.fades_reap exited before.data⟩

theorem efork_memory {session : Session} {fuel fresh : Nat} {pid pgid : Int} {background : Bool}
    {cmd : Text} {procs procs' : Procs}
    (forked : procs.efork session fuel fresh pid background pgid cmd = some procs') :
    ∃ a, ∀ b cell, procs'.memory b = some cell →
      (b = a ∧ cell.data.pid = pid ∧ cell.data.pgid = newPgid session pid pgid) ∨
        b ≠ a ∧ ∃ before, procs.memory b = some before ∧ cell.data = before.data := by
  obtain ⟨⟨a, made⟩, isMade, linked⟩ := Option.bind_eq_some_iff.mp forked
  obtain rfl := Option.some.inj linked
  have new : ∃ next status, made.memory = Function.update procs.memory a
      (some ⟨next, none, mkProc session pid background status cmd⟩) := by
    obtain ⟨found, -, isMade⟩ := Option.bind_eq_some_iff.mp isMade
    cases found with
    | none =>
      dsimp only at isMade
      split at isMade
      · cases isMade
      · obtain ⟨rfl, rfl⟩ := Prod.mk.inj (Option.some.inj isMade)
        exact ⟨_, _, rfl⟩
    | some c =>
      obtain ⟨cell, -, isMade⟩ := Option.bind_eq_some_iff.mp isMade
      obtain ⟨-, isMade⟩ := Option.ite_none_left_eq_some.mp isMade
      obtain ⟨rfl, rfl⟩ := Prod.mk.inj (Option.some.inj isMade)
      exact ⟨_, _, rfl⟩
  obtain ⟨next, status, isNew⟩ := new
  refine ⟨a, fun b cell found => ?_⟩
  dsimp only at found
  rw [Memory.setPrev_apply, write_memory, isNew] at found
  by_cases same : b = a
  · rw [same, Function.update_self] at found
    obtain rfl := Option.some.inj found
    exact .inl ⟨same, by simp [mkProc]⟩
  · rw [Function.update_of_ne same] at found
    obtain ⟨middle, between, rfl⟩ := Option.map_eq_some_iff.mp found
    obtain ⟨before, there, rfl⟩ := Option.map_eq_some_iff.mp between
    exact .inr ⟨same, before, there, if_neg same⟩

/-- A search for fewer processes that stops at the first of more. -/
theorem find_of_sub {kind kind' : Proc → Bool} {memory : Memory Nat Proc} {fuel a : Nat}
    {start : Option Nat} {cell : ListCell Nat Proc}
    (fewer : ∀ proc, kind' proc = true → kind proc = true) (there : memory a = some cell)
    (isKind : kind' cell.data = true) (found : find kind memory fuel start = some (some a)) :
    find kind' memory fuel start = some (some a) := by
  induction fuel generalizing start with
  | zero => cases found
  | succ fuel inductionHypothesis =>
    cases start with
    | none => cases found
    | some b =>
      rw [find] at found ⊢
      obtain ⟨first, here, rest⟩ := Option.bind_eq_some_iff.mp found
      rw [here, Option.bind_some]
      split at rest
      · obtain rfl : b = a := Option.some.inj (Option.some.inj rest)
        obtain rfl : first = cell := Option.some.inj (here.symm.trans there)
        exact if_pos isKind
      · rename_i other
        rw [if_neg fun isKind' => other (fewer _ isKind')]
        exact inductionHypothesis rest

theorem find_of_more {kind kind' : Proc → Bool} {memory : Memory Nat Proc} {fuel a : Nat}
    {start : Option Nat} (fewer : ∀ proc, kind' proc = true → kind proc = true)
    (found : find kind' memory fuel start = some (some a)) :
    ∃ b, find kind memory fuel start = some (some b) := by
  induction fuel generalizing start with
  | zero => cases found
  | succ fuel inductionHypothesis =>
    cases start with
    | none => cases found
    | some b =>
      rw [find] at found ⊢
      obtain ⟨first, here, rest⟩ := Option.bind_eq_some_iff.mp found
      rw [here, Option.bind_some]
      split
      · exact ⟨b, rfl⟩
      · rename_i other
        rw [if_neg fun isKind' => other (fewer _ isKind')] at rest
        exact inductionHypothesis rest

end Procs

/-! ### What holds at every moment -/

theorem Proc.isAwaited_pid {pid : Int} {proc : Proc} (positive : 0 < pid) (group : 0 ≤ proc.pgid) :
    proc.isAwaited pid false = true ↔ proc.pid = pid ∧ proc.alive = true := by
  have notGroup : -pid ≠ proc.pgid := by omega
  have notAny : pid ≠ 0 := by omega
  simp [Proc.isAwaited, notGroup, notAny, @eq_comm _ pid]

namespace Jobs

/-- What the list and the kernel have to do with each other: a process that is alive on the list
has not been collected. -/
structure Inv (jobs : Jobs) : Prop where
  unreaped : ∀ a cell, jobs.procs.memory a = some cell → cell.data.alive = true →
    jobs.kernel.Unreaped cell.data.pid
  distinct : ∀ a b cell other, jobs.procs.memory a = some cell → jobs.procs.memory b = some other →
    cell.data.alive = true → other.data.alive = true → cell.data.pid = other.data.pid → a = b
  group : ∀ a cell, jobs.procs.memory a = some cell → 0 ≤ cell.data.pgid

theorem Inv.initial : Jobs.initial.Inv := by
  have empty : ∀ a cell, Jobs.initial.procs.memory a ≠ some cell := fun _ _ found =>
    Option.some_ne_none _ found.symm
  exact ⟨fun a cell found => absurd found (empty a cell),
    fun a _ cell _ found => absurd found (empty a cell),
    fun a cell found => absurd found (empty a cell)⟩

/-- The list may lose processes; the kernel has to keep those that are alive. -/
theorem Inv.of_lesser {jobs : Jobs} {procs : Procs} {kernel : Kernel} (inv : jobs.Inv)
    (lesser : procs.Lesser jobs.procs)
    (kept : ∀ a cell, procs.memory a = some cell → cell.data.alive = true →
      jobs.kernel.Unreaped cell.data.pid → kernel.Unreaped cell.data.pid) :
    Inv ⟨procs, kernel⟩ where
  unreaped a cell found alive := by
    obtain ⟨before, there, pid, -, lives⟩ := lesser a cell found
    exact kept a cell found alive (pid ▸ inv.unreaped a before there (lives alive))
  distinct a b cell other found otherFound alive otherAlive same := by
    obtain ⟨before, there, pid, -, lives⟩ := lesser a cell found
    obtain ⟨before', there', pid', -, lives'⟩ := lesser b other otherFound
    exact inv.distinct a b before before' there there' (lives alive) (lives' otherAlive)
      (pid.symm.trans (same.trans pid'))
  group a cell found := by
    obtain ⟨before, there, -, pgid, -⟩ := lesser a cell found
    exact pgid ▸ inv.group a before there

variable {jobs jobs' : Jobs} {session : Session} {fuel : Nat} {pid : Int}

theorem Inv.happens (inv : jobs.Inv) (event : KernelEvent) :
    Inv { jobs with kernel := jobs.kernel.happen event } :=
  inv.of_lesser (Procs.Lesser.refl _) fun _ _ _ _ unreaped => unreaped.happen event

theorem Inv.procs {procs : Procs} (inv : jobs.Inv) (lesser : procs.Lesser jobs.procs) :
    Inv { jobs with procs } :=
  inv.of_lesser lesser fun _ _ _ _ => id

theorem Inv.efork {fresh : Nat} {pgid : Int} {background : Bool} {cmd : Text} {procs : Procs}
    (inv : jobs.Inv) (group : 0 ≤ newPgid session pid pgid) (free : ¬jobs.kernel.Unreaped pid)
    (forked : jobs.procs.efork session fuel fresh pid background pgid cmd = some procs) :
    Inv ⟨procs, Function.update jobs.kernel pid (some .running)⟩ := by
  obtain ⟨a, cells⟩ := Procs.efork_memory forked
  -- no process that was alive has the number of the new one
  have other : ∀ b before, jobs.procs.memory b = some before → before.data.alive = true →
      before.data.pid ≠ pid := fun b before there alive same =>
    free (same ▸ inv.unreaped b before there alive)
  refine ⟨fun b cell found alive => ?_, fun b c cell cell' found found' alive alive' same => ?_,
    fun b cell found => ?_⟩
  · rcases cells b cell found with ⟨-, isPid, -⟩ | ⟨-, before, there, data⟩
    · exact ⟨.running, by rw [isPid]; exact Function.update_self .., nofun⟩
    · rw [data] at alive ⊢
      exact (inv.unreaped b before there alive).update nofun
  · rcases cells b cell found with ⟨isNew, isPid, -⟩ | ⟨-, before, there, data⟩
    · rcases cells c cell' found' with ⟨isNew', -, -⟩ | ⟨-, before', there', data'⟩
      · rw [isNew, isNew']
      · rw [data'] at alive' same
        exact absurd (same.symm.trans isPid) (other c before' there' alive')
    · rcases cells c cell' found' with ⟨-, isPid', -⟩ | ⟨-, before', there', data'⟩
      · rw [data] at alive same
        exact absurd (same.trans isPid') (other b before there alive)
      · rw [data] at alive same
        rw [data'] at alive' same
        exact inv.distinct b c before before' there there' alive alive' same
  · rcases cells b cell found with ⟨-, -, isGroup⟩ | ⟨-, before, there, data⟩
    · rw [isGroup]
      exact group
    · rw [data]
      exact inv.group b before there

/-- Whom the sweep collects is dead on the list. -/
theorem Inv.donotwait {swept : Int → Bool} (inv : jobs.Inv)
    (ran : jobs.donotwait fuel swept = some jobs') : jobs'.Inv := by
  obtain ⟨procs, isSwept, same⟩ := Option.bind_eq_some_iff.mp ran
  obtain rfl := Option.some.inj same
  have lesser := Procs.lesser_donotwait isSwept
  refine inv.of_lesser lesser fun a cell found alive unreaped => ?_
  unfold Kernel.Unreaped
  dsimp only
  cases hasExited : jobs.kernel.exited swept cell.data.pid with
  | none => exact unreaped
  | some status =>
    dsimp only
    split
    · rename_i asked
      split at asked
      · rename_i b isFound
        obtain ⟨first, there, kind⟩ := Procs.find_some isFound
        obtain ⟨⟨samePid, firstAlive⟩, background⟩ :
            (first.data.pid = cell.data.pid ∧ first.data.alive = true) ∧
              first.data.background = true := by
          simpa [Proc.isSwept] using kind
        obtain ⟨before, was, pid, -, lives⟩ := lesser a cell found
        obtain rfl := inv.distinct a b before first was there (lives alive) firstAlive
          (pid.symm.trans samePid.symm)
        have fades : ∀ proc : Proc,
            (proc.reap (jobs.kernel.exited swept)).isSwept cell.data.pid = true →
              proc.isSwept cell.data.pid = true := by
          intro proc
          unfold Proc.reap
          split
          · split
            · simp [Proc.isSwept]
            · exact id
          · exact id
        have reaped := Procs.donotwaitLoop_found fades isSwept isFound
        rw [found, there, Option.map_some, Option.some.injEq] at reaped
        have dead : cell.data.alive = false := by
          rw [reaped, Procs.reapCell, Proc.reap, firstAlive, background]
          simp [samePid, hasExited]
        rw [alive] at dead
        cases dead
      · cases asked
    · exact unreaped

/-! ### What `ewait` returns -/

/-- A status with which a child has ended, or has stopped since it was last asked for. -/
def IsStatus (kernel : Kernel) (pid : Int) (wstatus : Option Int) : Prop :=
  ∃ status, wstatus = some status ∧
    (kernel pid = some (.reaped status) ∨ kernel pid = some (.stopped status true))

/-- A wait returns the status with which the child has ended or stopped, unless a signal has
interrupted it; no null pointer is followed. -/
def Reports (pid : Int) (events : List KernelEvent) : Ewaited × Jobs → Prop
  | (.returns wstatus, jobs) => IsStatus jobs.kernel pid wstatus
  | (.fails, _) => .interrupts ∈ events
  | (.followsNull, _) => False

theorem Reports.subset {events left : List KernelEvent} {result : Ewaited × Jobs}
    (reports : Reports pid left result) (subset : left ⊆ events) : Reports pid events result := by
  obtain ⟨outcome, jobs⟩ := result
  cases outcome with
  | returns wstatus => exact reports
  | fails => exact subset reports
  | followsNull => exact reports

/-- The process `getproc` finds for a number is alive and has this number. -/
theorem Inv.getproc (inv : jobs.Inv) (positive : 0 < pid) {a : Nat}
    (found : jobs.procs.getproc pid false fuel = some (some a)) :
    ∃ cell, jobs.procs.memory a = some cell ∧ cell.data.pid = pid ∧ cell.data.alive = true := by
  obtain ⟨cell, there, isAwaited⟩ := Procs.find_some found
  exact ⟨cell, there, (Proc.isAwaited_pid positive (inv.group a cell there)).mp isAwaited⟩

/-- A process that has ended is written down as dead, so the kernel need not keep it. -/
theorem Inv.finish {a : Nat} {cell : ListCell Nat Proc} {kernel : Kernel} (inv : jobs.Inv)
    (there : jobs.procs.memory a = some cell) (samePid : cell.data.pid = pid)
    (alive : cell.data.alive = true) (status : Int)
    (others : ∀ other, other ≠ pid → jobs.kernel.Unreaped other → kernel.Unreaped other) :
    Inv ⟨jobs.procs.write a (Proc.finish status), kernel⟩ := by
  have lesser := Procs.lesser_write jobs.procs a (Proc.fades_finish status)
  refine inv.of_lesser lesser fun b other found otherAlive unreaped => ?_
  refine others _ (fun same => ?_) unreaped
  obtain ⟨before, was, isPid, -, lives⟩ := lesser b other found
  obtain rfl := inv.distinct a b cell before there was alive (lives otherAlive)
    (samePid.trans (same.symm.trans isPid))
  rw [Procs.write_memory, there, Option.map_some, if_pos rfl] at found
  rw [← Option.some.inj found] at otherAlive
  cases otherAlive

/-- The loop keeps the invariant. Where it finds the process, or has the status of its child
already, it reports. -/
theorem Inv.ewaitLoop {rounds : Nat} {events : List KernelEvent} {wstatus : Option Int}
    {result : Ewaited × Jobs} (inv : jobs.Inv) (positive : 0 < pid)
    (ran : ewaitLoop fuel pid rounds events wstatus jobs = some result) :
    result.2.Inv ∧ ((∃ a, jobs.procs.getproc pid false fuel = some (some a)) ∨
      IsStatus jobs.kernel pid wstatus → Reports pid events result) := by
  induction rounds generalizing events wstatus jobs with
  | zero => cases ran
  | succ rounds inductionHypothesis =>
    unfold Jobs.ewaitLoop at ran
    obtain ⟨asked, isAsked, ran⟩ := Option.bind_eq_some_iff.mp ran
    cases asked with
    | none =>
      obtain rfl := Option.some.inj ran
      refine ⟨inv, ?_⟩
      rintro (⟨a, isFound⟩ | right)
      · cases isAsked.symm.trans isFound
      · exact right
    | some a =>
      obtain ⟨cell, there, samePid, alive⟩ := inv.getproc positive isAsked
      have unreaped : jobs.kernel.Unreaped pid := samePid ▸ inv.unreaped a cell there alive
      obtain ⟨⟨report, kernel, left⟩, waited, ran⟩ := Option.bind_eq_some_iff.mp ran
      have waits := Kernel.waitpid_waits waited
      -- as long as the child has not ended, the kernel keeps all it has kept
      have keeps : (∀ status, report ≠ .ended status) → ∀ other, jobs.kernel.Unreaped other →
          kernel.Unreaped other := by
        intro unended other unreapedOther
        by_cases same : other = pid
        · exact same ▸ waits.kept unended (same ▸ unreapedOther)
        · exact waits.others other same unreapedOther
      cases report with
      | error =>
        obtain rfl := Option.some.inj ran
        refine ⟨inv.of_lesser (Procs.Lesser.refl _) fun _ _ _ _ => keeps nofun _, fun _ => ?_⟩
        exact (waits.error rfl).resolve_right fun gone => gone unreaped
      | stopped status =>
        dsimp only at ran
        rw [isAsked] at ran
        obtain rfl := Option.some.inj ran
        refine ⟨inv.of_lesser (Procs.lesser_write _ a Proc.fades_stop) fun _ _ _ _ =>
          keeps nofun _, fun _ => ⟨status, rfl, .inr (waits.stopped status rfl)⟩⟩
      | ended status =>
        dsimp only at ran
        rw [isAsked] at ran
        have finished := inv.finish there samePid alive status waits.others
        obtain ⟨kept, reports⟩ := inductionHypothesis finished ran
        refine ⟨kept, fun _ => ?_⟩
        exact (reports (.inr ⟨status, rfl, .inl (waits.ended status rfl)⟩)).subset waits.left

/-- What `ewait` does around its loop. -/
theorem ewait_eq_some {swept : Int → Bool} {events : List KernelEvent} {outcome : Ewaited}
    (ran : jobs.ewait session fuel pid swept events = some (outcome, jobs')) :
    ∃ before after, jobs.donotwait fuel swept = some before ∧
      Jobs.ewaitLoop fuel pid fuel events none before = some (outcome, after) ∧
        after.kernel = jobs'.kernel ∧ jobs'.procs.Lesser after.procs := by
  obtain ⟨before, isSwept, ran⟩ := Option.bind_eq_some_iff.mp ran
  obtain ⟨⟨outcome', after⟩, looped, ran⟩ := Option.bind_eq_some_iff.mp ran
  have unchanged : some (outcome', after) = some (outcome, jobs') →
      outcome' = outcome ∧ after.kernel = jobs'.kernel ∧ jobs'.procs.Lesser after.procs := by
    intro same
    obtain ⟨rfl, rfl⟩ := Prod.mk.inj (Option.some.inj same)
    exact ⟨rfl, rfl, Procs.Lesser.refl _⟩
  have rest : outcome' = outcome ∧ after.kernel = jobs'.kernel ∧
      jobs'.procs.Lesser after.procs := by
    cases outcome' with
    | returns wstatus =>
      dsimp only at ran
      split at ran
      · exact unchanged ran
      · obtain ⟨procs, cleaned, ran⟩ := Option.bind_eq_some_iff.mp ran
        obtain ⟨rfl, rfl⟩ := Prod.mk.inj (Option.some.inj ran)
        exact ⟨rfl, rfl, Procs.lesser_cleanproclistLoop cleaned⟩
    | fails => exact unchanged ran
    | followsNull => exact unchanged ran
  obtain ⟨rfl, kernel, lesser⟩ := rest
  exact ⟨before, after, isSwept, looped, kernel, lesser⟩

theorem Inv.ewait {swept : Int → Bool} {events : List KernelEvent} {result : Ewaited × Jobs}
    (inv : jobs.Inv) (positive : 0 < pid)
    (ran : jobs.ewait session fuel pid swept events = some result) : result.2.Inv := by
  obtain ⟨before, after, isSwept, looped, kernel, lesser⟩ := ewait_eq_some ran
  have looped := ((inv.donotwait isSwept).ewaitLoop positive looped).1
  exact looped.of_lesser lesser fun _ _ _ _ unreaped => kernel ▸ unreaped

theorem Inv.step {op : Op} (inv : jobs.Inv) (ran : jobs.step session fuel op = some jobs') :
    jobs'.Inv := by
  cases op with
  | happens event =>
    obtain rfl := Option.some.inj ran
    exact inv.happens event
  | efork fresh pid background pgid cmd =>
    obtain ⟨⟨-, group, free⟩, ran⟩ := Option.ite_none_right_eq_some.mp ran
    obtain ⟨procs, forked, ran⟩ := Option.bind_eq_some_iff.mp ran
    obtain rfl := Option.some.inj ran
    refine inv.efork group ?_ forked
    rintro ⟨child, known, kept⟩
    rw [known] at free
    cases child with
    | reaped status => exact kept status rfl
    | running => cases free
    | stopped => cases free
    | exited => cases free
  | donotwait swept => exact inv.donotwait ran
  | ewait pid swept events =>
    obtain ⟨positive, ran⟩ := Option.ite_none_right_eq_some.mp ran
    obtain ⟨result, waited, rfl⟩ := Option.map_eq_some_iff.mp ran
    exact inv.ewait positive waited
  | cleanproclist =>
    obtain ⟨procs, cleaned, rfl⟩ := Option.map_eq_some_iff.mp ran
    exact inv.procs (Procs.lesser_cleanproclistLoop cleaned)
  | procfree pid status =>
    obtain ⟨procs, freed, rfl⟩ := Option.map_eq_some_iff.mp ran
    exact inv.procs (Procs.lesser_procfree freed)

theorem Inv.run {ops : List Op} (inv : jobs.Inv) (ran : jobs.run session fuel ops = some jobs') :
    jobs'.Inv := by
  induction ops generalizing jobs with
  | nil =>
    obtain rfl := Option.some.inj ran
    exact inv
  | cons op ops inductionHypothesis =>
    obtain ⟨between, stepped, rest⟩ := Option.bind_eq_some_iff.mp ran
    exact inductionHypothesis (inv.step stepped) rest

/-- An alive process with the number is on the list, and if it is one of those the sweep asks for,
it has not exited. -/
def Awaits (fuel : Nat) (pid : Int) (swept : Int → Bool) (jobs : Jobs) : Prop :=
  ∃ a cell, jobs.procs.getproc pid false fuel = some (some a) ∧
    jobs.procs.memory a = some cell ∧
    (cell.data.background = true → jobs.kernel.exited swept pid = none)

/-- The loop finds the process after the sweep if it was there before and has not been collected. -/
theorem Inv.awaits_iff {swept : Int → Bool} {before : Jobs} (inv : jobs.Inv) (positive : 0 < pid)
    (isSwept : jobs.donotwait fuel swept = some before) :
    (∃ a, before.procs.getproc pid false fuel = some (some a)) ↔ jobs.Awaits fuel pid swept := by
  obtain ⟨procs, loop, same⟩ := Option.bind_eq_some_iff.mp isSwept
  obtain rfl := Option.some.inj same
  have searched : procs.getproc pid false fuel = Procs.find (fun proc =>
      (proc.reap (jobs.kernel.exited swept)).isAwaited pid false) jobs.procs.memory fuel
        jobs.procs.proclist := by
    rw [Procs.getproc, (Procs.donotwaitLoop_memory loop).1]
    exact Procs.find_donotwaitLoop _ loop
  have fewer : ∀ proc : Proc, (proc.reap (jobs.kernel.exited swept)).isAwaited pid false = true →
      proc.isAwaited pid false = true := by
    intro proc
    unfold Proc.reap
    split
    · split
      · simp [Proc.isAwaited]
      · exact id
    · exact id
  have collected : ∀ proc : Proc, proc.pid = pid → 0 ≤ proc.pgid → proc.alive = true →
      ((proc.reap (jobs.kernel.exited swept)).isAwaited pid false = true ↔
        (proc.background = true → jobs.kernel.exited swept pid = none)) := by
    intro proc isPid group alive
    have fades := Proc.fades_reap (jobs.kernel.exited swept) proc
    rw [Proc.isAwaited_pid positive (fades.2.1 ▸ group), fades.1, Proc.reap, alive, isPid]
    cases proc.background <;> cases jobs.kernel.exited swept pid <;> simp [alive]
  dsimp only
  rw [searched]
  constructor
  · rintro ⟨a, found⟩
    obtain ⟨b, foundFirst⟩ := Procs.find_of_more fewer found
    obtain ⟨cell, there, isPid, alive⟩ := inv.getproc positive foundFirst
    obtain ⟨other, otherThere, isKind⟩ := Procs.find_some found
    obtain ⟨otherPid, otherAlive⟩ := (Proc.isAwaited_pid positive
      (inv.group a other otherThere)).mp (fewer _ isKind)
    obtain rfl := inv.distinct a b other cell otherThere there otherAlive alive
      (otherPid.trans isPid.symm)
    obtain rfl := Option.some.inj (there.symm.trans otherThere)
    exact ⟨a, cell, foundFirst, there,
      (collected cell.data isPid (inv.group a cell there) alive).mp isKind⟩
  · rintro ⟨a, cell, found, there, notCollected⟩
    obtain ⟨other, otherThere, isPid, alive⟩ := inv.getproc positive found
    obtain rfl := Option.some.inj (there.symm.trans otherThere)
    exact ⟨a, Procs.find_of_sub fewer there
      ((collected cell.data isPid (inv.group a cell there) alive).mpr notCollected) found⟩

end Jobs

/-! ### Where `ewait` returns -/

namespace Procs

variable {procs procs' : Procs} {fuel : Nat}

/-- The list is well formed and the fuel reaches its end. -/
def Ends (fuel : Nat) (procs : Procs) : Prop := ∃ list, procs.Lists list ∧ list.length < fuel

theorem find_isSome {kind : Proc → Bool} {memory : Memory Nat Proc} {before start : Option Nat}
    {list : List (Nat × Proc)} (chain : Chain memory before start list)
    (enough : list.length < fuel) : ∃ found, find kind memory fuel start = some found := by
  induction list generalizing fuel start before with
  | nil =>
    obtain rfl : start = none := chain
    obtain ⟨fuel, rfl⟩ := Nat.exists_eq_add_one.mpr enough
    exact ⟨none, rfl⟩
  | cons cell rest inductionHypothesis =>
    obtain ⟨rfl, next, isCell, tail⟩ := chain
    obtain ⟨fuel, rfl⟩ := Nat.exists_eq_add_one.mpr (Nat.zero_lt_of_lt enough)
    rw [find, isCell, Option.bind_some]
    split
    · exact ⟨_, rfl⟩
    · exact inductionHypothesis tail (Nat.lt_of_succ_lt_succ enough)

theorem Ends.getproc (ends : procs.Ends fuel) (pid : Int) :
    ∃ found, procs.getproc pid false fuel = some found := by
  obtain ⟨list, lists, enough⟩ := ends
  exact find_isSome lists.chain enough

theorem Ends.write (ends : procs.Ends fuel) (a : Nat) (f : Proc → Proc) :
    (procs.write a f).Ends fuel := by
  obtain ⟨list, lists, enough⟩ := ends
  exact ⟨_, lists.write a f, by rwa [written, List.length_map]⟩

theorem donotwaitLoop_isSome {exited : Int → Option Int} {start : Option Nat}
    (ends : find (fun _ => false) procs.memory fuel start = some none) :
    ∃ procs', donotwaitLoop exited fuel start procs = some procs' := by
  induction fuel generalizing start procs with
  | zero => cases ends
  | succ fuel inductionHypothesis =>
    cases start with
    | none => exact ⟨procs, rfl⟩
    | some a =>
      rw [find] at ends
      obtain ⟨cell, there, rest⟩ := Option.bind_eq_some_iff.mp ends
      rw [donotwaitLoop, there, Option.bind_eq_bind, Option.bind_some]
      refine inductionHypothesis ((find_congr (fun b => ?_) fuel cell.next).trans rest)
      rw [write_memory, Option.map_map]
      rfl

theorem Ends.donotwait (ends : procs.Ends fuel) (exited : Int → Option Int) :
    ∃ procs', procs.donotwait exited fuel = some procs' := by
  obtain ⟨list, lists, enough⟩ := ends
  obtain ⟨found, isFound⟩ := @find_isSome _ (fun _ => false) _ _ _ _ lists.chain enough
  cases found with
  | none => exact donotwaitLoop_isSome isFound
  | some a =>
    obtain ⟨cell, -, isKind⟩ := find_some isFound
    cases isKind

theorem Ends.of_donotwait {exited : Int → Option Int} (ends : procs.Ends fuel)
    (swept : procs.donotwait exited fuel = some procs') : procs'.Ends fuel := by
  obtain ⟨list, lists, enough⟩ := ends
  rw [Procs.donotwait, head_of_chain lists.chain] at swept
  refine ⟨_, @donotwaitLoop_spec _ _ _ [] _ _ lists swept, ?_⟩
  rwa [List.nil_append, List.length_map]

theorem cleanproclistLoop_isSome {front rest : List (Nat × Proc)}
    (lists : procs.Lists (front ++ rest)) (enough : rest.length < fuel) :
    ∃ procs', cleanproclistLoop fuel (rest.head?.map Prod.fst) procs = some procs' := by
  induction rest generalizing front fuel procs with
  | nil =>
    obtain ⟨fuel, rfl⟩ := Nat.exists_eq_add_one.mpr enough
    exact ⟨procs, rfl⟩
  | cons cell rest inductionHypothesis =>
    obtain ⟨fuel, rfl⟩ := Nat.exists_eq_add_one.mpr (Nat.zero_lt_of_lt enough)
    have enough' : rest.length < fuel := Nat.lt_of_succ_lt_succ enough
    obtain ⟨prev, found⟩ := lists.read rfl
    rw [List.head?_cons, Option.map_some, cleanproclistLoop, found, Option.bind_eq_bind,
      Option.bind_some]
    dsimp only
    split
    · rw [List.append_cons] at lists
      exact inductionHypothesis lists enough'
    · obtain ⟨between, unlinked⟩ : ∃ between, procs.unlinkproc cell.1 = some between := by
        rw [unlinkproc, found]
        exact ⟨_, rfl⟩
      have kept := lists.unlinkproc (List.mem_append_right _ List.mem_cons_self) unlinked
      rw [without_append _ _ _ lists.chain.nodup] at kept
      rw [unlinked]
      exact inductionHypothesis kept enough'

theorem Ends.cleanproclist (ends : procs.Ends fuel) :
    ∃ procs', procs.cleanproclist fuel = some procs' := by
  obtain ⟨list, lists, enough⟩ := ends
  rw [Procs.cleanproclist, head_of_chain lists.chain]
  exact @cleanproclistLoop_isSome _ _ [] _ lists enough

end Procs

namespace Kernel

theorem report_isSome {kernel kernel' : Kernel} {pid : Int} (same : kernel' pid = kernel pid) :
    (kernel'.report pid).isSome = (kernel.report pid).isSome := by
  unfold report
  rw [same]
  rcases kernel pid with _ | _ | ⟨status, _ | _⟩ | _ | _ <;> rfl

theorem happen_congr {kernel kernel' : Kernel} {pid : Int} (same : kernel' pid = kernel pid)
    (event : KernelEvent) : kernel'.happen event pid = kernel.happen event pid := by
  have updated : ∀ other,
      Function.update kernel' other ((kernel' other).map (Child.after event)) pid =
        Function.update kernel other ((kernel other).map (Child.after event)) pid := by
    intro other
    by_cases isOther : pid = other
    · rw [← isOther, Function.update_self, Function.update_self, same]
    · rw [Function.update_of_ne isOther, Function.update_of_ne isOther, same]
  cases event with
  | exits other status => exact updated other
  | stops other status => exact updated other
  | continues other => exact updated other
  | interrupts => exact same

/-- Whether a wait comes to its end depends on the child it is for. -/
theorem waitpid_isSome {kernel kernel' : Kernel} {pid : Int} (same : kernel' pid = kernel pid)
    {events : List KernelEvent} (ends : (kernel.waitpid pid events).isSome) :
    (kernel'.waitpid pid events).isSome := by
  have reports := report_isSome same
  induction events generalizing kernel kernel' with
  | nil =>
    rw [waitpid, Option.isSome_map] at ends ⊢
    exact reports.trans ends
  | cons event events inductionHypothesis =>
    rw [waitpid] at ends ⊢
    by_cases interrupts : event = .interrupts
    · rw [if_pos interrupts]
      rfl
    · rw [if_neg interrupts] at ends ⊢
      cases reported' : kernel'.report pid with
      | some report => rfl
      | none =>
        cases reported : kernel.report pid with
        | some report =>
          rw [reported, reported'] at reports
          cases reports
        | none =>
          rw [reported] at ends
          have next := happen_congr same event
          exact inductionHypothesis next ends (report_isSome next)

end Kernel

namespace Jobs

variable {jobs jobs' : Jobs} {session : Session} {fuel : Nat} {pid : Int}

/-- The sweep does not collect a process that it leaves alive on the list. -/
theorem Inv.donotwait_kernel {swept : Int → Bool} {before : Jobs} (inv : jobs.Inv)
    (isSwept : jobs.donotwait fuel swept = some before) {a : Nat} {cell : ListCell Nat Proc}
    (there : jobs.procs.memory a = some cell) (isPid : cell.data.pid = pid)
    (alive : cell.data.alive = true)
    (notCollected : cell.data.background = true → jobs.kernel.exited swept pid = none) :
    before.kernel pid = jobs.kernel pid := by
  obtain ⟨procs, -, same⟩ := Option.bind_eq_some_iff.mp isSwept
  obtain rfl := Option.some.inj same
  dsimp only
  cases hasExited : jobs.kernel.exited swept pid with
  | none => rfl
  | some status =>
    dsimp only
    split
    · rename_i asked
      split at asked
      · rename_i b isFound
        obtain ⟨other, otherThere, kind⟩ := Procs.find_some isFound
        obtain ⟨⟨otherPid, otherAlive⟩, background⟩ :
            (other.data.pid = pid ∧ other.data.alive = true) ∧ other.data.background = true := by
          simpa [Proc.isSwept] using kind
        obtain rfl := inv.distinct a b cell other there otherThere alive otherAlive
          (isPid.trans otherPid.symm)
        obtain rfl := Option.some.inj (there.symm.trans otherThere)
        cases (notCollected background).symm.trans hasExited
      · cases asked
    · rfl

/-- The loop comes to its end at the second process it asks for, since there is only one. -/
theorem Inv.ewaitLoop_isSome {rounds : Nat} {events : List KernelEvent} {wstatus : Option Int}
    (inv : jobs.Inv) (positive : 0 < pid) (ends : jobs.procs.Ends fuel)
    (told : (∃ a, jobs.procs.getproc pid false fuel = some (some a)) →
      (jobs.kernel.waitpid pid events).isSome) :
    ∃ outcome after, Jobs.ewaitLoop fuel pid (rounds + 2) events wstatus jobs =
      some (outcome, after) ∧ after.procs.Ends fuel := by
  obtain ⟨asked, isAsked⟩ := ends.getproc pid
  rw [Jobs.ewaitLoop.eq_def]
  dsimp only
  rw [isAsked, Option.bind_eq_bind, Option.bind_some]
  cases asked with
  | none => exact ⟨_, _, rfl, ends⟩
  | some a =>
    obtain ⟨cell, there, samePid, alive⟩ := inv.getproc positive isAsked
    obtain ⟨⟨report, kernel, left⟩, waited⟩ := Option.isSome_iff_exists.mp (told ⟨a, isAsked⟩)
    have waits := Kernel.waitpid_waits waited
    dsimp only
    rw [waited, Option.bind_eq_bind, Option.bind_some]
    cases report with
    | error => exact ⟨_, _, rfl, ends⟩
    | stopped status => exact ⟨_, _, rfl, ends.write a _⟩
    | ended status =>
      have finished := inv.finish there samePid alive status waits.others
      have ends' := ends.write a (Proc.finish status)
      obtain ⟨again, isAgain⟩ := ends'.getproc pid
      refine ⟨.returns (some status), ⟨_, kernel⟩, ?_, ends'⟩
      dsimp only
      rw [Option.bind_some]
      dsimp only
      rw [Jobs.ewaitLoop.eq_def]
      dsimp only
      rw [isAgain, Option.bind_eq_bind, Option.bind_some]
      cases again with
      | none => rfl
      | some b =>
        obtain ⟨other, otherThere, isPid, otherAlive⟩ := finished.getproc positive isAgain
        obtain ⟨child, known, kept⟩ := finished.unreaped b other otherThere otherAlive
        have reaped : kernel other.data.pid = some (.reaped status) :=
          isPid ▸ waits.ended status rfl
        exact absurd (Option.some.inj (known.symm.trans reaped)) (kept status)

/-- Where the list is well formed and the child ends or stops or a signal comes, `ewait` returns. -/
theorem Inv.ewait_isSome {swept : Int → Bool} {events : List KernelEvent} (inv : jobs.Inv)
    (positive : 0 < pid) (ends : jobs.procs.Ends fuel) (several : 2 ≤ fuel)
    (told : (jobs.kernel.waitpid pid events).isSome) :
    ∃ result, jobs.ewait session fuel pid swept events = some result := by
  obtain ⟨procs, isSwept⟩ := ends.donotwait (jobs.kernel.exited swept)
  obtain ⟨before, sweeps⟩ : ∃ before, jobs.donotwait fuel swept = some before := by
    rw [Jobs.donotwait, isSwept]
    exact ⟨_, rfl⟩
  have sameProcs : before.procs = procs := by
    rw [Jobs.donotwait, isSwept] at sweeps
    exact (congrArg Jobs.procs (Option.some.inj sweeps)).symm
  have ends' : before.procs.Ends fuel := sameProcs ▸ ends.of_donotwait isSwept
  have told' : (∃ a, before.procs.getproc pid false fuel = some (some a)) →
      (before.kernel.waitpid pid events).isSome := by
    intro isFound
    obtain ⟨a, cell, found, there, notCollected⟩ := (inv.awaits_iff positive sweeps).mp isFound
    obtain ⟨other, otherThere, isPid, alive⟩ := inv.getproc positive found
    obtain rfl := Option.some.inj (there.symm.trans otherThere)
    exact Kernel.waitpid_isSome (inv.donotwait_kernel sweeps there isPid alive notCollected) told
  obtain ⟨rounds, rfl⟩ := Nat.exists_eq_add_of_le' several
  obtain ⟨outcome, after, looped, ends''⟩ :=
    (inv.donotwait sweeps).ewaitLoop_isSome positive ends' told'
  rw [Jobs.ewait, sweeps, Option.bind_eq_bind, Option.bind_some, looped, Option.bind_eq_bind,
    Option.bind_some]
  cases outcome with
  | fails => exact ⟨_, rfl⟩
  | followsNull => exact ⟨_, rfl⟩
  | returns wstatus =>
    dsimp only
    split
    · exact ⟨_, rfl⟩
    · obtain ⟨procs, cleaned⟩ := ends''.cleanproclist
      rw [cleaned]
      exact ⟨_, rfl⟩

/-- Where no process is found after the sweep, the loop does not set `wstatus`. -/
theorem not_reports_of_not_awaits {swept : Int → Bool} {events : List KernelEvent}
    {result : Ewaited × Jobs} (inv : jobs.Inv) (positive : 0 < pid)
    (notAwaited : ¬jobs.Awaits fuel pid swept)
    (ran : jobs.ewait session fuel pid swept events = some result) :
    ¬Reports pid events result := by
  obtain ⟨outcome, jobs'⟩ := result
  obtain ⟨before, after, sweeps, looped, -, -⟩ := ewait_eq_some ran
  have notFound : ¬∃ a, before.procs.getproc pid false fuel = some (some a) :=
    fun found => notAwaited ((inv.awaits_iff positive sweeps).mp found)
  cases fuel with
  | zero => cases looped
  | succ rounds =>
    rw [Jobs.ewaitLoop.eq_def] at looped
    obtain ⟨asked, isAsked, looped⟩ := Option.bind_eq_some_iff.mp looped
    cases asked with
    | some a => exact absurd ⟨a, isAsked⟩ notFound
    | none =>
      obtain ⟨rfl, -⟩ := Prod.mk.inj (Option.some.inj looped)
      rintro ⟨status, isSet, -⟩
      cases isSet

/-- In every run `ewait` reports how the child ended or stopped exactly if, when it is called, a
process with this number is alive on the list and has not exited in the background; and it
returns, if the list is well formed and the child ends or stops or a signal comes. -/
theorem ewait_reports_iff {ops : List Op} {swept : Int → Bool} {events : List KernelEvent}
    (ran : Jobs.initial.run session fuel ops = some jobs) (positive : 0 < pid) :
    (∀ result, jobs.ewait session fuel pid swept events = some result →
      (Reports pid events result ↔ jobs.Awaits fuel pid swept)) ∧
    (∀ list, jobs.procs.Lists list → list.length + 1 < fuel →
      (jobs.kernel.waitpid pid events).isSome →
        ∃ result, jobs.ewait session fuel pid swept events = some result) := by
  have inv := Inv.initial.run ran
  refine ⟨fun result waited => ⟨fun reports => ?_, fun awaited => ?_⟩,
    fun list lists enough => inv.ewait_isSome positive ⟨list, lists, by omega⟩ (by omega)⟩
  · by_contra notAwaited
    exact not_reports_of_not_awaits inv positive notAwaited waited reports
  · obtain ⟨outcome, jobs'⟩ := result
    obtain ⟨before, after, sweeps, looped, kernel, -⟩ := ewait_eq_some waited
    have reports := ((inv.donotwait sweeps).ewaitLoop positive looped).2
      (.inl ((inv.awaits_iff positive sweeps).mpr awaited))
    cases outcome with
    | returns wstatus => exact (kernel ▸ reports : IsStatus jobs'.kernel pid wstatus)
    | fails => exact reports
    | followsNull => exact reports

/-- A job in the foreground and one in the background, which has exited. -/
def exitedJobs : List Op :=
  [.efork 0 11 true 0 (lit "sleep 1"), .efork 1 10 false 0 (lit "cc a.c"),
    .happens (.exits 11 256)]

/-- A wait for the job in the foreground. -/
theorem ewait_reports_exitedJobs :
    ∃ jobs, Jobs.initial.run ⟨false, false, 100⟩ 4 exitedJobs = some jobs ∧
      (∀ result, jobs.ewait ⟨false, false, 100⟩ 4 10 (fun _ => true) [.exits 10 0] = some result →
        (Reports 10 [.exits 10 0] result ↔ jobs.Awaits 4 10 fun _ => true)) ∧
      (∀ list, jobs.procs.Lists list → list.length + 1 < 4 →
        (jobs.kernel.waitpid 10 [.exits 10 0]).isSome → ∃ result,
          jobs.ewait ⟨false, false, 100⟩ 4 10 (fun _ => true) [.exits 10 0] = some result) := by
  have runs : (Jobs.initial.run ⟨false, false, 100⟩ 4 exitedJobs).isSome := by decide +kernel
  obtain ⟨jobs, ran⟩ := Option.isSome_iff_exists.mp runs
  exact ⟨jobs, ran, ewait_reports_iff ran (by decide)⟩

/-- A wait for the job in the background returns an unset variable: its status is only on the
list. -/
theorem not_reports_exitedJobs :
    ∃ jobs result, Jobs.initial.run ⟨false, false, 100⟩ 4 exitedJobs = some jobs ∧
      jobs.kernel 11 = some (.exited 256) ∧
      (∃ a, jobs.procs.getproc 11 false 4 = some (some a)) ∧
      jobs.ewait ⟨false, false, 100⟩ 4 11 (fun _ => true) [] = some result ∧
      result.1 = .returns none ∧ ¬Reports 11 [] result := by
  have ran : (Jobs.initial.run ⟨false, false, 100⟩ 4 exitedJobs).bind (fun jobs =>
      (jobs.procs.getproc 11 false 4).bind fun found =>
        (jobs.ewait ⟨false, false, 100⟩ 4 11 (fun _ => true) []).map fun result =>
          (found.isSome, jobs.kernel 11, result.1)) =
      some (true, some (.exited 256), .returns none) := by
    decide +kernel
  obtain ⟨jobs, isRun, rest⟩ := Option.bind_eq_some_iff.mp ran
  obtain ⟨found, isFound, rest⟩ := Option.bind_eq_some_iff.mp rest
  obtain ⟨⟨outcome, jobs'⟩, waited, same⟩ := Option.map_eq_some_iff.mp rest
  obtain ⟨listed, same⟩ := Prod.mk.inj same
  obtain ⟨known, unset⟩ := Prod.mk.inj same
  obtain ⟨a, rfl⟩ := Option.isSome_iff_exists.mp listed
  dsimp only at unset
  refine ⟨jobs, _, isRun, known, ⟨a, isFound⟩, waited, unset, ?_⟩
  rw [unset]
  rintro ⟨status, isSet, -⟩
  cases isSet

/-! ### The list alone -/

theorem ewaitLoop_procs {rounds : Nat} {events : List KernelEvent} {wstatus : Option Int}
    {outcome : Ewaited}
    (ran : Jobs.ewaitLoop fuel pid rounds events wstatus jobs = some (outcome, jobs')) :
    outcome ≠ .followsNull ∧ ∃ reports,
      Procs.ewaitLoop fuel pid reports jobs.procs =
        some (decide (outcome = .fails), jobs'.procs) := by
  induction rounds generalizing events wstatus jobs with
  | zero => cases ran
  | succ rounds inductionHypothesis =>
    rw [Jobs.ewaitLoop.eq_def] at ran
    obtain ⟨asked, isAsked, ran⟩ := Option.bind_eq_some_iff.mp ran
    cases asked with
    | none =>
      obtain ⟨rfl, rfl⟩ := Prod.mk.inj (Option.some.inj ran)
      refine ⟨by simp, [], ?_⟩
      rw [Procs.ewaitLoop.eq_def]
      dsimp only
      rw [isAsked]
      rfl
    | some a =>
      obtain ⟨⟨report, kernel, left⟩, -, ran⟩ := Option.bind_eq_some_iff.mp ran
      cases report with
      | error =>
        obtain ⟨rfl, rfl⟩ := Prod.mk.inj (Option.some.inj ran)
        refine ⟨by simp, [.error], ?_⟩
        rw [Procs.ewaitLoop.eq_def]
        dsimp only
        rw [isAsked]
        rfl
      | stopped status =>
        dsimp only at ran
        rw [isAsked] at ran
        obtain ⟨rfl, rfl⟩ := Prod.mk.inj (Option.some.inj ran)
        refine ⟨by simp, [.stopped pid], ?_⟩
        rw [Procs.ewaitLoop.eq_def]
        dsimp only
        rw [isAsked]
        rfl
      | ended status =>
        dsimp only at ran
        rw [isAsked] at ran
        obtain ⟨notNull, reports, same⟩ := inductionHypothesis ran
        refine ⟨notNull, .ended pid status :: reports, ?_⟩
        rw [Procs.ewaitLoop.eq_def]
        dsimp only
        rw [isAsked]
        exact same

/-- What a step does to the list is one of the steps of the list. -/
theorem step_procs {op : Op} (ran : jobs.step session fuel op = some jobs') :
    jobs'.procs = jobs.procs ∨ ∃ op', jobs.procs.step session fuel op' = some jobs'.procs := by
  cases op with
  | happens event =>
    obtain rfl := Option.some.inj ran
    exact .inl rfl
  | efork fresh pid background pgid cmd =>
    obtain ⟨-, ran⟩ := Option.ite_none_right_eq_some.mp ran
    obtain ⟨procs, forked, ran⟩ := Option.bind_eq_some_iff.mp ran
    obtain rfl := Option.some.inj ran
    exact .inr ⟨.efork fresh pid background pgid cmd, forked⟩
  | donotwait swept =>
    obtain ⟨procs, isSwept, ran⟩ := Option.bind_eq_some_iff.mp ran
    obtain rfl := Option.some.inj ran
    exact .inr ⟨.donotwait (jobs.kernel.exited swept), isSwept⟩
  | ewait pid swept events =>
    obtain ⟨-, ran⟩ := Option.ite_none_right_eq_some.mp ran
    obtain ⟨⟨outcome, jobs'⟩, waited, rfl⟩ := Option.map_eq_some_iff.mp ran
    obtain ⟨before, sweeps, ran⟩ := Option.bind_eq_some_iff.mp waited
    obtain ⟨procs, isSwept, same⟩ := Option.bind_eq_some_iff.mp sweeps
    obtain rfl := Option.some.inj same
    obtain ⟨⟨ended, after⟩, looped, ran⟩ := Option.bind_eq_some_iff.mp ran
    obtain ⟨notNull, reports, listed⟩ := ewaitLoop_procs looped
    refine .inr ⟨.ewait pid (jobs.kernel.exited swept) reports, ?_⟩
    show Procs.ewait _ _ _ _ _ _ = _
    rw [Procs.ewait, isSwept, Option.bind_eq_bind, Option.bind_some, listed, Option.bind_eq_bind,
      Option.bind_some]
    cases ended with
    | followsNull => exact absurd rfl notNull
    | fails =>
      obtain ⟨rfl, rfl⟩ := Prod.mk.inj (Option.some.inj ran)
      rfl
    | returns wstatus =>
      dsimp only at ran ⊢
      by_cases interactive : session.isinteractive = true
      · rw [if_pos interactive] at ran
        obtain ⟨-, rfl⟩ := Prod.mk.inj (Option.some.inj ran)
        rw [if_pos (by rw [interactive, Bool.or_true])]
      · rw [if_neg interactive] at ran
        obtain ⟨procs, cleaned, ran⟩ := Option.bind_eq_some_iff.mp ran
        obtain ⟨-, rfl⟩ := Prod.mk.inj (Option.some.inj ran)
        rw [if_neg (by simpa using interactive)]
        exact cleaned
  | cleanproclist =>
    obtain ⟨procs, cleaned, rfl⟩ := Option.map_eq_some_iff.mp ran
    exact .inr ⟨.cleanproclist, cleaned⟩
  | procfree pid status =>
    obtain ⟨procs, freed, rfl⟩ := Option.map_eq_some_iff.mp ran
    exact .inr ⟨.procfree pid status, freed⟩

/-- Every run is a run of the list with what the kernel reports to it. -/
theorem run_procs {ops : List Op} (ran : jobs.run session fuel ops = some jobs') :
    ∃ ops', jobs.procs.run session fuel ops' = some jobs'.procs := by
  induction ops generalizing jobs with
  | nil =>
    obtain rfl := Option.some.inj ran
    exact ⟨[], rfl⟩
  | cons op ops inductionHypothesis =>
    obtain ⟨between, stepped, rest⟩ := Option.bind_eq_some_iff.mp ran
    obtain ⟨ops', isRun⟩ := inductionHypothesis rest
    rcases step_procs stepped with unchanged | ⟨op', changed⟩
    · exact ⟨ops', unchanged ▸ isRun⟩
    · refine ⟨op' :: ops', ?_⟩
      rw [Procs.run, List.foldlM_cons, changed]
      exact isRun

end Jobs

end Desh
