/-
This file proves when the primitives that evaluate a command keep the control
stacks balanced. Two things go wrong. A settor that raises an exception, while
the records above a handler are popped for another one, takes away the only code
that would have undone what a redirection or `$&catch` has done. And `$&writeto`
pops a handler that it has not installed.
-/

import Desh.Balance

namespace Desh

open Outcome Control

namespace Routine

variable {strhash : Text → Nat} {File Outside : Type} {α β : Type}
  {commands : Commands strhash File Outside} {system : System File Outside}
  {control : Control strhash (Machine File Outside)}

/-! ### Primitives that fail to -/

variable (commands) in
/-- The settors return that run when the body of a handler raises an exception. -/
def Undisturbed (body : Routine strhash File Outside α)
    (control : Control strhash (Machine File Outside)) : Prop :=
  ∀ e after, body control.install = .raise e after → SettlesTo commands after

/-- An assertion fails, or an exception is raised and the machine is not kept. -/
def Unbalanced (before : Control strhash (Machine File Outside)) :
    Outcome (Control strhash (Machine File Outside)) α → Prop
  | .ret _ _ => False
  | .raise _ after => ¬Kept after.world before.world
  | .abort => True

theorem Unbalanced.not_balanced {outcome : Outcome (Control strhash (Machine File Outside)) α}
    (unbalanced : Unbalanced control outcome) : ¬Balanced control outcome := by
  cases outcome with
  | ret value after => exact unbalanced.elim
  | raise e after => exact unbalanced
  | abort => exact id

theorem unbalanced_bind {before : Control strhash (Machine File Outside)}
    {first : Routine strhash File Outside α} {next : α → Routine strhash File Outside β}
    (unbalanced : Unbalanced before (first control)) :
    Unbalanced before ((first >>= next) control) := by
  show Unbalanced before (match first control with
    | .ret value control => next value control
    | .raise e control => .raise e control
    | .abort => .abort : Outcome _ β)
  cases outcome : first control with
  | ret value after =>
    rw [outcome] at unbalanced
    exact unbalanced.elim
  | raise e after =>
    rw [outcome] at unbalanced
    exact unbalanced
  | abort => trivial

theorem unbalanced_refs {n : Nat} {routine : Routine strhash File Outside α}
    (unbalanced : Unbalanced (control.openRefs n) (routine (control.openRefs n))) :
    Unbalanced control (refs n routine control) := by
  have opened := openRefs_eq n control
  rw [refs]
  cases outcome : routine (control.openRefs n) with
  | ret value after =>
    rw [outcome] at unbalanced
    exact unbalanced.elim
  | raise e after =>
    rw [outcome, opened] at unbalanced
    exact unbalanced
  | abort => trivial

theorem Unbalanced.of_kept {before : Control strhash (Machine File Outside)}
    {outcome : Outcome (Control strhash (Machine File Outside)) α}
    (unbalanced : Unbalanced control outcome) (kept : Kept control.world before.world) :
    Unbalanced before outcome := by
  cases outcome with
  | ret value after => exact unbalanced
  | raise e after =>
    refine fun kept' => unbalanced (kept'.trans ⟨kept.deftab.symm, kept.reserved.symm,
      kept.blocked.symm⟩)
  | abort => trivial

/-! ### Redirections -/

/-- The machine has one more entry than before, which is deferred. -/
structure Pushed (after before : Machine File Outside) (realfd : Option Nat) (userfd : Nat) :
    Prop where
  deftab : after.process.deftab = before.process.deftab ++ [⟨realfd, userfd⟩]
  reserved : after.process.reserved.Perm
    (⟨.deferred before.process.deftab.length, true⟩ :: before.process.reserved)
  blocked : after.blocked = before.blocked

theorem Pushed.not_kept {after before : Machine File Outside} {realfd : Option Nat} {userfd : Nat}
    (pushed : Pushed after before realfd userfd) : ¬Kept after before := by
  intro kept
  have length := congrArg List.length (pushed.deftab.symm.trans kept.deftab)
  simp at length

theorem Pushed.of_kept {later after before : Machine File Outside} {realfd : Option Nat}
    {userfd : Nat} (pushed : Pushed after before realfd userfd) (kept : Kept later after) :
    Pushed later before realfd userfd :=
  ⟨kept.deftab.trans pushed.deftab, kept.reserved.trans pushed.reserved,
    kept.blocked.trans pushed.blocked⟩

/-- `undefer` takes the entry away. -/
theorem undefer_ret {before : Machine File Outside} {realfd : Option Nat} {userfd : Nat}
    (tracked : before.process.Tracked) (pushed : Pushed control.world before realfd userfd) :
    ∃ after, undefer before.process.deftab.length control = .ret () after ∧
      SameStacks after control ∧ Kept after.world before := by
  obtain ⟨result, run, deftab, reserved⟩ :=
    Process.undefer_perm pushed.deftab pushed.reserved tracked.marked
  have length : control.world.process.deftab.length = before.process.deftab.length + 1 := by
    rw [pushed.deftab, List.length_append, List.length_singleton]
  refine ⟨{ control with world := { control.world with process := result } }, ?_,
    ⟨rfl, rfl, rfl, rfl, rfl⟩, deftab, reserved, pushed.blocked⟩
  rw [undefer, process, if_pos length, run]

/-- Under the handler of `redir` the entry is there until the command has returned. -/
theorem deferred_ends (commands : Commands strhash File Outside)
    (tracked : control.world.process.Tracked) (destfd : Nat) (srcfd : Option Nat)
    (lp : List TermRef) :
    (deferred commands control.world.process.deftab.length destfd srcfd lp control.install).Ends
      (fun _ after => SameStacks after control.install ∧ Kept after.world control.world)
      fun _ after => (∃ levels, SameStacks after (control.install.enterAll levels)) ∧
        Pushed after.world control.world srcfd destfd := by
  obtain ⟨result, run, deftab, reserved⟩ := Process.pushdefer_perm tracked srcfd destfd
  let start : Control strhash (Machine File Outside) :=
    { control.install with world := { control.world with process := result } }
  have deferring : defer srcfd destfd control.install = .ret () start := by
    rw [defer, process, show control.install.world.process.pushdefer srcfd destfd = some result
      from run]
    rfl
  have pushed : Pushed start.world control.world srcfd destfd := ⟨deftab, reserved, rfl⟩
  have start_same : SameStacks start control.install := ⟨rfl, rfl, rfl, rfl, rfl⟩
  have neat := neat_eval commands lp start
  have opens := eval_opens commands lp start
  rw [deferred, bind_ret deferring]
  have evaluation : (eval commands lp start).Ends (fun _ after => Restored after start)
      fun _ after => (∃ levels, SameStacks after (control.install.enterAll levels)) ∧
        Pushed after.world control.world srcfd destfd := by
    refine neat.mono (fun _ _ _ restored => restored) fun e after run kept => ?_
    rw [run] at opens
    obtain ⟨levels, same⟩ := opens
    exact ⟨⟨levels, same.trans (start_same.enterAll levels)⟩, pushed.of_kept kept⟩
  refine ends_bind evaluation fun list after _ restored => ?_
  obtain ⟨undeferred, run', same', kept'⟩ := undefer_ret tracked (pushed.of_kept restored.kept)
  rw [bind_ret run']
  exact ⟨same'.trans (restored.same.trans start_same), kept'⟩

theorem deferred_opens (tracked : control.world.process.Tracked) (destfd : Nat)
    (srcfd : Option Nat) (lp : List TermRef) :
    Opens control.install
      (deferred commands control.world.process.deftab.length destfd srcfd lp control.install) :=
  (deferred_ends commands tracked destfd srcfd lp).mono (fun _ _ _ ends => ends.1)
    fun _ _ _ ends => ends.1

theorem redirected_balanced (tracked : control.world.process.Tracked) {destfd : Nat}
    {srcfd : Option Nat} {lp : List TermRef}
    (undisturbed : Undisturbed commands
      (deferred commands control.world.process.deftab.length destfd srcfd lp) control) :
    Balanced control (redirected commands destfd srcfd lp control) := by
  have ends := deferred_ends commands tracked destfd srcfd lp
  refine ends_exceptionHandler (deferred_opens tracked destfd srcfd lp) ?_ ?_ ?_
  · intro list after popped run same shell world
    rw [run] at ends
    exact ⟨same, world ▸ ends.2⟩
  · intro e after caught run settles landed same kept
    rw [run] at ends
    obtain ⟨undeferred, run', same', kept'⟩ := undefer_ret tracked (ends.2.of_kept kept)
    rw [bind_ret run']
    exact kept'
  · intro e after e' after' run unsettled
    exact absurd (undisturbed e after run) unsettled

/-- What happens to an exception that does not reach its handler. -/
theorem exceptionHandler_disturbed {body : Routine strhash File Outside α}
    (handle : Exception → Routine strhash File Outside α)
    (opens : Opens control.install (body control.install))
    (disturbed : ¬Undisturbed commands body control) :
    ∃ e after e' after', body control.install = .raise e after ∧
      exceptionHandler commands body handle control = .raise e' after' ∧
      Kept after'.world after.world := by
  rw [Undisturbed] at disturbed
  push Not at disturbed
  obtain ⟨e, after, run, unsettled⟩ := disturbed
  rw [run] at opens
  obtain ⟨levels, opened⟩ := opens
  rcases throwTo_spec commands opened with
    ⟨landed, -, settles, -⟩ | ⟨e', after', thrown, -, kept⟩
  · exact absurd settles unsettled
  · refine ⟨e, after, e', after', run, ?_, kept⟩
    rw [exceptionHandler, run]
    dsimp only
    rw [thrown]

theorem redirected_unbalanced (tracked : control.world.process.Tracked) {destfd : Nat}
    {srcfd : Option Nat} {lp : List TermRef}
    (disturbed : ¬Undisturbed commands
      (deferred commands control.world.process.deftab.length destfd srcfd lp) control) :
    Unbalanced control (redirected commands destfd srcfd lp control) := by
  have ends := deferred_ends commands tracked destfd srcfd lp
  obtain ⟨e, after, e', after', run, thrown, kept⟩ :=
    exceptionHandler_disturbed (fun e => do
      undefer control.world.process.deftab.length
      throw e) (deferred_opens tracked destfd srcfd lp) disturbed
  rw [run] at ends
  have raised : redirected commands destfd srcfd lp control = .raise e' after' := thrown
  rw [raised]
  exact (ends.2.of_kept kept).not_kept

theorem tracked_of_kept {after before : Machine File Outside} (kept : Kept after before)
    (tracked : before.process.Tracked) : after.process.Tracked :=
  ⟨fun i less => kept.reserved.mem_iff.mpr (tracked.registered i (kept.deftab ▸ less)),
    fun reserve member => tracked.marked reserve (kept.reserved.mem_iff.mp member)⟩

variable (commands system) in
/-- No settor disturbs a redirection. -/
def RedirClear (caller : Text) (rop : Rop strhash File Outside) (list : List TermRef)
    (control : Control strhash (Machine File Outside)) : Prop :=
  ∀ destfd srcfd r opened,
    redirBegin system caller rop list (control.openRefs 1) = .ret (destfd, srcfd, r) opened →
    Undisturbed commands
      (deferred commands opened.world.process.deftab.length destfd srcfd r.l) opened

theorem redir_balanced (tracked : control.world.process.Tracked) {caller : Text}
    {rop : Rop strhash File Outside} {list : List TermRef}
    (neat : Neat (redirBegin system caller rop list))
    (clear : RedirClear commands system caller rop list control) :
    Balanced control (redir commands system caller rop list control) := by
  refine refs_balanced (balanced_bind (neat _) fun ⟨destfd, srcfd, r⟩ opened run restored => ?_)
  have tracked' : opened.world.process.Tracked := by
    refine tracked_of_kept (restored.kept.trans ?_) tracked
    rw [openRefs_eq]
  exact balanced_bind (redirected_balanced tracked' (clear destfd srcfd r opened run))
    fun l after _ _ => Restored.refl after

theorem redir_unbalanced (tracked : control.world.process.Tracked) {caller : Text}
    {rop : Rop strhash File Outside} {list : List TermRef}
    (neat : Neat (redirBegin system caller rop list))
    (blocked : ¬RedirClear commands system caller rop list control) :
    Unbalanced control (redir commands system caller rop list control) := by
  rw [RedirClear] at blocked
  push Not at blocked
  obtain ⟨destfd, srcfd, r, opened, run, disturbed⟩ := blocked
  have restored : Restored opened (control.openRefs 1) := by
    have ends := neat (control.openRefs 1)
    rw [run] at ends
    exact ends
  have tracked' : opened.world.process.Tracked := by
    refine tracked_of_kept (restored.kept.trans ?_) tracked
    rw [openRefs_eq]
  refine unbalanced_refs ?_
  rw [bind_ret run]
  exact (unbalanced_bind (redirected_unbalanced tracked' disturbed)).of_kept restored.kept

/-! ### What redirections open -/

theorem neat_getnumber (system : System File Outside) (caller : Text) (t : TermRef) :
    Neat (getnumber system caller t : Routine strhash File Outside Nat) := by
  refine (neat_get _).bind fun s => ?_
  dsimp only
  split_ifs
  · exact neat_fail _ _
  · exact neat_pure _

theorem neat_redirBegin {caller : Text} {rop : Rop strhash File Outside} {destfd : TermRef}
    {list : List TermRef} (neat : Neat (rop list)) :
    Neat (redirBegin system caller rop (destfd :: list)) :=
  (neat_getnumber system caller destfd).bind fun _ => neat.bind fun ⟨_, _⟩ => neat_pure _

theorem neat_redir_openfile (system : System File Outside) (mode name cmd : TermRef) :
    Neat (redir_openfile system [mode, name, cmd] :
      Routine strhash File Outside (Option Nat × Listpid)) := by
  refine Neat.refs ((neat_get _).bind fun mode => ?_) 1
  cases modes.lookup mode with
  | none => exact neat_fail _ _
  | some kind =>
    refine (neat_get _).bind fun name => (neat_call _).bind fun result => ?_
    cases result with
    | error errno => exact neat_fail _ _
    | ok fd => exact neat_pure _

theorem neat_redir_dup (system : System File Outside) (caller : Text) (oldfd cmd : TermRef) :
    Neat (redir_dup system caller [oldfd, cmd] :
      Routine strhash File Outside (Option Nat × Listpid)) := by
  refine Neat.refs ((neat_getnumber _ _ _).bind fun oldfd => (neat_get _).bind fun realfd =>
    (neat_call _).bind fun result => ?_) 1
  cases result with
  | error errno => exact neat_fail _ _
  | ok fd => exact neat_pure _

theorem neat_redir_here (commands : Commands strhash File Outside) (system : System File Outside)
    (caller : Text) {list : List TermRef} (nonempty : list ≠ []) :
    Neat (redir_here commands system caller list) := by
  rw [redir_here, List.getLast?_eq_some_getLast nonempty]
  exact (neat_mkstr _).bind fun _ => (neat_pipefork commands system caller).bind
    fun ⟨_, fd1, _⟩ => (neat_close fd1).bind fun _ => neat_pure _

/-! ### Command lists and conditions -/

theorem neat_prim_seq (commands : Commands strhash File Outside) (system : System File Outside)
    (list : List TermRef) : Neat (prim_seq commands system list) := by
  have loop : ∀ (list result : List TermRef), Neat (seqLoop commands result list) := by
    intro list
    induction list with
    | nil => exact fun result => neat_pure result
    | cons term list inductionHypothesis =>
      exact fun _ => (neat_eval commands [term]).bind inductionHypothesis
  exact (loop list system.ltrue).refs 2

theorem neat_prim_if (commands : Commands strhash File Outside) (system : System File Outside)
    (list : List TermRef) : Neat (prim_if commands system list) := by
  refine Neat.refs ?_ 1
  fun_induction ifLoop commands system list with
  | case1 => exact neat_pure _
  | case2 term => exact neat_eval commands [term]
  | case3 term body lp inductionHypothesis =>
    refine (neat_eval commands [term]).bind fun cond => (neat_get _).bind fun isTrue => ?_
    cases isTrue with
    | false => exact inductionHypothesis
    | true => exact neat_eval commands [body]

/-! ### Substitutions -/

theorem varpush_ends (commands : Commands strhash File Outside) (name : Text)
    (defn : List TermRef) (control : Control strhash (Machine File Outside)) :
    (varpush commands.behave name defn control).Ends
      (fun _ after => ∃ push, Restored after (control.enter (.push push)))
      fun _ after => Kept after.world control.world := by
  have keeps := callsettor_keeps commands name defn (control.linkName.markDirty name)
  have settling : (∃ result after, callsettor commands.behave name defn
      (control.linkName.markDirty name) = .ret result after ∧ SameStacks after _) ∨ _ :=
    callsettor_spec commands.behave name defn (control.linkName.markDirty name)
  rw [varpush, varpushWith, validated, validatevar]
  split_ifs
  · exact Kept.refl _
  · exact Kept.refl _
  · rcases settling with ⟨result, after, called, same⟩ | ⟨e, after, levels, called, -⟩
    · rw [called] at keeps
      simp only [called]
      exact ⟨_, varpushEnd_sameStacks _ _ (same.trans (markDirty_sameStacks ..)), keeps⟩
    · rw [called] at keeps
      simp only [called]
      exact keeps

/-- `varpop` of the record at the head of `pushlist`. -/
theorem varpop_balanced {base : Control strhash (Machine File Outside)} {push : Push}
    (opened : Restored control (base.enter (.push push))) :
    Balanced base (varpop commands.behave control) := by
  have keeps := varpop_keeps commands control
  have kept : Kept control.world base.world := opened.kept
  have pushlist : control.shell.pushlist = push :: base.shell.pushlist := opened.same.pushlist
  have nameroots : control.nameroots = base.rootlist :: base.nameroots := opened.same.nameroots
  have popping := varpop_toDefnroot commands.behave pushlist nameroots
  rw [toDefnroot_eq opened.same] at popping
  rcases popping with ⟨after, run, pushlist', nameroots', rootlist', tophandler', evaldepth'⟩ |
    ⟨e, after, levels, run, -⟩
  · rw [run] at keeps ⊢
    exact ⟨⟨pushlist', nameroots', rootlist', tophandler'.trans opened.same.tophandler,
      evaldepth'.trans opened.same.evaldepth⟩, Kept.trans keeps kept⟩
  · rw [run] at keeps ⊢
    exact Kept.trans keeps kept

/-- `$&readfrom` and `$&writeto` have pushed their variable when they evaluate their command. -/
theorem substitution_ends (commands : Commands strhash File Outside)
    (system : System File Outside) (caller : Text) (ends : Nat × Nat → Nat × Nat) (var : TermRef)
    (control : Control strhash (Machine File Outside)) :
    (substitution commands system caller ends var control).Ends
      (fun _ after => ∃ push, Restored after (control.enter (.push push)))
      fun _ after => Kept after.world control.world := by
  refine ends_bind (neat_get _ control) fun var before run _ => ?_
  obtain ⟨-, rfl⟩ := Outcome.ret.inj run
  refine ends_bind (neat_pipefork commands system caller control) fun ⟨fd0, fd1, pid⟩ forked _
    restored => ?_
  dsimp only
  refine ends_bind (balanced_trans (neat_close _ forked) restored) fun _ closed _ restored => ?_
  refine ends_bind (balanced_trans (neat_mkstr _ closed) restored) fun lp made _ restored => ?_
  have pushing : (Control.varpush commands.behave var [lp] made).Ends
      (fun _ after => ∃ push, Restored after (control.enter (.push push)))
      fun _ after => Kept after.world control.world := by
    refine (varpush_ends commands var [lp] made).mono ?_ ?_
    · rintro _ after - ⟨push, opened⟩
      exact ⟨push, opened.same.trans (restored.same.enter _), opened.kept.trans restored.kept⟩
    · exact fun e after _ kept => kept.trans restored.kept
  exact ends_bind pushing fun _ after _ pushed => pushed

/-- While their command is evaluated, a settor that disturbs them does no harm. -/
theorem neat_substituted (commands : Commands strhash File Outside)
    (system : System File Outside) (own pid : Nat) (cmd : TermRef) :
    Neat (substituted commands system own pid cmd) := by
  intro control
  have neat := neat_eval commands [cmd] control.install
  refine ends_exceptionHandler (eval_opens commands [cmd] control.install) ?_ ?_ ?_
  · intro list after popped run same shell world
    rw [run] at neat
    have restored : Restored after control.install := neat
    exact ⟨same, world ▸ restored.kept⟩
  · intro e after caught run settles landed same kept
    rw [run] at neat
    have restored : Restored caught control := ⟨same, kept.trans neat⟩
    refine balanced_trans ?_ restored
    exact (neat_close own).bind (fun _ => (neat_ewait system pid).bind fun _ => neat_throw e) caught
  · intro e after e' after' run unsettled kept
    rw [run] at neat
    exact kept.trans neat

theorem neat_prim_readfrom (commands : Commands strhash File Outside)
    (system : System File Outside) (list : List TermRef) :
    Neat (prim_readfrom commands system list) := by
  unfold prim_readfrom
  split
  · rename_i var input cmd
    refine Neat.refs (fun control => ?_) 4
    refine ends_bind (substitution_ends commands system _ _ var control)
      fun ⟨p0, pid⟩ pushed _ ⟨push, opened⟩ => ?_
    dsimp only
    have protectedCmd : Balanced (control.enter (.push push))
        (substituted commands system p0 pid cmd pushed) :=
      balanced_trans (neat_substituted commands system p0 pid cmd pushed) opened
    refine ends_bind protectedCmd fun lp after _ opened => ?_
    have closing : Balanced (control.enter (.push push)) (close p0 after) :=
      balanced_trans (neat_close p0 after) opened
    refine ends_bind closing fun _ after _ opened => ?_
    have waiting : Balanced (control.enter (.push push)) (ewait system pid after) :=
      balanced_trans (neat_ewait system pid after) opened
    refine ends_bind waiting fun _ after _ opened => ?_
    exact ends_bind (varpop_balanced opened) fun _ after _ restored => restored
  · exact neat_fail _ _

theorem neat_prim_backquote (commands : Commands strhash File Outside)
    (system : System File Outside) (list : List TermRef) :
    Neat (prim_backquote commands system list) := by
  have bqinput : ∀ sep fd, Neat (bqinput system sep fd :
      Routine strhash File Outside (List Text)) := by
    intro sep fd
    refine (neat_get _).bind fun ⟨chunks, errno, outside⟩ => ?_
    dsimp only
    refine Neat.bind (neat_update (f := fun machine => { machine with outside })
      fun machine => ⟨rfl, List.Perm.refl _, rfl⟩) fun _ => (neat_sigchk system).bind fun _ => ?_
    cases errno with
    | none => exact neat_split sep chunks
    | some errno => exact (neat_close fd).bind fun _ => neat_fail _ _
  unfold prim_backquote
  split
  · exact neat_fail _ _
  · refine Neat.bind (Neat.refs ((neat_get _).bind fun sep =>
      (neat_pipefork commands system _).bind fun ⟨fd0, fd1, pid⟩ => ?_) 2) fun list =>
        (neat_sigchk system).bind fun _ => neat_pure list
    refine (neat_close fd1).bind fun _ => (bqinput sep fd0).bind fun words => ?_
    refine (neat_mapM neat_mkstr words).bind fun lp => (neat_close fd0).bind fun _ => ?_
    exact (neat_ewait system pid).bind fun status => (neat_mkstr _).bind fun t => neat_pure _

variable (commands system) in
/-- The command of `$&writeto` does not return. -/
def WritetoClear (var cmd : TermRef) (control : Control strhash (Machine File Outside)) : Prop :=
  ∀ p1 pid pushed, substitution commands system (lit "$&writeto") Prod.swap var
      (control.openRefs 4) = .ret (p1, pid) pushed →
    ∀ result after, eval commands [cmd] pushed.install ≠ .ret result after

theorem substituted_ret_iff (commands : Commands strhash File Outside)
    (system : System File Outside) (own pid : Nat) (cmd : TermRef)
    (control : Control strhash (Machine File Outside)) :
    (∃ result after, substituted commands system own pid cmd control = .ret result after) ↔
      ∃ result after, eval commands [cmd] control.install = .ret result after := by
  have opens := eval_opens commands [cmd] control.install
  have ends : (substituted commands system own pid cmd control).Ends
      (fun _ _ => ∃ result after, eval commands [cmd] control.install = .ret result after)
      fun _ _ => ¬∃ result after, eval commands [cmd] control.install = .ret result after := by
    have raised : ∀ {e after}, eval commands [cmd] control.install = .raise e after →
        ¬∃ result after, eval commands [cmd] control.install = .ret result after := by
      rintro e after run ⟨result, after', run'⟩
      cases run.symm.trans run'
    refine ends_exceptionHandler opens ?_ ?_ fun e after e' after' run _ _ => raised run
    · exact fun result after popped run _ _ _ => ⟨result, after, run⟩
    · intro e after caught run _ _ _ _
      refine ends_bind (neat_close own caught |>.mono (fun _ _ _ _ => trivial) ?_)
        fun _ after _ _ => ends_bind (neat_ewait system pid after |>.mono
          (fun _ _ _ _ => trivial) fun _ _ _ _ => raised run) fun _ _ _ _ => raised run
      exact fun _ _ _ _ => raised run
  cases outcome : substituted commands system own pid cmd control with
  | ret result after =>
    rw [outcome] at ends
    exact iff_of_true ⟨result, after, rfl⟩ ends
  | raise e after =>
    rw [outcome] at ends
    refine iff_of_false ?_ ends
    rintro ⟨result, after', same⟩
    cases same
  | abort =>
    rw [outcome] at ends
    exact ends.elim

theorem prim_writeto_balanced {var input cmd : TermRef}
    (clear : WritetoClear commands system var cmd control) :
    Balanced control (prim_writeto commands system [var, input, cmd] control) := by
  refine refs_balanced ?_
  refine ends_bind (substitution_ends commands system _ _ var (control.openRefs 4))
    fun ⟨p1, pid⟩ pushed run ⟨push, opened⟩ => ?_
  dsimp only
  have protectedCmd : Balanced ((control.openRefs 4).enter (.push push))
      (substituted commands system p1 pid cmd pushed) :=
    balanced_trans (neat_substituted commands system p1 pid cmd pushed) opened
  refine ends_bind protectedCmd fun lp after returns _ => ?_
  obtain ⟨result, after', evaluated⟩ :=
    (substituted_ret_iff commands system p1 pid cmd pushed).mp ⟨lp, after, returns⟩
  exact absurd evaluated (clear p1 pid pushed run result after')

theorem prim_writeto_unbalanced {var input cmd : TermRef}
    (returning : ¬WritetoClear commands system var cmd control) :
    Unbalanced control (prim_writeto commands system [var, input, cmd] control) := by
  rw [WritetoClear] at returning
  push Not at returning
  obtain ⟨p1, pid, pushed, run, result, after, evaluated⟩ := returning
  obtain ⟨lp, after', returns⟩ :=
    (substituted_ret_iff commands system p1 pid cmd pushed).mpr ⟨result, after, evaluated⟩
  refine unbalanced_refs ?_
  rw [bind_ret run]
  dsimp only
  rw [bind_ret returns]
  trivial

/-! ### `$&catch` -/

theorem unblocksignals_ret {n : Nat} (blocked : control.world.blocked = n + 1) :
    (unblocksignals : Routine strhash File Outside Unit) control =
      .ret () { control with world := { control.world with blocked := n } } := by
  rw [unblocksignals, bind_ret (show get _ control = .ret control.world.blocked control from rfl)]
  rw [if_neg (by omega), blocked]
  rfl

/-- The state after `blocksignals`. -/
def blocking (control : Control strhash (Machine File Outside)) :
    Control strhash (Machine File Outside) :=
  { control with world := { control.world with blocked := control.world.blocked + 1 } }

theorem catcher_ends (commands : Commands strhash File Outside) (lp : TermRef)
    (frombody : Exception) (control : Control strhash (Machine File Outside)) :
    (catcher commands lp frombody (blocking control).install).Ends
      (fun _ after => SameStacks after (blocking control).install ∧
        Kept after.world control.world)
      fun _ after => (∃ levels, SameStacks after ((blocking control).install.enterAll levels)) ∧
        Kept after.world (blocking control).world := by
  let start := (blocking control).install
  let made := (start.mkstr (lit "$&noreturn")).2
  let list := (start.mkstr (lit "$&noreturn")).1 :: lp :: frombody.term :: frombody.next
  have made_same : SameStacks made start := ⟨rfl, rfl, rfl, rfl, rfl⟩
  have opens := eval_opens commands list made
  have evaluation : (eval commands list made).Ends
      (fun _ after => SameStacks after start ∧ Kept after.world start.world)
      fun _ after => (∃ levels, SameStacks after (start.enterAll levels)) ∧
        Kept after.world start.world := by
    refine (neat_eval commands list made).mono (fun _ after _ restored => ?_)
      fun e after run kept => ?_
    · exact ⟨restored.same.trans made_same, restored.kept⟩
    · rw [run] at opens
      obtain ⟨levels, same⟩ := opens
      exact ⟨⟨levels, same.trans (made_same.enterAll levels)⟩, kept⟩
  rw [catcher, bind_ret (show mkstr (lit "$&noreturn") start = .ret _ made from rfl)]
  refine ends_bind evaluation fun result after _ ⟨same, kept⟩ => ?_
  rw [bind_ret (unblocksignals_ret (n := control.world.blocked) kept.blocked)]
  exact ⟨⟨same.pushlist, same.nameroots, same.rootlist, same.tophandler, same.evaldepth⟩,
    kept.deftab, kept.reserved, rfl⟩

theorem catcher_opens (commands : Commands strhash File Outside) (lp : TermRef)
    (frombody : Exception) (control : Control strhash (Machine File Outside)) :
    Opens (blocking control).install
      (catcher commands lp frombody (blocking control).install) :=
  (catcher_ends commands lp frombody control).mono (fun _ _ _ ends => ends.1)
    fun _ _ _ ends => ends.1

theorem catchBody_ends (commands : Commands strhash File Outside) (lp : TermRef)
    (frombody : Exception) (control : Control strhash (Machine File Outside)) :
    (catchBody commands lp frombody control).Ends (fun _ after => Restored after control)
      fun _ after => Undisturbed commands (catcher commands lp frombody) (blocking control) →
        Kept after.world control.world := by
  have ends := catcher_ends commands lp frombody control
  rw [catchBody, bind_ret (show blocksignals control = .ret () (blocking control) from rfl)]
  refine ends_exceptionHandler (catcher_opens commands lp frombody control) ?_ ?_ ?_
  · intro result after popped run same shell world
    rw [run] at ends
    exact ⟨⟨same.pushlist, same.nameroots, same.rootlist, same.tophandler, same.evaldepth⟩,
      world ▸ ends.2⟩
  · intro e after caught run settles landed same kept
    rw [run] at ends
    have blocked : caught.world.blocked = control.world.blocked + 1 :=
      (kept.trans ends.2).blocked
    have released : Kept { caught.world with blocked := control.world.blocked } control.world :=
      ⟨(kept.trans ends.2).deftab, (kept.trans ends.2).reserved, rfl⟩
    rw [bind_ret (show termeq e.term (lit "retry") caught = .ret _ caught from rfl)]
    split_ifs
    · rw [bind_ret (unblocksignals_ret blocked)]
      exact ⟨⟨same.pushlist, same.nameroots, same.rootlist, same.tophandler, same.evaldepth⟩,
        released⟩
    · rw [bind_ret (unblocksignals_ret blocked)]
      exact fun _ => released
  · intro e after e' after' run unsettled kept undisturbed
    exact absurd (undisturbed e after run) unsettled

theorem catchBody_unbalanced {lp : TermRef} {frombody : Exception}
    (disturbed : ¬Undisturbed commands (catcher commands lp frombody) (blocking control)) :
    Unbalanced control (catchBody commands lp frombody control) := by
  have ends := catcher_ends commands lp frombody control
  obtain ⟨e, after, e', after', run, thrown, kept⟩ :=
    exceptionHandler_disturbed _ (catcher_opens commands lp frombody control) disturbed
  rw [run] at ends
  rw [catchBody, bind_ret (show blocksignals control = .ret () (blocking control) from rfl), thrown]
  intro unblocked
  have blocked : after'.world.blocked = control.world.blocked + 1 :=
    (kept.trans ends.2).blocked
  have same : after'.world.blocked = control.world.blocked := unblocked.blocked
  omega

variable (commands) in
/-- No settor disturbs a round of `$&catch` once signals are blocked. -/
def CatcherClear (lp : TermRef) (body : List TermRef)
    (control : Control strhash (Machine File Outside)) : Prop :=
  ∀ frombody after caught, eval commands body control.install = .raise frombody after →
    throwTo commands.behave after = .ret () caught →
    Undisturbed commands (catcher commands lp frombody) (blocking caught)

/-- The body of `$&catch`, which has a result. -/
theorem some_eval (commands : Commands strhash File Outside) (body : List TermRef)
    (control : Control strhash (Machine File Outside)) :
    ((do return some (← eval commands body) :
        Routine strhash File Outside (Option (List TermRef))) control).Ends
      (fun _ after => Restored after control)
      fun e after => eval commands body control = .raise e after := by
  refine ends_bind ((neat_eval commands body control).mono (fun _ _ _ restored => restored)
    fun e after run _ => run) fun result after _ restored => restored

theorem catchRound_ends (commands : Commands strhash File Outside) (lp : TermRef)
    (body : List TermRef) (control : Control strhash (Machine File Outside)) :
    (catchRound commands lp body control).Ends (fun _ after => Restored after control)
      fun _ after => CatcherClear commands lp body control → Kept after.world control.world := by
  have neat := neat_eval commands body control.install
  have opens := eval_opens commands body control.install
  have ends := some_eval commands body control.install
  refine ends_exceptionHandler (ends.mono (fun _ _ _ restored => restored.same) ?_) ?_ ?_ ?_
  · intro e after _ run
    rw [run] at opens
    exact opens
  · intro result after popped run same shell world
    rw [run] at ends
    have restored : Restored after control.install := ends
    exact ⟨same, world ▸ restored.kept⟩
  · intro e after caught run settles landed same kept
    rw [run] at ends
    have raised : eval commands body control.install = .raise e after := ends
    rw [raised] at neat
    have restored : Restored caught control := ⟨same, kept.trans neat⟩
    refine (catchBody_ends commands lp e caught).mono (fun _ _ _ after => after.trans restored) ?_
    exact fun _ _ _ kept' clear =>
      (kept' (clear e after caught raised landed)).trans restored.kept
  · intro e after e' after' run unsettled kept _
    rw [run] at ends
    have raised : eval commands body control.install = .raise e after := ends
    rw [raised] at neat
    exact kept.trans neat

theorem catchRound_unbalanced {lp : TermRef} {body : List TermRef}
    (disturbed : ¬CatcherClear commands lp body control) :
    Unbalanced control (catchRound commands lp body control) := by
  rw [CatcherClear] at disturbed
  push Not at disturbed
  obtain ⟨frombody, after, caught, run, landed, disturbed⟩ := disturbed
  have neat := neat_eval commands body control.install
  have opens := eval_opens commands body control.install
  rw [run] at neat opens
  obtain ⟨levels, opened⟩ := opens
  have body_raise : (do return some (← eval commands body) :
      Routine strhash File Outside (Option (List TermRef))) control.install =
        .raise frombody after := bind_raise run
  have caught_kept : Kept caught.world after.world := by
    rcases throwTo_spec commands opened with
      ⟨caught', landed', -, -, kept⟩ | ⟨e, after', landed', -⟩
    · obtain ⟨-, rfl⟩ := Outcome.ret.inj (landed.symm.trans landed')
      exact kept
    · cases landed.symm.trans landed'
  have handled : catchRound commands lp body control = catchBody commands lp frombody caught := by
    rw [catchRound, exceptionHandler, body_raise]
    dsimp only
    rw [landed]
  rw [handled]
  exact (catchBody_unbalanced disturbed).of_kept (caught_kept.trans neat)

variable (commands) in
/-- The next round of the loop of `$&catch` starts in a state. -/
def Retried (lp : TermRef) (body : List TermRef)
    (before after : Control strhash (Machine File Outside)) : Prop :=
  catchRound commands lp body before = .ret none after

variable (commands) in
/-- No settor disturbs any of the rounds. -/
def CatchClear (lp : TermRef) (body : List TermRef)
    (control : Control strhash (Machine File Outside)) : Prop :=
  ∀ later, Relation.ReflTransGen (Retried commands lp body) (control.openRefs 2) later →
    CatcherClear commands lp body later

theorem catchLoop_balanced (rounds : Nat) {lp : TermRef} {body : List TermRef}
    (clear : ∀ later, Relation.ReflTransGen (Retried commands lp body) control later →
      CatcherClear commands lp body later) :
    Balanced control (catchLoop commands lp body rounds control) := by
  induction rounds generalizing control with
  | zero => exact Restored.refl control
  | succ rounds inductionHypothesis =>
    have round : Balanced control (catchRound commands lp body control) :=
      (catchRound_ends commands lp body control).mono (fun _ _ _ restored => restored)
        fun _ _ _ kept => kept (clear control .refl)
    refine balanced_bind round fun result after run restored => ?_
    cases result with
    | some result => exact Restored.refl after
    | none => exact inductionHypothesis fun later steps => clear later (.head run steps)

theorem catchLoop_unbalanced {later : Control strhash (Machine File Outside)} {lp : TermRef}
    {body : List TermRef} (steps : Relation.ReflTransGen (Retried commands lp body) control later)
    (disturbed : ¬CatcherClear commands lp body later) :
    ∃ rounds, Unbalanced control (catchLoop commands lp body rounds control) := by
  induction steps using Relation.ReflTransGen.head_induction_on with
  | refl => exact ⟨1, unbalanced_bind (catchRound_unbalanced disturbed)⟩
  | @head before after step _ inductionHypothesis =>
    obtain ⟨rounds, unbalanced⟩ := inductionHypothesis
    have restored : Restored after before := by
      have ends := catchRound_ends commands lp body before
      rw [show catchRound commands lp body before = .ret none after from step] at ends
      exact ends
    refine ⟨rounds + 1, ?_⟩
    rw [catchLoop, bind_ret step]
    exact unbalanced.of_kept restored.kept

end Routine

/-! ### All of them -/

namespace Evaluating

open Routine

variable {strhash : Text → Nat} {File Outside : Type}

/-- The condition under which a primitive keeps the stacks balanced. -/
def Clear (commands : Commands strhash File Outside) (system : System File Outside)
    (list : List TermRef) (control : Control strhash (Machine File Outside)) : Evaluating → Prop
  | .catch =>
      match list with
      | [] => True
      | lp :: body => CatchClear commands lp body control
  | .if => True
  | .seq => True
  | .openfile =>
      match list with
      | [mode, fd, file, cmd] =>
          RedirClear commands system (lit "$&openfile") (redir_openfile system)
            [fd, mode, file, cmd] control
      | _ => True
  | .dup =>
      list.length = 3 →
        RedirClear commands system (lit "$&dup") (redir_dup system (lit "$&dup")) list control
  | .close =>
      list.length = 2 → RedirClear commands system (lit "$&close") redir_close list control
  | .here =>
      2 ≤ list.length →
        RedirClear commands system (lit "$&here") (redir_here commands system (lit "$&here")) list
          control
  | .readfrom => True
  | .writeto =>
      match list with
      | [var, _, cmd] => WritetoClear commands system var cmd control
      | _ => True
  | .backquote => True

end Evaluating

namespace Routine

variable {strhash : Text → Nat} {File Outside : Type} {α β : Type}
  {commands : Commands strhash File Outside} {system : System File Outside}
  {control : Control strhash (Machine File Outside)}

/-- What a primitive does after `redir` leaves nothing behind. -/
theorem redir_balanced_iff {caller : Text} {rop : Rop strhash File Outside} {list : List TermRef}
    (tracked : control.world.process.Tracked) (neat : Neat (redirBegin system caller rop list))
    {rest : Listpid → Routine strhash File Outside α} (neat_rest : ∀ r, Neat (rest r)) :
    Balanced control ((redir commands system caller rop list >>= rest) control) ↔
      RedirClear commands system caller rop list control := by
  constructor
  · intro balanced
    by_contra disturbed
    exact (unbalanced_bind (redir_unbalanced tracked neat disturbed)).not_balanced balanced
  · exact fun clear => balanced_bind (redir_balanced tracked neat clear)
      fun r after _ _ => neat_rest r after

/-- The result of a primitive as `run` gives it. -/
theorem some_balanced_iff {routine : Routine strhash File Outside α} :
    Balanced control ((do return some (← routine) : Routine strhash File Outside (Option α))
      control) ↔ Balanced control (routine control) := by
  show Balanced control (match routine control with
    | .ret value control => .ret (some value) control
    | .raise e control => .raise e control
    | .abort => .abort : Outcome _ (Option α)) ↔ _
  cases routine control <;> exact Iff.rfl

theorem prim_openfile_balanced_iff (tracked : control.world.process.Tracked)
    (list : List TermRef) : Balanced control (prim_openfile commands system list control) ↔
      Evaluating.openfile.Clear commands system list control := by
  match list with
  | [mode, fd, file, cmd] =>
    exact redir_balanced_iff tracked (neat_redirBegin (neat_redir_openfile system mode file cmd))
      fun r => neat_pure r.l
  | [] | [_] | [_, _] | [_, _, _] | _ :: _ :: _ :: _ :: _ :: _ =>
    exact iff_of_true (neat_fail _ _ control) trivial

theorem prim_dup_balanced_iff (tracked : control.world.process.Tracked) (list : List TermRef) :
    Balanced control (prim_dup commands system list control) ↔
      Evaluating.dup.Clear commands system list control := by
  by_cases count : list.length = 3
  · rw [prim_dup, if_neg (not_not.mpr count)]
    have neat : Neat (redirBegin system (lit "$&dup")
        (redir_dup system (lit "$&dup") : Rop strhash File Outside) list) := by
      match list, count with
      | [newfd, oldfd, cmd], _ => exact neat_redirBegin (neat_redir_dup system _ oldfd cmd)
    exact (redir_balanced_iff tracked neat fun r => neat_pure r.l).trans
      ⟨fun clear _ => clear, fun clear => clear count⟩
  · rw [prim_dup, if_pos count]
    exact iff_of_true (neat_fail _ _ control) fun isCount => absurd isCount count

theorem prim_close_balanced_iff (tracked : control.world.process.Tracked) (list : List TermRef) :
    Balanced control (prim_close commands system list control) ↔
      Evaluating.close.Clear commands system list control := by
  by_cases count : list.length = 2
  · rw [prim_close, if_neg (not_not.mpr count)]
    have neat : Neat (redirBegin system (lit "$&close")
        (redir_close : Rop strhash File Outside) list) := by
      match list, count with
      | [fd, cmd], _ => exact neat_redirBegin (neat_pure _)
    exact (redir_balanced_iff tracked neat fun r => neat_pure r.l).trans
      ⟨fun clear _ => clear, fun clear => clear count⟩
  · rw [prim_close, if_pos count]
    exact iff_of_true (neat_fail _ _ control) fun isCount => absurd isCount count

theorem prim_here_balanced_iff (tracked : control.world.process.Tracked) (list : List TermRef) :
    Balanced control (prim_here commands system list control) ↔
      Evaluating.here.Clear commands system list control := by
  by_cases few : list.length < 2
  · rw [prim_here, if_pos few]
    exact iff_of_true (neat_fail _ _ control) fun many => absurd few (Nat.not_lt.mpr many)
  · rw [prim_here, if_neg few]
    have neat : Neat (redirBegin system (lit "$&here")
        (redir_here commands system (lit "$&here")) list) := by
      match list, few with
      | [], few => simp at few
      | [_], few => simp at few
      | fd :: word :: words, _ =>
        exact neat_redirBegin (neat_redir_here commands system _ (List.cons_ne_nil word words))
    refine (redir_balanced_iff tracked neat fun r => ?_).trans
      ⟨fun clear _ => clear, fun clear => clear (Nat.not_lt.mp few)⟩
    cases r.pid with
    | none => exact neat_pure r.l
    | some pid => exact (neat_ewait system pid).bind fun _ => neat_pure r.l

theorem prim_writeto_balanced_iff (list : List TermRef) :
    Balanced control (prim_writeto commands system list control) ↔
      Evaluating.writeto.Clear commands system list control := by
  match list with
  | [var, input, cmd] =>
    constructor
    · intro balanced
      by_contra returning
      exact (prim_writeto_unbalanced returning).not_balanced balanced
    · exact prim_writeto_balanced
  | [] | [_] | [_, _] | _ :: _ :: _ :: _ :: _ => exact iff_of_true (neat_fail _ _ control) trivial

theorem prim_catch_balanced_iff (list : List TermRef) :
    (∀ rounds, Balanced control (prim_catch commands rounds list control)) ↔
      Evaluating.catch.Clear commands system list control := by
  match list with
  | [] => exact iff_of_true (fun _ => neat_fail _ _ control) trivial
  | lp :: body =>
    constructor
    · intro balanced later steps
      by_contra disturbed
      obtain ⟨rounds, unbalanced⟩ := catchLoop_unbalanced steps disturbed
      exact (unbalanced_refs unbalanced).not_balanced (balanced rounds)
    · exact fun clear rounds => refs_balanced (catchLoop_balanced rounds clear)

end Routine

namespace Evaluating

open Routine

variable {strhash : Text → Nat} {File Outside : Type}

/-- Whatever commands do, a primitive that evaluates one keeps the control stacks balanced exactly
if no settor disturbs its handler, where it has something to undo, and, for `$&writeto`, the
command does not return. -/
theorem run_balanced_iff (commands : Commands strhash File Outside)
    (system : System File Outside) (primitive : Evaluating) (list : List TermRef)
    (control : Control strhash (Machine File Outside))
    (tracked : control.world.process.Tracked) :
    (∀ rounds, Balanced control (primitive.run commands system rounds list control)) ↔
      primitive.Clear commands system list control := by
  have once : ∀ {routine : Routine strhash File Outside (List TermRef)},
      (Nat → Balanced control ((do return some (← routine) :
        Routine strhash File Outside (Option (List TermRef))) control)) ↔
        Balanced control (routine control) :=
    (forall_const Nat).trans some_balanced_iff
  cases primitive with
  | «catch» => exact prim_catch_balanced_iff list
  | «if» => exact once.trans (iff_of_true (neat_prim_if commands system list control) trivial)
  | seq => exact once.trans (iff_of_true (neat_prim_seq commands system list control) trivial)
  | openfile => exact once.trans (prim_openfile_balanced_iff tracked list)
  | dup => exact once.trans (prim_dup_balanced_iff tracked list)
  | close => exact once.trans (prim_close_balanced_iff tracked list)
  | here => exact once.trans (prim_here_balanced_iff tracked list)
  | readfrom =>
    exact once.trans (iff_of_true (neat_prim_readfrom commands system list control) trivial)
  | writeto => exact once.trans (prim_writeto_balanced_iff list)
  | backquote =>
    exact once.trans (iff_of_true (neat_prim_backquote commands system list control) trivial)

/-! ### Examples -/

/-- Every command returns. -/
def returning : Commands List.length Unit Unit where
  behave := fun list shell world => .ret list shell world
  ret_kept := by
    rintro list shell world _ _ _ ⟨⟩
    exact Kept.refl world
  raise_kept := by
    rintro list shell world _ _ _ _ ⟨⟩

/-- Every command pushes `x` and raises an exception. -/
def raising : Commands List.length Unit Unit where
  behave := fun list shell world =>
    .raise ⟨list.headD 0, []⟩ shell world [.push ⟨lit "x", [], false, false⟩]
  ret_kept := by
    rintro list shell world _ _ _ ⟨⟩
  raise_kept := by
    rintro list shell world _ _ _ _ ⟨⟩
    exact Kept.refl world

/-- A system where every call succeeds. -/
def obliging : System Unit Unit where
  «open» := fun _ _ table _ => (.ok 3, table, ())
  dup := fun _ table _ => (.ok 3, table, ())
  pipe := fun table _ => (.ok (3, 4), table, ())
  fork := fun table _ => (.ok 100, table, ())
  waitpid := fun _ table _ => (.ok 0, table, ())
  eread := fun _ _ => ([], none, ())
  sigchk := fun _ => (none, ())
  strtol := fun _ => (1, [])
  strerror := fun _ => []
  mkstatus := fun _ => lit "0"
  getstr := fun _ _ => lit "x"
  ltrue := []

/-- A shell where `x` has a settor, and no descriptor is registered. -/
def quiet : Control List.length (Machine Unit Unit) :=
  (Control.bottom Control.withSettor ⟨⟨⟨[]⟩, [], 0, [], fun _ => none⟩, 0, ()⟩ [] 0).install

theorem run_balanced_seq :
    Balanced quiet (Evaluating.seq.run returning obliging 0 [0] quiet) :=
  (run_balanced_iff returning obliging .seq [0] quiet ⟨nofun, nofun⟩).mpr trivial 0

/-- `$&writeto` fails an assertion, and `$&close` leaves its entry when a settor fails. -/
theorem not_balanced_writeto :
    (¬∀ rounds, Balanced quiet (Evaluating.writeto.run returning obliging rounds [0, 0, 0] quiet)) ∧
      ¬∀ rounds, Balanced quiet (Evaluating.close.run raising obliging rounds [0, 0] quiet) := by
  have aborts : (match Evaluating.writeto.run returning obliging 0 [0, 0, 0] quiet with
      | .abort => true
      | _ => false) = true := by decide +kernel
  have leaves : (match Evaluating.close.run raising obliging 0 [0, 0] quiet with
      | .raise _ after => after.world.process.deftab == [⟨none, 1⟩]
      | _ => false) = true := by decide +kernel
  constructor
  · intro balanced
    have balanced := balanced 0
    cases outcome : Evaluating.writeto.run returning obliging 0 [0, 0, 0] quiet with
    | abort =>
      rw [outcome] at balanced
      exact balanced
    | ret value after =>
      rw [outcome] at aborts
      cases aborts
    | raise e after =>
      rw [outcome] at aborts
      cases aborts
  · intro balanced
    have balanced := balanced 0
    cases outcome : Evaluating.close.run raising obliging 0 [0, 0] quiet with
    | raise e after =>
      rw [outcome] at balanced leaves
      have deftab : after.world.process.deftab = [] := Kept.deftab balanced
      dsimp only at leaves
      rw [deftab] at leaves
      cases leaves
    | ret value after =>
      rw [outcome] at leaves
      cases leaves
    | abort =>
      rw [outcome] at leaves
      cases leaves

end Evaluating

end Desh
