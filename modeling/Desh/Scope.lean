/-
This file proves what leaving a dynamic scope restores. Between the installation
of a handler and the exit the shell opens levels and closes the ones it opened,
and any code may run in between. Both ways out pop the same records in the same
order, so each name ends with what the first of its records saved.
-/

import Desh.Unwinding

namespace Desh

namespace Control

variable {strhash : Text → Nat} {World : Type} {commands : Evaluator strhash World}

/-! ### Code between two levels -/

variable (commands) in
/-- A step of the code that runs once a handler is installed, with the levels that it has opened
since. `run` is any code that closes what it opens, be it assignments or whole commands. -/
inductive Step :
    List Level × Control strhash World → List Level × Control strhash World → Prop where
  | run (levels : List Level) (control : Control strhash World) (shell : Shell strhash)
      (world : World) : Step (levels, control) (levels, control.adopt shell world)
  | vardef {control after : Control strhash World} (levels : List Level) (name : Text)
      (defn : List TermRef) (defined : vardef commands name defn control = .ret () after) :
      Step (levels, control) (levels, after)
  | ref (levels : List Level) (control : Control strhash World) (address : Nat) :
      Step (levels, control) (.ref address :: levels, control.enter (.ref address))
  | refEnd (levels : List Level) (control : Control strhash World) (address : Nat) :
      Step (.ref address :: levels, control)
        (levels, { control with rootlist := control.rootlist.tail })
  | eval (levels : List Level) (control : Control strhash World) :
      Step (levels, control) (.eval :: levels, control.enter .eval)
  | evalEnd (levels : List Level) (control : Control strhash World) :
      Step (.eval :: levels, control) (levels, { control with evaldepth := control.evaldepth - 1 })
  | varpush {control after : Control strhash World} {push : Push} (levels : List Level)
      (name : Text) (defn : List TermRef)
      (pushed : varpush commands name defn control = .ret () after)
      (record : after.shell.pushlist.head? = some push) :
      Step (levels, control) (.push push :: levels, after)
  | varpop {control after : Control strhash World} (push : Push) (levels : List Level)
      (popped : varpop commands control = .ret () after) :
      Step (.push push :: levels, control) (levels, after)

variable (commands) in
/-- Leave the levels of a list in order: what remains of the functions that have opened them. -/
def leave : List Level → Control strhash World → Outcome (Control strhash World) Unit
  | [], control => .ret () control
  | .ref address :: levels, control =>
      if control.rootlist.head? = some (.ref address) then
        leave levels { control with rootlist := control.rootlist.tail }
      else .abort
  | .eval :: levels, control => leave levels { control with evaldepth := control.evaldepth - 1 }
  | .push _ :: levels, control =>
      match varpop commands control with
      | .ret () control => leave levels control
      | .raise e control => .raise e control
      | .abort => .abort

/-! ### The levels stay known -/

theorem toDefnroot_eq {control base : Control strhash World} {push : Push}
    (opened : SameStacks control (base.enter (.push push))) : control.toDefnroot = control := by
  obtain ⟨shell, world, nameroots, rootlist, tophandler, evaldepth⟩ := control
  have pushlist : shell.pushlist = push :: base.shell.pushlist := opened.pushlist
  have isNameroots : nameroots = base.rootlist :: base.nameroots := opened.nameroots
  have isRootlist : rootlist = .defnroot base.shell.pushlist.length ::
      .nameroot base.shell.pushlist.length :: base.rootlist := opened.rootlist
  simp [toDefnroot, pushlist, isNameroots, isRootlist]

theorem varpop_spec {control after base : Control strhash World} {push : Push}
    (opened : SameStacks control (base.enter (.push push)))
    (popped : varpop commands control = .ret () after) : SameStacks after base := by
  have pushlist : control.shell.pushlist = push :: base.shell.pushlist := opened.pushlist
  have nameroots : control.nameroots = base.rootlist :: base.nameroots := opened.nameroots
  have popping := varpop_toDefnroot commands pushlist nameroots
  rw [toDefnroot_eq opened, popped] at popping
  rcases popping with ⟨after', same, pushlist', nameroots', rootlist', tophandler', evaldepth'⟩ |
    ⟨e, after', levels, same, -⟩
  · obtain ⟨-, rfl⟩ := Outcome.ret.inj same
    exact ⟨pushlist', nameroots', rootlist', tophandler'.trans opened.tophandler,
      evaldepth'.trans opened.evaldepth⟩
  · cases same

theorem validated_ret {Value : Type} {name : Text} {control after : Control strhash World}
    {next : Outcome (Control strhash World) Value} {value : Value}
    (returns : control.validated name next = .ret value after) : next = .ret value after := by
  rw [validated] at returns
  split at returns
  · exact returns
  · cases returns
  · cases returns

theorem varpush_spec {control after : Control strhash World} {name : Text} {defn : List TermRef}
    (pushed : varpush commands name defn control = .ret () after) :
    ∃ push, SameStacks after (control.enter (.push push)) := by
  have run := validated_ret pushed
  rcases callsettor_spec commands name defn (control.linkName.markDirty name) with
    ⟨result, called, call, same⟩ | ⟨e, called, levels, call, -⟩
  · rw [call] at run
    obtain ⟨-, rfl⟩ := Outcome.ret.inj run
    exact ⟨_, varpushEnd_sameStacks _ _ (same.trans (markDirty_sameStacks ..))⟩
  · rw [call] at run
    cases run

theorem vardef_spec {control after : Control strhash World} {name : Text} {defn : List TermRef}
    (defined : vardef commands name defn control = .ret () after) : SameStacks after control := by
  have run := validated_ret defined
  rcases callsettor_spec commands name defn control with
    ⟨result, called, call, same⟩ | ⟨e, called, levels, call, -⟩
  · rw [call] at run
    obtain ⟨-, rfl⟩ := Outcome.ret.inj run
    refine ⟨?_, same.nameroots, same.rootlist, same.tophandler, same.evaldepth⟩
    rw [← same.pushlist]
    show (called.shell.define name result).pushlist = _
    have marked := (markDirty_sameStacks called name).pushlist
    dsimp only [Shell.define]
    split <;> exact marked
  · rw [call] at run
    cases run

/-- A step keeps the stacks what the open levels make of them. -/
theorem Step.sameStacks {base : Control strhash World}
    {before after : List Level × Control strhash World} (step : Step commands before after)
    (known : SameStacks before.2 (base.enterAll before.1)) :
    SameStacks after.2 (base.enterAll after.1) := by
  cases step with
  | run levels control shell world =>
    have adopted : SameStacks (control.adopt shell world) control := ⟨rfl, rfl, rfl, rfl, rfl⟩
    exact adopted.trans known
  | vardef levels name defn defined => exact (vardef_spec defined).trans known
  | ref levels control address => exact known.enter (.ref address)
  | refEnd levels control address =>
    exact ⟨known.pushlist, known.nameroots, congrArg List.tail known.rootlist, known.tophandler,
      known.evaldepth⟩
  | eval levels control => exact known.enter .eval
  | evalEnd levels control =>
    exact ⟨known.pushlist, known.nameroots, known.rootlist, known.tophandler,
      congrArg (· - 1) known.evaldepth⟩
  | varpush levels name defn pushed record =>
    obtain ⟨push, opened⟩ := varpush_spec pushed
    rw [opened.pushlist] at record
    obtain rfl := Option.some.inj record
    exact opened.trans (known.enter _)
  | varpop push levels popped => exact varpop_spec known popped

variable (commands) in
/-- Any number of steps. -/
abbrev Steps : List Level × Control strhash World → List Level × Control strhash World → Prop :=
  Relation.ReflTransGen (Step commands)

theorem Steps.sameStacks {base : Control strhash World}
    {before after : List Level × Control strhash World} (steps : Steps commands before after)
    (known : SameStacks before.2 (base.enterAll before.1)) :
    SameStacks after.2 (base.enterAll after.1) := by
  induction steps with
  | refl => exact known
  | tail steps step inductionHypothesis => exact step.sameStacks inductionHypothesis

/-! ### What the records restore -/

/-- What `varpop` makes of a variable with a definition: an empty one counts as none. -/
def restored (push : Push) : Option Var :=
  if push.defn = [] then none else some ⟨push.defn, none, push.hasbindings, push.isinternal⟩

/-- The variables after all records of some levels have been popped. -/
def restores : List Level → (Text → Option Var) → Text → Option Var
  | [], vars => vars
  | .push push :: levels, vars => restores levels (Function.update vars push.name (restored push))
  | .ref _ :: levels, vars => restores levels vars
  | .eval :: levels, vars => restores levels vars

/-- No name of a record has a settor, neither now nor in what the records restore. -/
def Settorless (levels : List Level) (vars : Text → Option Var) : Prop :=
  ∀ push, .push push ∈ levels → specialvar push.name = true ∨
    (∀ var, vars (lit "set-" ++ push.name) = some var → var.defn = []) ∧
      ∀ saved, .push saved ∈ levels → saved.name = lit "set-" ++ push.name → saved.defn = []

theorem get_varpopEnd (shell : Shell strhash) (push : Push) :
    (shell.varpopEnd push push.defn).vars.get =
      Function.update shell.vars.get push.name (restored push) := by
  funext name
  rw [Function.update_apply, restored]
  unfold Shell.varpopEnd
  cases found : shell.vars.get push.name <;> cases push.defn <;>
    by_cases same : name = push.name <;> simp [Dictionary.get_put, same, found]

theorem vars_markDirty (control : Control strhash World) (name : Text) :
    (control.markDirty name).shell.vars = control.shell.vars := by
  show (control.shell.markDirty name).vars = _
  rw [Shell.markDirty]
  split_ifs <;> rfl

theorem callsettor_settorless {control : Control strhash World} {name : Text}
    (settorless : specialvar name = true ∨
      ∀ var, control.shell.vars.get (lit "set-" ++ name) = some var → var.defn = [])
    (defn : List TermRef) : callsettor commands name defn control = .ret defn control := by
  rw [callsettor]
  split_ifs with special
  · rfl
  · have none : control.varlookup2 (lit "set-") name = [] := by
      rw [varlookup2]
      cases found : control.shell.vars.get (lit "set-" ++ name) with
      | none => rfl
      | some var => exact (settorless.resolve_left special) var found
    rw [none]

/-- `varpop` of a record whose name has no settor. -/
theorem varpop_settorless (commands : Evaluator strhash World)
    {control base : Control strhash World} {push : Push}
    (opened : SameStacks control (base.enter (.push push)))
    (settorless : specialvar push.name = true ∨
      ∀ var, control.shell.vars.get (lit "set-" ++ push.name) = some var → var.defn = []) :
    ∃ after, varpop commands control = .ret () after ∧ SameStacks after base ∧
      after.shell.vars.get =
        Function.update control.shell.vars.get push.name (restored push) := by
  have called : callsettor commands push.name push.defn (control.markDirty push.name) =
      .ret push.defn (control.markDirty push.name) := by
    refine callsettor_settorless ?_ push.defn
    rwa [vars_markDirty]
  obtain ⟨popped, pop, same, shell⟩ :=
    varpopWith_ret opened called (markDirty_sameStacks control push.name)
  refine ⟨popped, pop, same, ?_⟩
  rw [shell, get_varpopEnd, vars_markDirty]

theorem Settorless.head {push : Push} {levels : List Level} {vars : Text → Option Var}
    (settorless : Settorless (.push push :: levels) vars) : specialvar push.name = true ∨
      ∀ var, vars (lit "set-" ++ push.name) = some var → var.defn = [] :=
  (settorless push List.mem_cons_self).imp_right And.left

/-- A name that has no settor gets none when a record is popped. -/
theorem Settorless.tail {push : Push} {levels : List Level} {vars : Text → Option Var}
    (settorless : Settorless (.push push :: levels) vars) :
    Settorless levels (Function.update vars push.name (restored push)) := by
  intro other member
  refine (settorless other (List.mem_cons_of_mem _ member)).imp_right ?_
  rintro ⟨now, saved⟩
  refine ⟨fun var found => ?_, fun record listed => saved record (List.mem_cons_of_mem _ listed)⟩
  by_cases same : lit "set-" ++ other.name = push.name
  · rw [same, Function.update_self, restored, if_pos (saved push List.mem_cons_self same.symm)]
      at found
    cases found
  · rw [Function.update_of_ne same] at found
    exact now var found

theorem Settorless.of_cons {level : Level} {levels : List Level} {vars : Text → Option Var}
    (settorless : Settorless (level :: levels) vars) : Settorless levels vars := by
  intro push member
  refine (settorless push (List.mem_cons_of_mem _ member)).imp_right ?_
  exact fun clear => ⟨clear.1, fun saved listed => clear.2 saved (List.mem_cons_of_mem _ listed)⟩

/-! ### The two ways out -/

/-- The stacks and variables of `control` are those of `base`, with what the records of some levels
restore. -/
structure Left (base control : Control strhash World) (vars : Text → Option Var) : Prop where
  same : SameStacks control base
  vars : control.shell.vars.get = vars

theorem leave_left (commands : Evaluator strhash World) {base control : Control strhash World}
    {levels : List Level}
    (opened : SameStacks control (base.enterAll levels))
    (settorless : Settorless levels control.shell.vars.get) :
    ∃ after, leave commands levels control = .ret () after ∧
      Left base after (restores levels control.shell.vars.get) := by
  induction levels generalizing control with
  | nil => exact ⟨control, rfl, opened, rfl⟩
  | cons level levels inductionHypothesis =>
    cases level with
    | ref address =>
      have rootlist : control.rootlist = .ref address :: (base.enterAll levels).rootlist :=
        opened.rootlist
      rw [leave, rootlist, List.head?_cons, if_pos rfl, List.tail_cons]
      exact inductionHypothesis ⟨opened.pushlist, opened.nameroots, rfl, opened.tophandler,
        opened.evaldepth⟩ settorless.of_cons
    | eval =>
      rw [leave]
      exact inductionHypothesis ⟨opened.pushlist, opened.nameroots, opened.rootlist,
        opened.tophandler, congrArg (· - 1) opened.evaldepth⟩ settorless.of_cons
    | push push =>
      obtain ⟨popped, pop, same, vars⟩ :=
        varpop_settorless commands opened settorless.head
      obtain ⟨after, run, left⟩ := inductionHypothesis same (vars ▸ settorless.tail)
      rw [leave, pop]
      exact ⟨after, run, left.same, left.vars.trans (by rw [restores, vars])⟩

/-- The handler an `ExceptionHandler` installs. -/
def handler (outer : Control strhash World) : Handler :=
  ⟨outer.rootlist, outer.shell.pushlist.length, outer.evaldepth⟩

theorem enterAll_install (outer : Control strhash World) (levels : List Level) :
    outer.install.enterAll levels =
      { outer.enterAll levels with tophandler := outer.handler :: outer.tophandler } := by
  induction levels with
  | nil => rfl
  | cons level levels inductionHypothesis =>
    show (outer.install.enterAll levels).enter level = _
    rw [inductionHypothesis]
    cases level <;> rfl

theorem unwind_left {outer control : Control strhash World} {levels : List Level}
    {onward : Exception → Control strhash World → Landing (Control strhash World)} (e : Exception)
    (pushlist : control.shell.pushlist = (outer.enterAll levels).shell.pushlist)
    (nameroots : control.nameroots = (outer.enterAll levels).nameroots)
    (rootlist : outer.rootlist <:+ control.rootlist)
    (tophandler : control.tophandler = outer.tophandler)
    (settorless : Settorless levels control.shell.vars.get) :
    ∃ after, unwind commands outer.handler onward e
        (control.shell.pushlist.length - outer.shell.pushlist.length) control =
          .caught outer.handler e after ∧
      Left outer after (restores levels control.shell.vars.get) := by
  induction levels generalizing control with
  | nil =>
    have isPushlist : control.shell.pushlist = outer.shell.pushlist := pushlist
    have suffix : outer.handler.rootlist <:+ control.rootlist := rootlist
    rw [isPushlist, Nat.sub_self, unwind, jump, if_pos suffix]
    exact ⟨_, rfl, ⟨pushlist, nameroots, rfl, tophandler, rfl⟩, rfl⟩
  | cons level levels inductionHypothesis =>
    cases level with
    | ref address =>
      exact inductionHypothesis pushlist nameroots rootlist tophandler settorless.of_cons
    | eval => exact inductionHypothesis pushlist nameroots rootlist tophandler settorless.of_cons
    | push push =>
      -- the record's own roots are put back before it is popped
      let below : Control strhash World := { outer.enterAll levels with
        tophandler := control.tophandler
        evaldepth := control.evaldepth }
      have isPushlist : control.shell.pushlist = push :: below.shell.pushlist := pushlist
      have isNameroots : control.nameroots = below.rootlist :: below.nameroots := nameroots
      have opened : SameStacks control.toDefnroot (below.enter (.push push)) := by
        refine ⟨isPushlist, isNameroots, ?_, rfl, rfl⟩
        simp [toDefnroot, isPushlist, isNameroots, enter, link]
      obtain ⟨popped, pop, same, vars⟩ :=
        varpop_settorless commands opened settorless.head
      have known : popped.shell.pushlist = (outer.enterAll levels).shell.pushlist := same.pushlist
      have above : outer.shell.pushlist.length ≤ popped.shell.pushlist.length := by
        rw [known]
        exact (pushlist_enterAll outer levels).length_le
      have count : control.shell.pushlist.length - outer.shell.pushlist.length =
          popped.shell.pushlist.length - outer.shell.pushlist.length + 1 := by
        rw [isPushlist, List.length_cons, same.pushlist] at *
        omega
      obtain ⟨after, run, left⟩ := inductionHypothesis known same.nameroots
        (same.rootlist ▸ rootlist_enterAll outer levels) (same.tophandler.trans tophandler)
        (vars ▸ settorless.tail)
      rw [count, unwind, pop]
      refine ⟨after, run, left.same, left.vars.trans ?_⟩
      rw [restores, vars]
      rfl

/-- What is left of a variable: nothing, if its definition is empty. -/
def reinstated (var : Option Var) : Option Var :=
  (var.filter fun var => var.defn ≠ []).map fun var => { var with env := none }

theorem restored_savedPush (shell : Shell strhash) (name : Text) :
    restored (savedPush shell name) = reinstated (shell.vars.get name) := by
  rw [savedPush, restored, reinstated]
  cases shell.vars.get name with
  | none => rfl
  | some var => by_cases empty : var.defn = [] <;> simp [empty]

/-- The first record of a name decides. -/
theorem restores_append (above below : List Level) (push : Push) (vars : Text → Option Var)
    (first : ∀ other, .push other ∈ below → other.name ≠ push.name) :
    restores (above ++ .push push :: below) vars push.name = restored push := by
  have others : ∀ (levels : List Level) (vars : Text → Option Var),
      (∀ other, .push other ∈ levels → other.name ≠ push.name) →
      restores levels vars push.name = vars push.name := by
    intro levels
    induction levels with
    | nil => exact fun vars first => rfl
    | cons level levels inductionHypothesis =>
      intro vars first
      have later := fun other member => first other (List.mem_cons_of_mem level member)
      cases level with
      | ref address => exact inductionHypothesis vars later
      | eval => exact inductionHypothesis vars later
      | push other =>
        refine (inductionHypothesis _ later).trans ?_
        exact Function.update_of_ne (first other List.mem_cons_self).symm ..
  induction above generalizing vars with
  | nil => exact (others below _ first).trans (Function.update_self ..)
  | cons level above inductionHypothesis =>
    cases level <;> exact inductionHypothesis _

/-- The record of a name that has no settor. -/
theorem varpush_settorless {control after : Control strhash World} {name : Text}
    {defn : List TermRef} (pushed : varpush commands name defn control = .ret () after)
    (settorless : specialvar name = true ∨
      ∀ var, control.shell.vars.get (lit "set-" ++ name) = some var → var.defn = []) :
    SameStacks after (control.enter (.push (savedPush control.shell name))) := by
  have run := validated_ret pushed
  have vars : (control.linkName.markDirty name).shell.vars = control.shell.vars :=
    vars_markDirty control.linkName name
  rw [callsettor_settorless (by rw [vars]; exact settorless)] at run
  obtain ⟨-, rfl⟩ := Outcome.ret.inj run
  have opened := varpushEnd_sameStacks name defn (markDirty_sameStacks control.linkName name)
  rwa [savedPush, vars] at opened

/-- Leaving a dynamic scope, by `throw_exception` to the handler installed outside of it or level by
level, restores the stacks and each name pushed in it: to the definition it had when it was first
pushed, if that was not empty. -/
theorem scope_restored {outer control pushed inner : Control strhash World}
    {below above : List Level} {name : Text} {defn : List TermRef}
    (first : Steps commands ([], outer.install) (below, control))
    (unpushed : ∀ push, .push push ∈ below → push.name ≠ name)
    (unset : specialvar name = true ∨
      ∀ var, control.shell.vars.get (lit "set-" ++ name) = some var → var.defn = [])
    (push : varpush commands name defn control = .ret () pushed)
    (rest : Steps commands ([], pushed) (above, inner))
    (settorless : Settorless (above ++ .push (savedPush control.shell name) :: below)
      inner.shell.vars.get) (e : Exception) :
    (∃ after, throw_exception commands e inner = .caught outer.handler e after ∧
        SameStacks after outer ∧
        after.shell.vars.get name = reinstated (control.shell.vars.get name)) ∧
      ∃ after, leave commands (above ++ .push (savedPush control.shell name) :: below) inner =
          .ret () after ∧
        SameStacks after outer.install ∧
        after.shell.vars.get name = reinstated (control.shell.vars.get name) := by
  have isName : (savedPush control.shell name).name = name := by
    rw [savedPush]
    cases control.shell.vars.get name <;> rfl
  have opened : SameStacks inner
      (outer.install.enterAll (above ++ .push (savedPush control.shell name) :: below)) := by
    have known := first.sameStacks (SameStacks.refl _)
    have inside := (varpush_settorless push unset).trans (known.enter _)
    rw [enterAll_append]
    exact (rest.sameStacks (SameStacks.refl _)).trans (inside.enterAll above)
  have value : restores (above ++ .push (savedPush control.shell name) :: below)
      inner.shell.vars.get name = reinstated (control.shell.vars.get name) := by
    have decided := restores_append above below (savedPush control.shell name)
      inner.shell.vars.get fun other member => by rw [isName]; exact unpushed other member
    rw [isName] at decided
    rw [decided, restored_savedPush]
  constructor
  · rw [enterAll_install] at opened
    have tophandler : inner.tophandler = outer.handler :: outer.tophandler := opened.tophandler
    have pushlist : inner.shell.pushlist = (outer.enterAll _).shell.pushlist := opened.pushlist
    have fits : ¬inner.shell.pushlist.length < outer.handler.pushlist := by
      rw [pushlist, Nat.not_lt]
      exact (pushlist_enterAll outer _).length_le
    have rootlist : outer.rootlist <:+ inner.rootlist := by
      rw [opened.rootlist]
      exact rootlist_enterAll outer _
    rw [throw_exception, tophandler, throwException, if_neg fits]
    let unwinding : Control strhash World := { inner with tophandler := outer.tophandler }
    obtain ⟨after, run, left⟩ : ∃ after, unwind commands outer.handler
        (throwException commands outer.tophandler) e
        (unwinding.shell.pushlist.length - outer.shell.pushlist.length) unwinding =
          .caught outer.handler e after ∧ Left outer after _ :=
      unwind_left e pushlist opened.nameroots rootlist rfl settorless
    exact ⟨after, run, left.same, by rw [left.vars, ← value]⟩
  · obtain ⟨after, run, left⟩ := leave_left commands opened settorless
    exact ⟨after, run, left.same, by rw [left.vars, value]⟩

/-- Commands that do nothing. -/
def idleCommands : Evaluator List.length Unit := fun list shell world => .ret list shell world

/-- A shell in which `x` is defined. -/
def defined : Control List.length Unit :=
  bottom { Shell.initvars with
    heap := ⟨[.str (lit "old"), .str (lit "new")], []⟩
    vars := Dictionary.mkdict.put (lit "x") (some ⟨[0], none, false, false⟩) } () [] 0

/-- `local (x = new)` in it. -/
def redefined : Control List.length Unit :=
  (defined.install.linkName.markDirty (lit "x")).varpushEnd (lit "x") [1] []

/-- The old definition of `x` is back. -/
theorem scope_restored_redefined :
    (∃ after, throw_exception idleCommands ⟨1, []⟩ redefined =
          .caught defined.handler ⟨1, []⟩ after ∧ SameStacks after defined ∧
        after.shell.vars.get (lit "x") = some ⟨[0], none, false, false⟩) ∧
      ∃ after, leave idleCommands [.push ⟨lit "x", [0], false, false⟩] redefined = .ret () after ∧
        SameStacks after defined.install ∧
        after.shell.vars.get (lit "x") = some ⟨[0], none, false, false⟩ := by
  have old : defined.install.shell.vars.get (lit "x") = some ⟨[0], none, false, false⟩ := by
    decide +kernel
  have record : savedPush defined.install.shell (lit "x") = ⟨lit "x", [0], false, false⟩ := by
    rw [savedPush, old]
  have none : redefined.shell.vars.get (lit "set-" ++ lit "x") = none := by decide +kernel
  have settorless : Settorless ([] ++ [.push (savedPush defined.install.shell (lit "x"))])
      redefined.shell.vars.get := by
    intro push member
    rw [record, List.nil_append, List.mem_singleton] at member
    obtain rfl := Level.push.inj member
    refine .inr ⟨fun var found => absurd (none.symm.trans found) (by simp), ?_⟩
    intro saved listed isSettor
    rw [record, List.nil_append, List.mem_singleton] at listed
    obtain rfl := Level.push.inj listed
    exact absurd isSettor (by decide)
  have unset : ∀ var, defined.install.shell.vars.get (lit "set-" ++ lit "x") = some var →
      var.defn = [] := by
    have none : defined.install.shell.vars.get (lit "set-" ++ lit "x") = Option.none := by
      decide +kernel
    exact fun var found => absurd (none.symm.trans found) (by simp)
  have pushed : varpush idleCommands (lit "x") [1] defined.install = .ret () redefined := rfl
  have both := scope_restored .refl (fun push member => by cases member)
    (.inr unset) pushed .refl settorless ⟨1, []⟩
  rwa [record, old] at both

/-- A shell in which `x` is bound by `local (x = )`. -/
def emptied : Control List.length Unit :=
  ((bottom Shell.initvars () [] 0).linkName.markDirty (lit "x")).varpushEnd (lit "x") [] []

/-- The variable is there, with an empty definition, when it is pushed, and is gone afterwards. -/
theorem not_restored_emptied :
    (emptied.shell.vars.get (lit "x")).isSome = true ∧
      ∃ pushed after, varpush idleCommands (lit "x") [0] emptied.install = .ret () pushed ∧
        throw_exception idleCommands ⟨0, []⟩ pushed = .caught emptied.handler ⟨0, []⟩ after ∧
        after.shell.vars.get (lit "x") = none := by
  refine ⟨by decide +kernel, _, _, rfl, rfl, ?_⟩
  decide +kernel

end Control

end Desh
