/-
This file proves what the primitives that evaluate a command leave behind. Each
part of a primitive is given two postconditions, one for its return and one for
the exceptions it raises; an assertion that fails meets neither.

An exception reaches the handler of a primitive unless a settor raises another
one while the records above the handler are popped. Then the code after
`CatchException` does not run, and what it would have undone stays.
-/

import Desh.Fdmap
import Desh.Scope
import Desh.Primitives

namespace Desh

/-! ### Postconditions -/

namespace Outcome

variable {State α β : Type}

/-- A function returns with `post`, or raises an exception with `exc`. -/
def Ends (post : α → State → Prop) (exc : Exception → State → Prop) : Outcome State α → Prop
  | .ret value after => post value after
  | .raise e after => exc e after
  | .abort => False

variable {post : α → State → Prop} {exc : Exception → State → Prop}

theorem Ends.mono {outcome : Outcome State α} (ends : outcome.Ends post exc)
    {post' : α → State → Prop} {exc' : Exception → State → Prop}
    (returns : ∀ value after, outcome = .ret value after → post value after → post' value after)
    (raises : ∀ e after, outcome = .raise e after → exc e after → exc' e after) :
    outcome.Ends post' exc' := by
  cases outcome with
  | ret value after => exact returns value after rfl ends
  | raise e after => exact raises e after rfl ends
  | abort => exact ends

end Outcome

open Outcome

namespace Routine

variable {strhash : Text → Nat} {File Outside : Type} {α β : Type}
  {control : Control strhash (Machine File Outside)}
  {post : α → Control strhash (Machine File Outside) → Prop}
  {exc : Exception → Control strhash (Machine File Outside) → Prop}

theorem ends_bind {first : Routine strhash File Outside α}
    {next : α → Routine strhash File Outside β}
    {post' : β → Control strhash (Machine File Outside) → Prop}
    (ends : (first control).Ends post exc)
    (onward : ∀ value after, first control = .ret value after → post value after →
      (next value after).Ends post' exc) :
    ((first >>= next) control).Ends post' exc := by
  dsimp only [bind]
  cases outcome : first control with
  | ret value after =>
    rw [outcome] at ends
    exact onward value after outcome ends
  | raise e after =>
    rw [outcome] at ends
    exact ends
  | abort =>
    rw [outcome] at ends
    exact ends

theorem bind_ret {first : Routine strhash File Outside α}
    {next : α → Routine strhash File Outside β}
    {value : α} {after : Control strhash (Machine File Outside)}
    (returns : first control = .ret value after) :
    (first >>= next) control = next value after := by
  dsimp only [bind]
  rw [returns]

theorem bind_raise {first : Routine strhash File Outside α}
    {next : α → Routine strhash File Outside β} {e : Exception}
    {after : Control strhash (Machine File Outside)} (raises : first control = .raise e after) :
    (first >>= next) control = .raise e after := by
  dsimp only [bind]
  rw [raises]

end Routine

/-! ### The machine is kept -/

section

variable {File Outside : Type}

@[refl] theorem Kept.refl (machine : Machine File Outside) : Kept machine machine :=
  ⟨rfl, List.Perm.refl _, rfl⟩

theorem Kept.trans {a b c : Machine File Outside} (first : Kept a b) (second : Kept b c) :
    Kept a c :=
  ⟨first.deftab.trans second.deftab, first.reserved.trans second.reserved,
    first.blocked.trans second.blocked⟩

end

namespace Control

variable {strhash : Text → Nat} {File Outside : Type} {α : Type}
  {commands : Commands strhash File Outside} {control : Control strhash (Machine File Outside)}

/-- However a function ends, it has kept the machine. -/
def Keeps (before : Machine File Outside) :
    Outcome (Control strhash (Machine File Outside)) α → Prop
  | .ret _ after => Kept after.world before
  | .raise _ after => Kept after.world before
  | .abort => True

theorem world_enterAll (levels : List Level) : (control.enterAll levels).world = control.world := by
  induction levels with
  | nil => rfl
  | cons level levels inductionHypothesis => cases level <;> exact inductionHypothesis

theorem eval_keeps (commands : Commands strhash File Outside) (list : List TermRef)
    (control : Control strhash (Machine File Outside)) :
    Keeps control.world (commands.behave.eval list control) := by
  rw [Evaluator.eval]
  cases evaluated : commands.behave list control.shell control.world with
  | ret result shell world => exact commands.ret_kept _ _ _ _ _ _ evaluated
  | raise e shell world opened =>
    show Kept ((control.adopt shell world).enterAll opened).world control.world
    rw [world_enterAll]
    exact commands.raise_kept _ _ _ _ _ _ _ evaluated

theorem varpushWith_zero_world (defn : List TermRef)
    (control : Control strhash (Machine File Outside))
    {after : Control strhash (Machine File Outside)}
    (pushed : varpushWith callsettorZero (lit "0") defn control = .ret () after) :
    after.world = control.world := by
  have valid : validatevar (lit "0") = .ok () := rfl
  rw [varpushWith, validated, valid] at pushed
  obtain ⟨-, rfl⟩ := Outcome.ret.inj pushed
  rfl

/-- `varpop` keeps what its settor keeps. -/
theorem varpopWith_keeps {settor : Settor strhash (Machine File Outside)}
    (settled : ∀ name defn (control : Control strhash (Machine File Outside)),
      Keeps control.world (settor name defn control))
    (control : Control strhash (Machine File Outside)) :
    Keeps control.world (varpopWith settor control) := by
  rw [varpopWith]
  split
  · rename_i push pushlist nameroot nameroots isPushlist isNameroots
    split_ifs
    · have kept := settled push.name push.defn (control.markDirty push.name)
      cases called : settor push.name push.defn (control.markDirty push.name) with
      | ret defn after =>
        rw [called] at kept
        exact kept
      | raise e after =>
        rw [called] at kept
        exact kept
      | abort => trivial
    · trivial
  · trivial

theorem callsettor_keeps (commands : Commands strhash File Outside) (name : Text)
    (defn : List TermRef) (control : Control strhash (Machine File Outside)) :
    Keeps control.world (callsettor commands.behave name defn control) := by
  rw [callsettor]
  split_ifs
  · exact Kept.refl _
  · split
    · exact Kept.refl _
    · obtain ⟨push, pushed, run, -⟩ := varpushWith_zero
        [(((control.enter (.ref 0)).enter (.ref 1)).mkstr name).1]
        (((control.enter (.ref 0)).enter (.ref 1)).mkstr name).2
      have world : pushed.world = control.world := (varpushWith_zero_world _ _ run :)
      simp only [run]
      have kept := eval_keeps commands (control.varlookup2 (lit "set-") name ++ defn) pushed
      cases evaluated : commands.behave.eval (control.varlookup2 (lit "set-") name ++ defn)
          pushed with
      | ret lp after =>
        rw [evaluated, world] at kept
        have popped := varpopWith_keeps
          (fun name defn (control : Control strhash (Machine File Outside)) =>
            show Keeps control.world (callsettorZero name defn control) from Kept.refl _) after
        dsimp only
        cases pop : varpopWith callsettorZero after with
        | ret value after' =>
          rw [pop] at popped
          exact popped.trans kept
        | raise e after' =>
          rw [pop] at popped
          exact popped.trans kept
        | abort => trivial
      | raise e after =>
        rw [evaluated, world] at kept
        exact kept
      | abort => trivial

theorem varpop_keeps (commands : Commands strhash File Outside)
    (control : Control strhash (Machine File Outside)) :
    Keeps control.world (varpop commands.behave control) :=
  varpopWith_keeps (callsettor_keeps commands) control

/-! ### Exceptions and settors -/

variable (commands) in
/-- The settors of the first records of `pushlist` return. -/
def Settles : Nat → Control strhash (Machine File Outside) → Prop
  | 0, _ => True
  | n + 1, control =>
      ∃ after, varpop commands.behave control.toDefnroot = .ret () after ∧ Settles n after

variable (commands) in
/-- The settors of the records above the first handler return once it is uninstalled. -/
def SettlesTo (control : Control strhash (Machine File Outside)) : Prop :=
  ∀ handler up, control.tophandler = handler :: up →
    Settles commands (control.shell.pushlist.length - handler.pushlist)
      { control with tophandler := up }

/-- `throw_exception` is `throwTo` as long as no settor raises an exception of its own, which is
thrown to the handlers that are left. -/
theorem throw_exception_throwTo {World : Type} (commands : Evaluator strhash World) (e : Exception)
    {control : Control strhash World} {handler : Handler} {up : List Handler}
    (tophandler : control.tophandler = handler :: up) :
    throw_exception commands e control =
      match throwTo commands control with
      | .ret () after => .caught handler e after
      | .raise e after => throwException commands up e after
      | .abort => .abort := by
  have loop : ∀ (n : Nat) (control : Control strhash World),
      unwind commands handler (throwException commands up) e n control =
        match popTo commands handler n control with
        | .ret () after => .caught handler e after
        | .raise e after => throwException commands up e after
        | .abort => .abort := by
    intro n
    induction n with
    | zero =>
      intro control
      rw [unwind, jump, popTo]
      split_ifs <;> rfl
    | succ n inductionHypothesis =>
      intro control
      rw [unwind, popTo]
      cases varpop commands control.toDefnroot with
      | ret value after => exact inductionHypothesis after
      | raise e after => rfl
      | abort => rfl
  rw [throw_exception, throwTo, tophandler, throwException]
  dsimp only
  split_ifs
  · rfl
  · exact loop _ _

/-- The loop of `throw_exception` restores the stacks of a handler, if all settors return, and
keeps the machine. -/
theorem popTo_spec {outer control : Control strhash (Machine File Outside)} {levels : List Level}
    (pushlist : control.shell.pushlist = (outer.enterAll levels).shell.pushlist)
    (nameroots : control.nameroots = (outer.enterAll levels).nameroots)
    (rootlist : outer.rootlist <:+ control.rootlist)
    (tophandler : control.tophandler = outer.tophandler) :
    let n := control.shell.pushlist.length - outer.shell.pushlist.length
    (∃ after, popTo commands.behave outer.handler n control = .ret () after ∧
        Settles commands n control ∧ SameStacks after outer ∧ Kept after.world control.world) ∨
      ∃ e after, popTo commands.behave outer.handler n control = .raise e after ∧
        ¬Settles commands n control ∧ Kept after.world control.world := by
  intro n
  induction levels generalizing control n with
  | nil =>
    have isPushlist : control.shell.pushlist = outer.shell.pushlist := pushlist
    have suffix : outer.handler.rootlist <:+ control.rootlist := rootlist
    have zero : n = 0 := by
      show control.shell.pushlist.length - outer.shell.pushlist.length = 0
      rw [isPushlist, Nat.sub_self]
    rw [zero, popTo, if_pos suffix]
    exact .inl ⟨_, rfl, trivial, ⟨pushlist, nameroots, rfl, tophandler, rfl⟩, Kept.refl _⟩
  | cons level levels inductionHypothesis =>
    cases level with
    | ref address => exact inductionHypothesis pushlist nameroots rootlist tophandler
    | eval => exact inductionHypothesis pushlist nameroots rootlist tophandler
    | push push =>
      have isPushlist : control.shell.pushlist =
          push :: (outer.enterAll levels).shell.pushlist := pushlist
      have isNameroots : control.nameroots =
          (outer.enterAll levels).rootlist :: (outer.enterAll levels).nameroots := nameroots
      have above : outer.shell.pushlist.length ≤
          (outer.enterAll levels).shell.pushlist.length :=
        (pushlist_enterAll outer levels).length_le
      have count : n = (outer.enterAll levels).shell.pushlist.length -
          outer.shell.pushlist.length + 1 := by
        show control.shell.pushlist.length - outer.shell.pushlist.length = _
        rw [isPushlist, List.length_cons]
        omega
      have keeps := varpop_keeps commands control.toDefnroot
      rcases varpop_toDefnroot commands.behave isPushlist isNameroots with
        ⟨popped, pop, pushlist', nameroots', rootlist', tophandler', -⟩ |
        ⟨e, after, opened, pop, -⟩
      · rw [pop] at keeps
        have suffix : outer.rootlist <:+ popped.rootlist :=
          rootlist' ▸ rootlist_enterAll outer levels
        have rest := inductionHypothesis pushlist' nameroots' suffix
          (tophandler'.trans tophandler)
        rw [pushlist'] at rest
        rw [count, popTo, pop]
        rcases rest with ⟨after, run, settles, same, kept⟩ | ⟨e, after, run, unsettled, kept⟩
        · exact .inl ⟨after, run, ⟨popped, pop, settles⟩, same, kept.trans keeps⟩
        · refine .inr ⟨e, after, run, ?_, kept.trans keeps⟩
          rintro ⟨popped', pop', settles⟩
          obtain ⟨-, rfl⟩ := Outcome.ret.inj (pop.symm.trans pop')
          exact unsettled settles
      · rw [pop] at keeps
        rw [count, popTo, pop]
        refine .inr ⟨e, after, rfl, ?_, keeps⟩
        rintro ⟨popped, pop', -⟩
        cases pop.symm.trans pop'

/-- So does `throw_exception`, from levels that have been opened since its handler was
installed. -/
theorem throwTo_spec (commands : Commands strhash File Outside)
    {outer control : Control strhash (Machine File Outside)}
    {levels : List Level} (opened : SameStacks control (outer.install.enterAll levels)) :
    (∃ after, throwTo commands.behave control = .ret () after ∧ SettlesTo commands control ∧
        SameStacks after outer ∧ Kept after.world control.world) ∨
      ∃ e after, throwTo commands.behave control = .raise e after ∧
        ¬SettlesTo commands control ∧ Kept after.world control.world := by
  rw [enterAll_install] at opened
  have tophandler : control.tophandler = outer.handler :: outer.tophandler := opened.tophandler
  have fits : outer.shell.pushlist.length ≤ control.shell.pushlist.length := by
    rw [opened.pushlist]
    exact (pushlist_enterAll outer levels).length_le
  have settlesTo : SettlesTo commands control ↔
      Settles commands (control.shell.pushlist.length - outer.shell.pushlist.length)
        { control with tophandler := outer.tophandler } := by
    constructor
    · exact fun settles => settles _ _ tophandler
    · intro settles handler up same
      obtain ⟨rfl, rfl⟩ := List.cons.inj (tophandler.symm.trans same)
      exact settles
  rw [throwTo, tophandler, settlesTo]
  dsimp only
  rw [if_neg (show ¬control.shell.pushlist.length < outer.handler.pushlist from
    Nat.not_lt.mpr fits)]
  have suffix : outer.rootlist <:+ control.rootlist := by
    rw [opened.rootlist]
    exact rootlist_enterAll outer levels
  have spec := @popTo_spec strhash File Outside commands outer
    { control with tophandler := outer.tophandler } levels opened.pushlist opened.nameroots
    suffix rfl
  exact spec

end Control

/-- The stacks are the same and the machine is kept. -/
structure Restored {strhash : Text → Nat} {File Outside : Type}
    (after before : Control strhash (Machine File Outside)) : Prop where
  same : Control.SameStacks after before
  kept : Kept after.world before.world

theorem Restored.refl {strhash : Text → Nat} {File Outside : Type}
    (control : Control strhash (Machine File Outside)) : Restored control control :=
  ⟨Control.SameStacks.refl _, Kept.refl _⟩

theorem Restored.trans {strhash : Text → Nat} {File Outside : Type}
    {a b c : Control strhash (Machine File Outside)} (first : Restored a b)
    (second : Restored b c) : Restored a c :=
  ⟨first.same.trans second.same, first.kept.trans second.kept⟩

/-- A primitive restores the stacks and keeps the machine when it returns, keeps the machine when
it raises an exception, and no assertion fails. -/
abbrev Balanced {strhash : Text → Nat} {File Outside : Type} {α : Type}
    (before : Control strhash (Machine File Outside)) :
    Outcome (Control strhash (Machine File Outside)) α → Prop :=
  Outcome.Ends (fun _ after => Restored after before) fun _ after => Kept after.world before.world

namespace Routine

open Control

variable {strhash : Text → Nat} {File Outside : Type} {α β : Type}
  {commands : Commands strhash File Outside} {control : Control strhash (Machine File Outside)}

/-! ### Parts that leave nothing behind -/

theorem balanced_trans {before : Control strhash (Machine File Outside)}
    {outcome : Outcome (Control strhash (Machine File Outside)) α}
    (balanced : Balanced control outcome) (restored : Restored control before) :
    Balanced before outcome :=
  Ends.mono balanced (fun _ _ _ after => after.trans restored)
    fun _ _ _ kept => kept.trans restored.kept

/-- A part of a primitive that leaves nothing behind, wherever it runs. -/
def Neat (routine : Routine strhash File Outside α) : Prop :=
  ∀ control, Balanced control (routine control)

theorem balanced_bind {first : Routine strhash File Outside α}
    {next : α → Routine strhash File Outside β} (balanced : Balanced control (first control))
    (onward : ∀ value after, first control = .ret value after → Restored after control →
      Balanced after (next value after)) : Balanced control ((first >>= next) control) :=
  ends_bind balanced fun value after run restored =>
    balanced_trans (onward value after run restored) restored

theorem Neat.bind {first : Routine strhash File Outside α}
    {next : α → Routine strhash File Outside β} (neat : Neat first)
    (onward : ∀ value, Neat (next value)) : Neat (first >>= next) :=
  fun control => balanced_bind (neat control) fun value after _ _ => onward value after

theorem neat_pure (value : α) : Neat (pure value : Routine strhash File Outside α) :=
  fun control => Restored.refl control

theorem neat_get (f : Control strhash (Machine File Outside) → α) : Neat (get f) :=
  fun control => Restored.refl control

theorem neat_throw (e : Exception) : Neat (throw e : Routine strhash File Outside α) :=
  fun _ => Kept.refl _

theorem neat_fail (source message : Text) :
    Neat (fail source message : Routine strhash File Outside α) :=
  fun _ => Kept.refl _

theorem neat_mkstr (s : Text) : Neat (mkstr s : Routine strhash File Outside TermRef) :=
  fun _ => ⟨⟨rfl, rfl, rfl, rfl, rfl⟩, Kept.refl _⟩

theorem neat_update {f : Machine File Outside → Machine File Outside}
    (kept : ∀ machine, Kept (f machine) machine) :
    Neat (update f : Routine strhash File Outside Unit) :=
  fun control => ⟨⟨rfl, rfl, rfl, rfl, rfl⟩, kept control.world⟩

theorem neat_call (syscall : Syscall File Outside α) :
    Neat (call syscall : Routine strhash File Outside (Except Nat α)) :=
  fun _ => ⟨⟨rfl, rfl, rfl, rfl, rfl⟩, rfl, List.Perm.refl _, rfl⟩

theorem neat_close (fd : Nat) : Neat (close fd : Routine strhash File Outside Unit) :=
  fun _ => ⟨⟨rfl, rfl, rfl, rfl, rfl⟩, rfl, List.Perm.refl _, rfl⟩

theorem neat_split (sep : Text) (chunks : List Text) :
    Neat (split sep chunks : Routine strhash File Outside (List Text)) :=
  fun _ => ⟨⟨rfl, rfl, rfl, rfl, rfl⟩, Kept.refl _⟩

theorem neat_eval (commands : Commands strhash File Outside) (list : List TermRef) :
    Neat (eval commands list) := by
  intro control
  have kept := eval_keeps commands list control
  have evaluation : (∃ result after, commands.behave.eval list control = .ret result after ∧
      SameStacks after control) ∨ _ := eval_spec list control
  rw [eval]
  rcases evaluation with ⟨result, after, run, same⟩ | ⟨e, after, levels, run, same⟩
  · rw [run] at kept ⊢
    exact ⟨same, kept⟩
  · rw [run] at kept ⊢
    exact kept

theorem neat_mapM {f : α → Routine strhash File Outside β} (neat : ∀ value, Neat (f value))
    (list : List α) : Neat (list.mapM f) := by
  have loop : ∀ (list : List α) (results : List β), Neat (List.mapM.loop f list results) := by
    intro list
    induction list with
    | nil => exact fun results => neat_pure _
    | cons value list inductionHypothesis =>
      exact fun results => (neat value).bind fun result => inductionHypothesis _
  exact loop list []

theorem openRefs_eq {World : Type} (n : Nat) (control : Control strhash World) :
    control.openRefs n = { control with
      rootlist := (List.range n).map Root.ref ++ control.rootlist } := by
  have opened : ∀ addresses : List Nat, control.enterAll (addresses.map Level.ref) =
      { control with rootlist := addresses.map Root.ref ++ control.rootlist } := by
    intro addresses
    induction addresses with
    | nil => rfl
    | cons address addresses inductionHypothesis =>
      show (control.enterAll (addresses.map Level.ref)).enter (.ref address) = _
      rw [inductionHypothesis]
      rfl
  exact opened (List.range n)

/-- The roots of a function go when it returns. -/
theorem refs_balanced {n : Nat} {routine : Routine strhash File Outside α}
    (balanced : Balanced (control.openRefs n) (routine (control.openRefs n))) :
    Balanced control (refs n routine control) := by
  have opened := openRefs_eq n control
  rw [refs]
  cases outcome : routine (control.openRefs n) with
  | ret value after =>
    rw [outcome, opened] at balanced
    obtain ⟨same, kept⟩ : Restored after _ := balanced
    refine ⟨⟨same.pushlist, same.nameroots, ?_, same.tophandler, same.evaldepth⟩, kept⟩
    show after.rootlist.drop n = control.rootlist
    rw [same.rootlist]
    exact List.drop_left' (by simp)
  | raise e after =>
    rw [outcome, opened] at balanced
    exact balanced
  | abort =>
    rw [outcome] at balanced
    exact balanced

theorem Neat.refs {routine : Routine strhash File Outside α} (neat : Neat routine) (n : Nat) :
    Neat (refs n routine) :=
  fun _ => refs_balanced (neat _)

/-! ### Handlers -/

/-- What runs under a handler: it leaves the stacks as they were, or some more levels open. -/
abbrev Opens (before : Control strhash (Machine File Outside)) :
    Outcome (Control strhash (Machine File Outside)) α → Prop :=
  Outcome.Ends (fun _ after => SameStacks after before)
    fun _ after => ∃ levels, SameStacks after (before.enterAll levels)

theorem eval_opens (commands : Commands strhash File Outside) (list : List TermRef)
    (control : Control strhash (Machine File Outside)) :
    Opens control (eval commands list control) := by
  have evaluation : (∃ result after, commands.behave.eval list control = .ret result after ∧
      SameStacks after control) ∨ _ := eval_spec list control
  rw [eval]
  rcases evaluation with ⟨result, after, run, same⟩ | ⟨e, after, levels, run, same⟩
  · rw [run]
    exact same
  · rw [run]
    exact ⟨levels, same⟩

/-- A handler is popped when its body returns. An exception of the body reaches it if the settors
above it return; else the exception of a settor goes past it. -/
theorem ends_exceptionHandler {body : Routine strhash File Outside α}
    {handle : Exception → Routine strhash File Outside α}
    {post : α → Control strhash (Machine File Outside) → Prop}
    {exc : Exception → Control strhash (Machine File Outside) → Prop}
    (opens : Opens control.install (body control.install))
    (returns : ∀ value after popped, body control.install = .ret value after →
      SameStacks popped control → popped.shell = after.shell → popped.world = after.world →
      post value popped)
    (caught : ∀ e after caught, body control.install = .raise e after →
      SettlesTo commands after → throwTo commands.behave after = .ret () caught →
      SameStacks caught control → Kept caught.world after.world →
      (handle e caught).Ends post exc)
    (disturbed : ∀ e after e' after', body control.install = .raise e after →
      ¬SettlesTo commands after → Kept after'.world after.world → exc e' after') :
    (exceptionHandler commands body handle control).Ends post exc := by
  rw [exceptionHandler]
  cases outcome : body control.install with
  | ret value after =>
    rw [outcome] at opens
    obtain ⟨pushlist, nameroots, rootlist, tophandler, evaldepth⟩ : SameStacks after _ := opens
    have pop : pophandler ⟨control.rootlist, control.shell.pushlist.length, control.evaldepth⟩
        control.tophandler after = .ret () { after with tophandler := control.tophandler } :=
      if_pos ⟨tophandler, rootlist.symm⟩
    dsimp only
    rw [pop]
    exact returns value after _ outcome ⟨pushlist, nameroots, rootlist, rfl, evaldepth⟩ rfl rfl
  | raise e after =>
    rw [outcome] at opens
    obtain ⟨levels, opened⟩ := opens
    dsimp only
    rcases throwTo_spec commands opened with
      ⟨landed, run, settles, same, kept⟩ | ⟨e', after', run, unsettled, kept⟩
    · rw [run]
      exact caught e after landed outcome settles run same kept
    · rw [run]
      exact disturbed e after e' after' outcome unsettled kept
  | abort =>
    rw [outcome] at opens
    exact opens.elim

/-- No record is above the handler. -/
theorem settlesTo_of_same {after : Control strhash (Machine File Outside)}
    (same : SameStacks after control.install) : SettlesTo commands after := by
  intro handler up tophandler
  obtain ⟨rfl, -⟩ := List.cons.inj (same.tophandler.symm.trans tophandler)
  rw [same.pushlist]
  show Settles commands (control.shell.pushlist.length - control.shell.pushlist.length) _
  rw [Nat.sub_self]
  trivial

end Routine

/-! ### The registered list -/

namespace Process

variable {File : Type} {process : Process File}

/-- The fields of the table are registered, to be closed in children. -/
structure Tracked (process : Process File) : Prop where
  registered : ∀ i < process.deftab.length, ⟨.deferred i, true⟩ ∈ process.reserved
  marked : ∀ reserve ∈ process.reserved, ∀ i, reserve.fdp = .deferred i →
    reserve.closeonfork = true

theorem unregisterfd_perm {fdp : Cell} {closeonfork : Bool} {rest : List Reserve}
    (perm : process.reserved.Perm (⟨fdp, closeonfork⟩ :: rest))
    (marked : ∀ reserve ∈ process.reserved, reserve.fdp = fdp →
      reserve.closeonfork = closeonfork) :
    ∃ reserved, process.unregisterfd fdp = some { process with reserved } ∧ reserved.Perm rest := by
  have member : fdp ∈ process.cells :=
    List.mem_map.mpr ⟨⟨fdp, closeonfork⟩, perm.mem_iff.mpr List.mem_cons_self, rfl⟩
  obtain ⟨reserve, reserved, run, address, taken⟩ := unregisterfd_spec member
  have flag := marked reserve (taken.mem_iff.mpr List.mem_cons_self) address
  obtain ⟨fdp', closeonfork'⟩ := reserve
  obtain rfl : fdp' = fdp := address
  obtain rfl : closeonfork' = closeonfork := flag
  exact ⟨reserved, run, (taken.symm.trans perm).cons_inv⟩

theorem foldlM_unregisterfd_perm (indices : List Nat) {rest : List Reserve}
    (perm : process.reserved.Perm (indices.map (fun i => ⟨.deferred i, true⟩) ++ rest))
    (marked : ∀ reserve ∈ process.reserved, ∀ i, reserve.fdp = .deferred i →
      reserve.closeonfork = true) :
    ∃ reserved, indices.foldlM (fun process i => unregisterfd (.deferred i) process) process =
      some { process with reserved } ∧ reserved.Perm rest := by
  induction indices generalizing process with
  | nil => exact ⟨process.reserved, rfl, perm⟩
  | cons i indices inductionHypothesis =>
    obtain ⟨reserved, run, left⟩ :=
      unregisterfd_perm perm fun reserve member address => marked reserve member i address
    have inside : ∀ reserve ∈ reserved, reserve ∈ process.reserved := fun reserve member =>
      perm.mem_iff.mpr (List.mem_cons_of_mem _ (left.mem_iff.mp member))
    obtain ⟨reserved', fold, left'⟩ := @inductionHypothesis { process with reserved } left
      fun reserve member => marked reserve (inside reserve member)
    exact ⟨reserved', by rw [List.foldlM_cons, run]; exact fold, left'⟩

/-- Growing the table registers its fields again. -/
theorem growDeftab_perm (tracked : process.Tracked) :
    ∃ grown, process.growDeftab = some grown ∧ grown.deftab = process.deftab ∧
      grown.reserved.Perm process.reserved := by
  let fields : List Reserve := (List.range process.deftab.length).map fun i => ⟨.deferred i, true⟩
  have inside : fields.Subperm process.reserved := by
    refine List.subperm_of_subset (List.nodup_range.map ?_) ?_
    · intro i j same
      exact Cell.deferred.inj (Reserve.mk.inj same).1
    · intro reserve member
      obtain ⟨i, less, rfl⟩ := List.mem_map.mp member
      exact tracked.registered i (List.mem_range.mp less)
  obtain ⟨ordered, same, sublist⟩ := inside
  obtain ⟨rest, cut⟩ := sublist.exists_perm_append
  have perm := cut.trans (same.append_right rest)
  obtain ⟨reserved, run, left⟩ := foldlM_unregisterfd_perm _ perm tracked.marked
  refine ⟨{ process with
    defmax := process.defmax + 10
    reserved := reserved ++ fields }, ?_, rfl, ?_⟩
  · simp only [growDeftab, run, Option.map_some, foldl_registerfd, fields]
  · exact (left.append_right fields).trans (List.perm_append_comm.trans perm.symm)

theorem pushdefer_perm (tracked : process.Tracked) (realfd : Option Nat) (userfd : Nat) :
    ∃ result, process.pushdefer realfd userfd = some result ∧
      result.deftab = process.deftab ++ [⟨realfd, userfd⟩] ∧
      result.reserved.Perm (⟨.deferred process.deftab.length, true⟩ :: process.reserved) := by
  obtain ⟨grown, run, deftab, reserved⟩ : ∃ grown,
      (if process.defmax ≤ process.deftab.length then process.growDeftab else some process) =
        some grown ∧ grown.deftab = process.deftab ∧
        grown.reserved.Perm process.reserved := by
    split_ifs
    · exact growDeftab_perm tracked
    · exact ⟨process, rfl, rfl, List.Perm.refl _⟩
  refine ⟨_, by rw [pushdefer, run]; rfl, by rw [← deftab]; rfl, ?_⟩
  rw [← deftab]
  exact List.perm_append_comm.trans (reserved.cons _)

/-- `undefer` takes back what `pushdefer` has added. -/
theorem undefer_perm {init : List Defer} {last : Defer} {rest : List Reserve}
    (deftab : process.deftab = init ++ [last])
    (perm : process.reserved.Perm (⟨.deferred init.length, true⟩ :: rest))
    (marked : ∀ reserve ∈ rest, ∀ i, reserve.fdp = .deferred i → reserve.closeonfork = true) :
    ∃ result, process.undefer = some result ∧ result.deftab = init ∧
      result.reserved.Perm rest := by
  obtain ⟨reserved, run, left⟩ := unregisterfd_perm perm fun reserve member address => by
    rcases List.mem_cons.mp (perm.mem_iff.mp member) with rfl | member
    · rfl
    · exact marked reserve member _ address
  have length : process.deftab.length - 1 = init.length := by simp [deftab]
  refine ⟨{ process with
    deftab := process.deftab.dropLast
    reserved
    table := last.realfd.elim process.table process.table.close }, ?_, ?_, left⟩
  · rw [undefer, length, run, deftab, List.getLast?_concat]
    rfl
  · show process.deftab.dropLast = init
    rw [deftab, List.dropLast_concat]

end Process

namespace Routine

open Control

variable {strhash : Text → Nat} {File Outside : Type} {α : Type}
  {commands : Commands strhash File Outside} {control : Control strhash (Machine File Outside)}

/-! ### Children and pipes -/

/-- `efork` opens nothing, also when it fails. -/
theorem efork_ends (system : System File Outside)
    (control : Control strhash (Machine File Outside)) :
    (efork system control).Ends (fun _ after => Restored after control)
      fun _ after => Restored after control := by
  rw [efork]
  refine ends_bind (neat_call system.fork control |>.mono (fun _ _ _ restored => restored)
    fun e after run _ => by cases run) ?_
  intro result after _ restored
  cases result with
  | ok pid => exact restored
  | error errno => exact ⟨⟨restored.same.pushlist, restored.same.nameroots,
      restored.same.rootlist, restored.same.tophandler, restored.same.evaldepth⟩, restored.kept⟩

theorem neat_ewait (system : System File Outside) (pid : Nat) :
    Neat (ewait system pid : Routine strhash File Outside Int) := by
  rw [ewait]
  refine (neat_call _).bind fun result => ?_
  cases result with
  | ok status => exact neat_pure status
  | error errno => exact neat_fail _ _

theorem neat_sigchk (system : System File Outside) :
    Neat (sigchk system : Routine strhash File Outside Unit) := by
  rw [sigchk]
  refine (neat_get _).bind fun blocked => ?_
  split_ifs
  · exact neat_pure ()
  · refine (neat_get _).bind fun ⟨signal, outside⟩ => ?_
    dsimp only
    refine Neat.bind (neat_update (f := fun machine => { machine with outside })
      fun machine => ⟨rfl, List.Perm.refl _, rfl⟩) fun _ => ?_
    cases signal with
    | none => exact neat_pure ()
    | some e =>
      refine (neat_mkstr e.1).bind fun term => ?_
      exact (neat_mapM neat_mkstr e.2).bind fun next => neat_throw _

theorem newCell_fresh (process : Process File) (n : Nat) :
    Cell.shell (newCell process + n) ∉ process.cells := by
  have bound : ∀ (numbers : List Nat) (number : Nat), number ∈ numbers →
      number ≤ numbers.foldr max 0 := by
    intro numbers number member
    induction numbers with
    | nil => cases member
    | cons first numbers inductionHypothesis =>
      rcases List.mem_cons.mp member with rfl | member
      · exact Nat.le_max_left ..
      · exact (inductionHypothesis member).trans (Nat.le_max_right ..)
  intro member
  have less : newCell process + n + 1 ≤ newCell process := bound _ _ (List.mem_map_of_mem member)
  omega

/-- The two registered ends of a pipe. -/
theorem unregister_ends {base : Control strhash (Machine File Outside)} {p q : Nat}
    (same : SameStacks control base)
    (deftab : control.world.process.deftab = base.world.process.deftab)
    (perm : control.world.process.reserved.Perm
      (⟨.shell p, false⟩ :: ⟨.shell q, false⟩ :: base.world.process.reserved))
    (blocked : control.world.blocked = base.world.blocked)
    (fresh : .shell p ∉ base.world.process.cells) (fresh' : .shell q ∉ base.world.process.cells)
    (next : Routine strhash File Outside α) :
    ∃ after, Restored after base ∧
      (do
        unregisterfd (.shell p)
        unregisterfd (.shell q)
        next : Routine strhash File Outside α) control = next after := by
  have absent : ∀ {address : Nat} {reserve : Reserve},
      .shell address ∉ base.world.process.cells → reserve ∈ base.world.process.reserved →
        reserve.fdp ≠ .shell address :=
    fun fresh member address => fresh (List.mem_map.mpr ⟨_, member, address⟩)
  obtain ⟨reserved, run, left⟩ := Process.unregisterfd_perm perm fun reserve member address => by
    rcases List.mem_cons.mp (perm.mem_iff.mp member) with rfl | member
    · rfl
    rcases List.mem_cons.mp member with rfl | member
    · rfl
    · exact absurd address (absent fresh member)
  obtain ⟨reserved', run', left'⟩ :=
    @Process.unregisterfd_perm File { control.world.process with reserved } _ _ _ left
      fun reserve member address => by
        rcases List.mem_cons.mp (left.mem_iff.mp member) with rfl | member
        · rfl
        · exact absurd address (absent fresh' member)
  let after : Control strhash (Machine File Outside) := { control with
    world := { control.world with
      process := { control.world.process with reserved := reserved' } } }
  have first : (unregisterfd (.shell p) : Routine strhash File Outside Unit) control = .ret ()
      { control with
        world := { control.world with process := { control.world.process with reserved } } } := by
    rw [unregisterfd, process, run]
  have second : (unregisterfd (.shell q) : Routine strhash File Outside Unit) { control with
        world := { control.world with process := { control.world.process with reserved } } } =
      .ret () after := by
    rw [unregisterfd, process, run']
  refine ⟨after, ⟨⟨same.pushlist, same.nameroots, same.rootlist, same.tophandler,
    same.evaldepth⟩, deftab, left', blocked⟩, ?_⟩
  rw [bind_ret first, bind_ret second]

theorem registerfd_ret (control : Control strhash (Machine File Outside)) {fdp : Cell}
    {closeonfork : Bool} (fresh : fdp ∉ control.world.process.cells) :
    (registerfd fdp closeonfork : Routine strhash File Outside Unit) control =
      .ret () { control with world := { control.world with
        process := control.world.process.registerfd fdp closeonfork } } := by
  rw [registerfd, process, if_neg fresh]

theorem neat_pipefork (commands : Commands strhash File Outside) (system : System File Outside)
    (caller : Text) : Neat (pipefork commands system caller) := by
  refine (neat_call _).bind fun result => ?_
  cases result with
  | error errno => exact neat_fail _ _
  | ok fds =>
    intro control
    let p := newCell control.world.process
    let written := (control.world.process.write (.shell p) (some fds.1)).write (.shell (p + 1))
      (some fds.2)
    let registered := (written.registerfd (.shell p) false).registerfd (.shell (p + 1)) false
    let held : Control strhash (Machine File Outside) :=
      { control with world := { control.world with process := written } }
    let start : Control strhash (Machine File Outside) :=
      { control with world := { control.world with process := registered } }
    have fresh : ∀ n, Cell.shell (p + n) ∉ control.world.process.cells :=
      newCell_fresh control.world.process
    have fresh0 : Cell.shell p ∉ written.cells := fresh 0
    have fresh1 : Cell.shell (p + 1) ∉ (written.registerfd (.shell p) false).cells := by
      intro member
      change Cell.shell (p + 1) ∈
        (control.world.process.reserved ++ [Reserve.mk (.shell p) false]).map Reserve.fdp at member
      rw [List.map_append, List.mem_append] at member
      rcases member with member | member
      · exact fresh 1 member
      · simp at member
    have perm : registered.reserved.Perm
        (⟨.shell p, false⟩ :: ⟨.shell (p + 1), false⟩ :: control.world.process.reserved) := by
      show (control.world.process.reserved ++ [Reserve.mk (.shell p) false] ++
        [Reserve.mk (.shell (p + 1)) false]).Perm _
      rw [List.append_assoc]
      exact List.perm_append_comm
    -- however the fork ends, both ends are registered then
    have unregistering : ∀ {α : Type} {after : Control strhash (Machine File Outside)}
        (next : Routine strhash File Outside α), SameStacks after control →
        Kept after.world start.world → ∃ unregistered, Restored unregistered control ∧
          (do
            unregisterfd (.shell p)
            unregisterfd (.shell (p + 1))
            next : Routine strhash File Outside α) after = next unregistered := by
      intro α after next same kept
      exact unregister_ends same kept.deftab (kept.reserved.trans perm) kept.blocked fresh0
        (fresh 1) next
    have run : ∀ next : Routine strhash File Outside (Nat × Nat × Nat),
        (do
          registerfd (.shell p) false
          registerfd (.shell (p + 1)) false
          next : Routine strhash File Outside (Nat × Nat × Nat)) held = next start :=
      fun next => (bind_ret (registerfd_ret held fresh0)).trans
        (bind_ret (registerfd_ret { held with
          world := { held.world with process := written.registerfd (.shell p) false } } fresh1))
    show Balanced control ((do
      registerfd (.shell p) false
      registerfd (.shell (p + 1)) false
      let pid ← exceptionHandler commands (efork system) fun e => do
        unregisterfd (.shell p)
        unregisterfd (.shell (p + 1))
        throw e
      unregisterfd (.shell p)
      unregisterfd (.shell (p + 1))
      pure (fds.1, fds.2, pid) : Routine strhash File Outside (Nat × Nat × Nat)) held)
    rw [run]
    have forked := efork_ends system start.install
    have handled : (exceptionHandler commands (efork system) (fun e => do
        unregisterfd (.shell p)
        unregisterfd (.shell (p + 1))
        throw e) start).Ends
          (fun _ after => SameStacks after control ∧ Kept after.world start.world)
          fun _ after => Kept after.world control.world := by
      refine ends_exceptionHandler (forked.mono (fun _ _ _ restored => restored.same)
        fun _ _ _ restored => ⟨[], restored.same⟩) ?_ ?_ ?_
      · intro pid after popped run same shell world
        rw [run] at forked
        have restored : Restored after start.install := forked
        exact ⟨⟨same.pushlist, same.nameroots, same.rootlist, same.tophandler, same.evaldepth⟩,
          world ▸ restored.kept⟩
      · intro e after caught run settles landed same kept
        rw [run] at forked
        have failed : Restored after start.install := forked
        obtain ⟨unregistered, restored, unregister⟩ := @unregistering _ caught (throw e)
          ⟨same.pushlist, same.nameroots, same.rootlist, same.tophandler, same.evaldepth⟩
          (kept.trans failed.kept)
        rw [unregister]
        exact restored.kept
      · intro e after e' after' run unsettled
        rw [run] at forked
        have failed : Restored after start.install := forked
        exact absurd (settlesTo_of_same failed.same) unsettled
    refine ends_bind handled fun pid after run ⟨same, kept⟩ => ?_
    obtain ⟨unregistered, restored, unregister⟩ :=
      unregistering (pure (fds.1, fds.2, pid)) same kept
    rw [unregister]
    exact restored

end Routine

end Desh
