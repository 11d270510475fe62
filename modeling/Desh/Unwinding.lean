/-
This file proves where `throw_exception` ends. While it pops the records above a
handler, that handler is not installed any more, so a settor that raises an
exception gives the records that are left to the next one. A shell whose settors
keep raising runs out of handlers.
-/

import Desh.Control

namespace Desh

namespace Control

variable {strhash : Text → Nat} {World : Type} {commands : Evaluator strhash World}

/-! ### What settors do to the stacks -/

/-- The stacks of two states are the same. -/
structure SameStacks (control other : Control strhash World) : Prop where
  pushlist : control.shell.pushlist = other.shell.pushlist
  nameroots : control.nameroots = other.nameroots
  rootlist : control.rootlist = other.rootlist
  tophandler : control.tophandler = other.tophandler
  evaldepth : control.evaldepth = other.evaldepth

theorem SameStacks.refl (control : Control strhash World) : SameStacks control control :=
  ⟨rfl, rfl, rfl, rfl, rfl⟩

theorem SameStacks.trans {a b c : Control strhash World} (first : SameStacks a b)
    (second : SameStacks b c) : SameStacks a c :=
  ⟨first.pushlist.trans second.pushlist, first.nameroots.trans second.nameroots,
    first.rootlist.trans second.rootlist, first.tophandler.trans second.tophandler,
    first.evaldepth.trans second.evaldepth⟩

theorem SameStacks.enter {control other : Control strhash World}
    (same : SameStacks control other) (level : Level) :
    SameStacks (control.enter level) (other.enter level) := by
  obtain ⟨pushlist, nameroots, rootlist, tophandler, evaldepth⟩ := same
  cases level with
  | ref address =>
    exact ⟨pushlist, nameroots, congrArg (List.cons _) rootlist, tophandler, evaldepth⟩
  | eval => exact ⟨pushlist, nameroots, rootlist, tophandler, congrArg (· + 1) evaldepth⟩
  | push push =>
    refine ⟨congrArg (List.cons push) pushlist, ?_, ?_, tophandler, evaldepth⟩
    · show control.rootlist :: control.nameroots = other.rootlist :: other.nameroots
      rw [rootlist, nameroots]
    · show Root.defnroot control.shell.pushlist.length ::
        .nameroot control.shell.pushlist.length :: control.rootlist = _
      rw [rootlist, pushlist]
      rfl

theorem enterAll_append (control : Control strhash World) (above below : List Level) :
    control.enterAll (above ++ below) = (control.enterAll below).enterAll above :=
  List.foldr_append ..

theorem SameStacks.enterAll {control other : Control strhash World}
    (same : SameStacks control other) (levels : List Level) :
    SameStacks (control.enterAll levels) (other.enterAll levels) := by
  induction levels with
  | nil => exact same
  | cons level levels inductionHypothesis => exact inductionHypothesis.enter level

theorem markDirty_sameStacks (control : Control strhash World) (name : Text) :
    SameStacks (control.markDirty name) control := by
  refine ⟨?_, rfl, rfl, rfl, rfl⟩
  show (control.shell.markDirty name).pushlist = _
  rw [Shell.markDirty]
  split_ifs <;> rfl

/-- The record `varpush` makes. -/
def savedPush (shell : Shell strhash) (name : Text) : Push :=
  match shell.vars.get name with
  | none => ⟨name, [], false, false⟩
  | some var => ⟨name, var.defn, var.hasbindings, var.isinternal⟩

theorem varpushEnd_pushlist (shell : Shell strhash) (name : Text) (defn : List TermRef) :
    (shell.varpushEnd name defn).pushlist = savedPush shell name :: shell.pushlist := by
  rw [Shell.varpushEnd, savedPush]
  cases shell.vars.get name <;> rfl

/-- `varpush` opens the level of its record. -/
theorem varpushEnd_sameStacks {control base : Control strhash World} (name : Text)
    (defn : List TermRef) (linked : SameStacks control base.linkName) :
    SameStacks (control.varpushEnd name defn base.rootlist)
      (base.enter (.push (savedPush control.shell name))) := by
  have pushlist : control.shell.pushlist = base.shell.pushlist := linked.pushlist
  refine ⟨?_, congrArg (List.cons _) linked.nameroots, ?_, linked.tophandler, linked.evaldepth⟩
  · show (control.shell.varpushEnd name defn).pushlist = _ :: base.shell.pushlist
    rw [varpushEnd_pushlist, pushlist]
  · show .defnroot control.shell.pushlist.length :: control.rootlist = _
    rw [linked.rootlist, pushlist]
    rfl

/-- A command that returns leaves the stacks as they were, and one that raises an exception has
opened some levels. -/
theorem eval_spec (list : List TermRef) (control : Control strhash World) :
    (∃ result after, commands.eval list control = .ret result after ∧ SameStacks after control) ∨
      ∃ e after levels, commands.eval list control = .raise e after ∧
        SameStacks after (control.enterAll levels) := by
  rw [Evaluator.eval]
  cases commands list control.shell control.world with
  | ret result shell world => exact .inl ⟨result, _, rfl, rfl, rfl, rfl, rfl, rfl⟩
  | raise e shell world levels =>
    have adopted : SameStacks (control.adopt shell world) control := ⟨rfl, rfl, rfl, rfl, rfl⟩
    exact .inr ⟨e, _, levels, rfl, adopted.enterAll levels⟩

/-- `varpush` of the name `0` opens a level. -/
theorem varpushWith_zero (defn : List TermRef) (control : Control strhash World) :
    ∃ push after, varpushWith callsettorZero (lit "0") defn control = .ret () after ∧
      SameStacks after (control.enter (.push push)) := by
  have valid : validatevar (lit "0") = .ok () := rfl
  refine ⟨_, _, by rw [varpushWith, validated, valid]; rfl, varpushEnd_sameStacks _ _ ?_⟩
  exact markDirty_sameStacks ..

/-- `varpop` of a record whose settor returns `defn`. -/
theorem varpopWith_ret {settor : Settor strhash World} {control base after : Control strhash World}
    {push : Push} {defn : List TermRef} (opened : SameStacks control (base.enter (.push push)))
    (called : settor push.name push.defn (control.markDirty push.name) = .ret defn after)
    (same : SameStacks after control) :
    ∃ popped, varpopWith settor control = .ret () popped ∧ SameStacks popped base ∧
      popped.shell = after.shell.varpopEnd push defn := by
  obtain ⟨pushlist, nameroots, rootlist, tophandler, evaldepth⟩ := opened
  simp only [enter, link] at pushlist nameroots rootlist tophandler evaldepth
  simp only [varpopWith, pushlist, nameroots, rootlist, if_true, called]
  refine ⟨_, rfl, ⟨?_, rfl, rfl, same.tophandler.trans tophandler,
    same.evaldepth.trans evaldepth⟩, rfl⟩
  simp [Shell.varpopEnd, same.pushlist, pushlist]

/-- A settor call that returns leaves the stacks as they were. -/
theorem callsettor_spec (commands : Evaluator strhash World) (name : Text) (defn : List TermRef)
    (control : Control strhash World) :
    (∃ result after, callsettor commands name defn control = .ret result after ∧
        SameStacks after control) ∨
      ∃ e after levels, callsettor commands name defn control = .raise e after ∧
        SameStacks after (control.enterAll levels) := by
  rw [callsettor]
  split_ifs
  · exact .inl ⟨defn, control, rfl, SameStacks.refl control⟩
  · split
    · exact .inl ⟨defn, control, rfl, SameStacks.refl control⟩
    · obtain ⟨push, pushed, run, opened⟩ := varpushWith_zero
        [(((control.enter (.ref 0)).enter (.ref 1)).mkstr name).1]
        (((control.enter (.ref 0)).enter (.ref 1)).mkstr name).2
      have made : SameStacks (((control.enter (.ref 0)).enter (.ref 1)).mkstr name).2
          ((control.enter (.ref 0)).enter (.ref 1)) := ⟨rfl, rfl, rfl, rfl, rfl⟩
      simp only [run]
      have evaluation : (∃ result after,
          commands.eval (control.varlookup2 (lit "set-") name ++ defn) pushed =
            .ret result after ∧ SameStacks after pushed) ∨ _ := eval_spec _ pushed
      rcases evaluation with
        ⟨result, after, evaluated, same⟩ | ⟨e, after, levels, evaluated, same⟩
      · obtain ⟨popped, pop, closed, -⟩ := varpopWith_ret (same.trans opened)
          (show callsettorZero _ _ _ = _ from rfl) (markDirty_sameStacks after _)
        simp only [evaluated, pop]
        have closed := closed.trans made
        exact .inl ⟨result, _, rfl, closed.pushlist, closed.nameroots, rfl, closed.tophandler,
          closed.evaldepth⟩
      · simp only [evaluated]
        refine .inr ⟨e, after, levels ++ [.push push, .ref 1, .ref 0], rfl, ?_⟩
        rw [enterAll_append]
        exact same.trans ((opened.trans (made.enter (.push push))).enterAll levels)

/-- One turn of the loop of `throw_exception`, with a record at the head of `pushlist`: it is
popped, or its settor raises an exception and the record stays. -/
theorem varpop_toDefnroot (commands : Evaluator strhash World) {control : Control strhash World}
    {push : Push} {pushlist : List Push} {nameroot : List Root} {nameroots : List (List Root)}
    (isPushlist : control.shell.pushlist = push :: pushlist)
    (isNameroots : control.nameroots = nameroot :: nameroots) :
    (∃ after, varpop commands control.toDefnroot = .ret () after ∧
        after.shell.pushlist = pushlist ∧ after.nameroots = nameroots ∧ after.rootlist = nameroot ∧
        after.tophandler = control.tophandler ∧ after.evaldepth = control.evaldepth) ∨
      ∃ e after levels, varpop commands control.toDefnroot = .raise e after ∧
        SameStacks after (control.toDefnroot.enterAll levels) := by
  have head : control.toDefnroot.rootlist =
      .defnroot pushlist.length :: .nameroot pushlist.length :: nameroot := by
    simp [toDefnroot, isPushlist, isNameroots]
  have marked := markDirty_sameStacks control.toDefnroot push.name
  have settling : (∃ result after, callsettor commands push.name push.defn
      (control.toDefnroot.markDirty push.name) = .ret result after ∧ SameStacks after _) ∨ _ :=
    callsettor_spec commands push.name push.defn (control.toDefnroot.markDirty push.name)
  rw [varpop, varpopWith]
  simp only [show control.toDefnroot.shell.pushlist = push :: pushlist from isPushlist,
    show control.toDefnroot.nameroots = nameroot :: nameroots from isNameroots, head, if_true]
  rcases settling with ⟨result, after, called, same⟩ | ⟨e, after, levels, called, same⟩
  · have same := same.trans marked
    simp only [called]
    refine .inl ⟨_, rfl, ?_, rfl, rfl, same.tophandler, same.evaldepth⟩
    simp [Shell.varpopEnd, same.pushlist, isPushlist, toDefnroot]
  · simp only [called]
    exact .inr ⟨e, after, levels, rfl, same.trans (marked.enterAll levels)⟩

/-! ### Handlers and the records above them -/

/-- The handlers of a list are nested: each was installed below the records and roots that have
come since, and the first one last. -/
structure Nested (handlers : List Handler) (control : Control strhash World) : Prop where
  lengths : control.nameroots.length = control.shell.pushlist.length
  fits : ∀ handler ∈ handlers, handler.pushlist ≤ control.shell.pushlist.length
  rootlist : ∀ handler ∈ handlers, handler.rootlist <:+ control.rootlist
  nameroots : ∀ handler ∈ handlers,
    ∀ nameroot ∈ control.nameroots.take (control.nameroots.length - handler.pushlist),
      handler.rootlist <:+ nameroot
  sorted : handlers.Pairwise fun handler up => up.pushlist ≤ handler.pushlist

theorem Nested.tail {handler : Handler} {up : List Handler} {control : Control strhash World}
    (nested : Nested (handler :: up) control) : Nested up control :=
  ⟨nested.lengths, fun other member => nested.fits other (List.mem_cons_of_mem _ member),
    fun other member => nested.rootlist other (List.mem_cons_of_mem _ member),
    fun other member => nested.nameroots other (List.mem_cons_of_mem _ member),
    nested.sorted.of_cons⟩

theorem Nested.of_sameStacks {handlers : List Handler} {control other : Control strhash World}
    (same : SameStacks control other) (nested : Nested handlers other) :
    Nested handlers control := by
  obtain ⟨lengths, fits, rootlist, nameroots, sorted⟩ := nested
  rw [← same.pushlist] at lengths fits
  rw [← same.rootlist] at rootlist
  rw [← same.nameroots] at lengths nameroots
  exact ⟨lengths, fits, rootlist, nameroots, sorted⟩

theorem Nested.enter {handlers : List Handler} {control : Control strhash World}
    (nested : Nested handlers control) (level : Level) :
    Nested handlers (control.enter level) := by
  obtain ⟨lengths, fits, rootlist, nameroots, sorted⟩ := nested
  cases level with
  | ref address =>
    exact ⟨lengths, fits, fun handler member => (rootlist handler member).trans
      (List.suffix_cons _ _), nameroots, sorted⟩
  | eval => exact ⟨lengths, fits, rootlist, nameroots, sorted⟩
  | push push =>
    refine ⟨congrArg (· + 1) lengths, fun handler member => Nat.le_succ_of_le (fits handler member),
      fun handler member => (rootlist handler member).trans ?_, ?_, sorted⟩
    · exact (List.suffix_cons _ _).trans (List.suffix_cons _ _)
    · intro handler member nameroot inside
      have fit := fits handler member
      change nameroot ∈ (control.rootlist :: control.nameroots).take
        (control.nameroots.length + 1 - handler.pushlist) at inside
      rw [Nat.succ_sub (lengths ▸ fit), List.take_succ_cons] at inside
      rcases List.mem_cons.mp inside with rfl | inside
      · exact rootlist handler member
      · exact nameroots handler member nameroot inside

theorem Nested.enterAll {handlers : List Handler} {control : Control strhash World}
    (nested : Nested handlers control) (levels : List Level) :
    Nested handlers (control.enterAll levels) := by
  induction levels with
  | nil => exact nested
  | cons level levels inductionHypothesis => exact inductionHypothesis.enter level

theorem tophandler_enterAll (control : Control strhash World) (levels : List Level) :
    (control.enterAll levels).tophandler = control.tophandler := by
  induction levels with
  | nil => rfl
  | cons level levels inductionHypothesis => cases level <;> exact inductionHypothesis

theorem rootlist_enterAll (control : Control strhash World) (levels : List Level) :
    control.rootlist <:+ (control.enterAll levels).rootlist := by
  induction levels with
  | nil => exact List.suffix_rfl
  | cons level levels inductionHypothesis =>
    refine inductionHypothesis.trans ?_
    cases level with
    | ref address => exact List.suffix_cons _ _
    | eval => exact List.suffix_rfl
    | push push => exact (List.suffix_cons _ _).trans (List.suffix_cons _ _)

theorem pushlist_enterAll (control : Control strhash World) (levels : List Level) :
    control.shell.pushlist <:+ (control.enterAll levels).shell.pushlist := by
  induction levels with
  | nil => exact List.suffix_rfl
  | cons level levels inductionHypothesis =>
    refine inductionHypothesis.trans ?_
    cases level with
    | ref address => exact List.suffix_rfl
    | eval => exact List.suffix_rfl
    | push push => exact List.suffix_cons _ _

/-- `toDefnroot` sets the roots to those of the record at the head of `pushlist`, which is above
the handlers. -/
theorem Nested.toDefnroot {handlers : List Handler} {control : Control strhash World}
    (nested : Nested handlers control)
    (above : ∀ handler ∈ handlers, handler.pushlist < control.shell.pushlist.length) :
    Nested handlers control.toDefnroot := by
  refine ⟨nested.lengths, nested.fits, fun handler member => ?_, nested.nameroots, nested.sorted⟩
  have isAbove := above handler member
  have lengths := nested.lengths
  cases isNameroots : control.nameroots with
  | nil => simp [isNameroots] at lengths; omega
  | cons nameroot nameroots =>
    have inside : nameroot ∈ control.nameroots.take
        (control.nameroots.length - handler.pushlist) := by
      obtain ⟨m, isSucc⟩ : ∃ m, control.nameroots.length - handler.pushlist = m + 1 :=
        Nat.exists_eq_add_one.mpr (by omega)
      rw [isSucc, isNameroots, List.take_succ_cons]
      exact List.mem_cons_self
    have extends' := nested.nameroots handler member nameroot inside
    simp only [Control.toDefnroot, isNameroots, List.headD_cons]
    exact extends'.trans ((List.suffix_cons _ _).trans (List.suffix_cons _ _))

/-- The head record has been popped. -/
theorem Nested.popped {handlers : List Handler} {control after : Control strhash World}
    {push : Push} {nameroot : List Root} (nested : Nested handlers control)
    (above : ∀ handler ∈ handlers, handler.pushlist < control.shell.pushlist.length)
    (pushlist : control.shell.pushlist = push :: after.shell.pushlist)
    (nameroots : control.nameroots = nameroot :: after.nameroots)
    (rootlist : after.rootlist = nameroot) : Nested handlers after := by
  have lengths := nested.lengths
  simp only [pushlist, nameroots, List.length_cons] at lengths above
  have inside : ∀ handler ∈ handlers, ∀ other ∈ nameroot ::
      after.nameroots.take (after.nameroots.length - handler.pushlist),
      handler.rootlist <:+ other := by
    intro handler member other listed
    refine nested.nameroots handler member other ?_
    have isAbove := above handler member
    rwa [nameroots, List.length_cons, Nat.succ_sub (by omega), List.take_succ_cons]
  refine ⟨by omega, fun handler member => Nat.le_of_lt_succ (above handler member), ?_, ?_,
    nested.sorted⟩
  · intro handler member
    rw [rootlist]
    exact inside handler member nameroot List.mem_cons_self
  · exact fun handler member other listed =>
      inside handler member other (List.mem_cons_of_mem _ listed)

/-! ### Popping without end -/

variable (commands) in
/-- One turn of the loop of `throw_exception`, and whether the settor raised an exception. The
exception takes away the next handler. -/
def popOnce (control : Control strhash World) : Control strhash World × Nat :=
  match varpop commands control.toDefnroot with
  | .ret () after => (after, 0)
  | .raise _ after => ({ after with tophandler := after.tophandler.tail }, 1)
  | .abort => (control, 0)

variable (commands) in
/-- So many turns, and how many exceptions settors have raised in them. -/
def popping : Nat → Control strhash World → Control strhash World × Nat
  | 0, control => (control, 0)
  | turns + 1, control =>
      let first := popOnce commands control
      let rest := popping turns first.1
      (rest.1, first.2 + rest.2)

variable (commands) in
/-- Some handler is reached in time: when the records above the handler `j` are gone, no more
than `j` exceptions have been raised on the way. -/
def Reached (handlers : List Handler) (control : Control strhash World) : Prop :=
  ∃ (j : Nat) (handler : Handler), handlers[j]? = some handler ∧ ∃ turns : Nat,
    let popped := popping commands turns { control with tophandler := handlers.tail }
    popped.1.shell.pushlist.length = handler.pushlist ∧ popped.2 ≤ j

/-- The loop of `throw_exception` from `n` records above the handler: either it pops them all, or
a settor raises an exception while some of them are left. -/
theorem unwind_spec {handler : Handler} {up : List Handler}
    {onward : Exception → Control strhash World → Landing (Control strhash World)} (e : Exception)
    (n : Nat) {control : Control strhash World} (nested : Nested (handler :: up) control)
    (tophandler : control.tophandler = up)
    (length : control.shell.pushlist.length = handler.pushlist + n) :
    (∃ after, unwind commands handler onward e n control = .caught handler e after ∧
        after.shell.pushlist <:+ control.shell.pushlist ∧
        after.shell.pushlist.length = handler.pushlist ∧ after.rootlist = handler.rootlist ∧
        after.evaldepth = handler.evaldepth ∧ after.tophandler = up ∧
        (popping commands n control).1.shell.pushlist.length = handler.pushlist ∧
        (popping commands n control).2 = 0) ∨
      ∃ (k : Nat) (raised : Exception) (after : Control strhash World) (left : List Push), k < n ∧
        unwind commands handler onward e n control = onward raised after ∧
        Nested up after ∧ after.tophandler = up ∧
        left <:+ control.shell.pushlist ∧ handler.pushlist < left.length ∧
        left <:+ after.shell.pushlist ∧
        (∀ turns ≤ k, (popping commands turns control).1.shell.pushlist.length =
          handler.pushlist + n - turns) ∧
        ∀ turns, popping commands (k + 1 + turns) control =
          ((popping commands turns { after with tophandler := up.tail }).1,
            1 + (popping commands turns { after with tophandler := up.tail }).2) := by
  induction n generalizing control with
  | zero =>
    have caught : unwind commands handler onward e 0 control = .caught handler e
        { control with rootlist := handler.rootlist, evaldepth := handler.evaldepth } := by
      rw [unwind, jump, if_pos (nested.rootlist handler List.mem_cons_self)]
    exact .inl ⟨_, caught, List.suffix_rfl, length, rfl, rfl, tophandler, length, rfl⟩
  | succ n inductionHypothesis =>
    have lengths := nested.lengths
    match isPushlist : control.shell.pushlist, isNameroots : control.nameroots with
    | [], _ => simp [isPushlist] at length
    | _ :: _, [] => simp [isPushlist, isNameroots] at lengths
    | push :: pushlist, nameroot :: nameroots =>
      have above : ∀ other ∈ handler :: up, other.pushlist < control.shell.pushlist.length := by
        intro other member
        rcases List.mem_cons.mp member with rfl | member
        · omega
        · have := List.rel_of_pairwise_cons nested.sorted member
          omega
      rcases varpop_toDefnroot commands isPushlist isNameroots with
        ⟨popped, pop, pushlist', nameroots', rootlist', tophandler', -⟩ |
        ⟨raised, after, levels, pop, same⟩
      · -- the record is gone, and the loop goes on
        have once : popOnce commands control = (popped, 0) := by rw [popOnce, pop]
        have nested' : Nested (handler :: up) popped :=
          nested.popped above (pushlist' ▸ isPushlist) (nameroots' ▸ isNameroots) rootlist'
        have length' : popped.shell.pushlist.length = handler.pushlist + n := by
          rw [isPushlist, List.length_cons] at length
          rw [pushlist']
          omega
        have inside : popped.shell.pushlist <:+ control.shell.pushlist := by
          rw [isPushlist, pushlist']
          exact List.suffix_cons _ _
        have turn : ∀ turns, popping commands (turns + 1) control =
            popping commands turns popped := by
          intro turns
          simp [popping, once]
        have step : unwind commands handler onward e (n + 1) control =
            unwind commands handler onward e n popped := by
          rw [unwind, pop]
        rw [step, ← isPushlist]
        rcases inductionHypothesis nested' (tophandler'.trans tophandler) length' with
          ⟨after, run, suffix, rest⟩ |
          ⟨k, raised, after, left, less, run, nested'', tophandler'', suffix, more, kept, before,
            onwards⟩
        · rw [turn]
          exact .inl ⟨after, run, suffix.trans inside, rest⟩
        · refine .inr ⟨k + 1, raised, after, left, Nat.succ_lt_succ less, run, nested'',
            tophandler'', suffix.trans inside, more, kept, ?_, ?_⟩
          · intro turns few
            cases turns with
            | zero => simpa [popping] using length
            | succ turns =>
              rw [turn, before turns (Nat.le_of_succ_le_succ few)]
              omega
          · intro turns
            rw [show k + 1 + 1 + turns = k + 1 + turns + 1 by omega, turn, onwards]
      · -- the exception leaves the record, and what its settor has opened, to the next handler
        have tophandler' : after.tophandler = up :=
          (same.tophandler.trans (tophandler_enterAll _ _)).trans tophandler
        have once : popOnce commands control =
            ({ after with tophandler := up.tail }, 1) := by
          simp only [popOnce, pop, tophandler']
        refine .inr ⟨0, raised, after, control.shell.pushlist, Nat.succ_pos n, ?_, ?_, tophandler',
          ?_, ?_, ?_, ?_, ?_⟩
        · rw [unwind, pop]
        · exact ((nested.tail.toDefnroot fun other member =>
            above other (List.mem_cons_of_mem _ member)).enterAll levels).of_sameStacks same
        · rw [isPushlist]
        · omega
        · rw [same.pushlist]
          exact pushlist_enterAll control.toDefnroot levels
        · intro turns few
          obtain rfl := Nat.le_zero.mp few
          simpa [popping] using length
        · intro turns
          rw [Nat.add_comm (0 + 1) turns, zero_add, popping, once]

/-- Control is in one of the handlers, the stacks are as they were when it was installed, and the
handlers above it are gone. -/
def Landed (handlers : List Handler) (control : Control strhash World)
    (landing : Landing (Control strhash World)) : Prop :=
  ∃ (handler : Handler) (e : Exception) (after : Control strhash World) (above : List Handler),
    landing = .caught handler e after ∧ handlers = above ++ handler :: after.tophandler ∧
      after.shell.pushlist <:+ control.shell.pushlist ∧
      after.shell.pushlist.length = handler.pushlist ∧ after.rootlist = handler.rootlist ∧
      after.evaldepth = handler.evaldepth

/-- `throw_exception` lands, and some handler is reached in time, or it runs out of handlers and
none is. -/
theorem throwException_spec (commands : Evaluator strhash World) {handlers : List Handler}
    {control : Control strhash World}
    (nested : Nested handlers control) (e : Exception) :
    Landed handlers control (throwException commands handlers e control) ∧
        Reached commands handlers control ∨
      throwException commands handlers e control = .abort ∧
        ¬Reached commands handlers control := by
  induction handlers generalizing control e with
  | nil =>
    refine .inr ⟨rfl, ?_⟩
    rintro ⟨j, handler, isHandler, -⟩
    simp at isHandler
  | cons handler up inductionHypothesis =>
    have fits := nested.fits handler List.mem_cons_self
    let start : Control strhash World := { control with tophandler := up }
    have nestedStart : Nested (handler :: up) start :=
      ⟨nested.lengths, nested.fits, nested.rootlist, nested.nameroots, nested.sorted⟩
    have run : throwException commands (handler :: up) e control =
        unwind commands handler (throwException commands up) e
          (control.shell.pushlist.length - handler.pushlist) start := by
      rw [throwException, if_neg (Nat.not_lt.mpr fits)]
    have reached : Reached commands (handler :: up) control ↔
        ∃ (j : Nat) (other : Handler), (handler :: up)[j]? = some other ∧ ∃ turns : Nat,
          (popping commands turns start).1.shell.pushlist.length = other.pushlist ∧
            (popping commands turns start).2 ≤ j := Iff.rfl
    rw [run, reached]
    rcases unwind_spec e (control.shell.pushlist.length - handler.pushlist) nestedStart rfl
      (Nat.add_sub_cancel' fits).symm with
      ⟨after, caught, suffix, length, rootlist, evaldepth, tophandler, down, none⟩ |
      ⟨k, raised, after, left, less, caught, nested', tophandler, suffix, more, kept, before,
        onwards⟩
    · exact .inl ⟨⟨handler, e, after, [], caught, by rw [tophandler, List.nil_append], suffix,
        length, rootlist, evaldepth⟩, 0, handler, rfl, _, down, none.le⟩
    · rw [caught]
      -- the first handler is out of reach, and the exception is thrown to the others
      have reachedUp : Reached commands up after ↔
          ∃ (j : Nat) (other : Handler), (handler :: up)[j]? = some other ∧ ∃ turns : Nat,
            (popping commands turns start).1.shell.pushlist.length = other.pushlist ∧
              (popping commands turns start).2 ≤ j := by
        constructor
        · rintro ⟨j, other, isHandler, turns, down, few⟩
          refine ⟨j + 1, other, isHandler, k + 1 + turns, ?_, ?_⟩
          · rw [onwards]
            exact down
          · rw [onwards]
            show 1 + (popping commands turns _).2 ≤ j + 1
            omega
        · rintro ⟨j, other, isHandler, turns, down, few⟩
          have fit : other.pushlist ≤ handler.pushlist := by
            cases j with
            | zero => exact (Option.some.inj isHandler) ▸ Nat.le_refl _
            | succ j =>
              exact List.rel_of_pairwise_cons nested.sorted (List.mem_of_getElem? isHandler)
          -- by then the exception has been raised
          have late : k < turns := by
            by_contra early
            have still := before turns (Nat.le_of_not_lt early)
            omega
          obtain ⟨later, rfl⟩ := Nat.exists_eq_add_of_lt late
          rw [show k + later + 1 = k + 1 + later by omega, onwards] at down few
          change 1 + (popping commands later _).2 ≤ j at few
          cases j with
          | zero => omega
          | succ j => exact ⟨j, other, isHandler, later, down, by omega⟩
      rw [← reachedUp]
      rcases inductionHypothesis nested' raised with ⟨landed, isReached⟩ | ⟨exhausted, isNot⟩
      · obtain ⟨other, e', landed, above, landing, split, suffix', length', rest⟩ := landed
        refine .inl ⟨⟨other, e', landed, handler :: above, landing, by rw [split]; rfl, ?_,
          length', rest⟩, isReached⟩
        have member : other ∈ up := by
          rw [split]
          exact List.mem_append_right _ List.mem_cons_self
        have fit := List.rel_of_pairwise_cons nested.sorted member
        exact (List.suffix_of_suffix_length_le suffix' kept (by omega)).trans suffix
      · exact .inr ⟨exhausted, isNot⟩

/-! ### Settors that fail -/

theorem Nested.install {control : Control strhash World}
    (nested : Nested control.tophandler control) :
    Nested control.install.tophandler control.install := by
  obtain ⟨lengths, fits, rootlist, nameroots, sorted⟩ := nested
  refine ⟨lengths, List.forall_mem_cons.mpr ⟨Nat.le_refl _, fits⟩,
    List.forall_mem_cons.mpr ⟨List.suffix_rfl, rootlist⟩,
    List.forall_mem_cons.mpr ⟨?_, nameroots⟩, List.pairwise_cons.mpr ⟨fits, sorted⟩⟩
  intro nameroot member
  change nameroot ∈ control.nameroots.take
    (control.nameroots.length - control.shell.pushlist.length) at member
  rw [lengths, Nat.sub_self] at member
  cases member

theorem nested_openAll (shell : Shell strhash) (world : World) (rootlist : List Root)
    (evaldepth : Nat) (openers : List Opener) :
    Nested ((bottom shell world rootlist evaldepth).openAll openers).tophandler
      ((bottom shell world rootlist evaldepth).openAll openers) := by
  induction openers with
  | nil => exact ⟨rfl, by simp [bottom, openAll], by simp [bottom, openAll],
      by simp [bottom, openAll], List.Pairwise.nil⟩
  | cons opener openers inductionHypothesis =>
    cases opener with
    | handler => exact inductionHypothesis.install
    | level level =>
      have entered := inductionHypothesis.enter level
      cases level <;> exact entered

variable (commands) in
/-- A `varpop` that is to leave the stacks of `closed` returns, or control is in a handler. -/
def VarpopEnds (control closed : Control strhash World) : Prop :=
  match varpop commands control with
  | .ret () after => SameStacks after closed
  | .raise e after => Landed after.tophandler after (throw_exception commands e after)
  | .abort => False

/-- Whatever settors do, `throw_exception` lands in a handler exactly if some handler is reached in
time, and `varpop` ends exactly if this is so after an exception of its settor. -/
theorem throw_exception_landed_iff (commands : Evaluator strhash World) (shell : Shell strhash)
    (world : World) (rootlist : List Root) (evaldepth : Nat) (openers : List Opener)
    (e : Exception) (push : Push) :
    let control := (bottom shell world rootlist evaldepth).openAll openers
    (Landed control.tophandler control (throw_exception commands e control) ↔
        Reached commands control.tophandler control) ∧
      (VarpopEnds commands (control.enter (.push push)) control ↔
        ∀ raised after, varpop commands (control.enter (.push push)) = .raise raised after →
          Reached commands after.tophandler after) := by
  intro control
  have landed_iff : ∀ {control : Control strhash World} (e : Exception),
      Nested control.tophandler control →
      (Landed control.tophandler control (throw_exception commands e control) ↔
        Reached commands control.tophandler control) := by
    intro control e nested
    rcases throwException_spec commands nested e with
      ⟨landed, reached⟩ | ⟨exhausted, unreached⟩
    · exact iff_of_true landed reached
    · refine iff_of_false ?_ unreached
      rintro ⟨handler, raised, after, above, caught, -⟩
      rw [throw_exception, exhausted] at caught
      cases caught
  have nested : Nested control.tophandler control := nested_openAll ..
  refine ⟨landed_iff e nested, ?_⟩
  have same : (control.enter (.push push)).toDefnroot = control.enter (.push push) := rfl
  have popping := varpop_toDefnroot commands
    (show (control.enter (.push push)).shell.pushlist = push :: control.shell.pushlist from rfl)
    (show (control.enter (.push push)).nameroots = control.rootlist :: control.nameroots from rfl)
  rw [same] at popping
  rw [VarpopEnds]
  rcases popping with ⟨after, pop, pushlist, nameroots, rootlist, tophandler, evaldepth⟩ |
    ⟨raised, after, levels, pop, kept⟩
  · rw [pop]
    exact iff_of_true ⟨pushlist, nameroots, rootlist, tophandler, evaldepth⟩
      fun raised after same => (by cases same)
  · rw [pop]
    have tophandler : after.tophandler = control.tophandler :=
      kept.tophandler.trans (tophandler_enterAll _ levels)
    have nested' : Nested after.tophandler after := by
      rw [tophandler]
      exact ((nested.enter (.push push)).enterAll levels).of_sameStacks kept
    refine (landed_iff raised nested').trans ⟨?_, fun all => all raised after rfl⟩
    intro reached raised' after' same
    obtain ⟨rfl, rfl⟩ := Outcome.raise.inj same
    exact reached

/-- A variable `x` with a settor. -/
def withSettor : Shell List.length :=
  { Shell.initvars with
    heap := ⟨[.str (lit "throw")], []⟩
    vars := Dictionary.mkdict.put (lit "set-x") (some ⟨[0], none, false, false⟩) }

/-- Every command raises an exception. -/
def throwing : Evaluator List.length Unit := fun list shell world =>
  .raise ⟨list.headD 0, []⟩ shell world []

/-- The root handler, and a record of `x`. -/
def rootOnly : Control List.length Unit :=
  (bottom withSettor () [] 0).openAll [.level (.push ⟨lit "x", [], false, false⟩), .handler]

/-- The settor takes away the root handler, and there is none left for its exception. -/
theorem throw_exception_exhausted :
    rootOnly.tophandler.length = 1 ∧ throw_exception throwing ⟨0, []⟩ rootOnly = .abort ∧
      ¬Landed rootOnly.tophandler rootOnly (throw_exception throwing ⟨0, []⟩ rootOnly) := by
  have exhausted : (match throw_exception throwing ⟨0, []⟩ rootOnly with
      | .abort => true
      | .caught _ _ _ => false) = true := by decide +kernel
  have aborts : throw_exception throwing ⟨0, []⟩ rootOnly = .abort := by
    cases landing : throw_exception throwing ⟨0, []⟩ rootOnly with
    | abort => rfl
    | caught handler e after =>
      rw [landing] at exhausted
      cases exhausted
  refine ⟨rfl, aborts, ?_⟩
  rintro ⟨handler, e, after, above, caught, -⟩
  rw [aborts] at caught
  cases caught

end Control

end Desh
