/-
This file proves what the signal handling of `Signals.lean` guarantees, whenever
the signals come. Nothing is taken that has not arrived, a caught signal stays
caught until it is taken, and a system call that returns has not slept through a
signal.
-/

import Desh.Signals

namespace Desh

namespace Signals

/-! ### What a step does -/

/-- A step, by what it does: a `catcher` is entered, the innermost one goes on, a function is
called, `sigchk` or `eread` goes on, or only `blocked` and `hasforked` change. -/
inductive Stepped (nsig : Nat) (before : State) : Act → State → Prop
  | arrive {sig : Nat} (pos : 0 < sig) (lt : sig < nsig) (free : before.masks sig = false) :
      Stepped nsig before (.arrive sig) (before.enter sig false)
  | call {sig : Nat} (pos : 0 < sig) (lt : sig < nsig) (none : before.frames = [])
      (other : before.main = .other) : Stepped nsig before (.call sig) (before.enter sig true)
  | handle {frame : Frame} {rest : List Frame} (frames : before.frames = frame :: rest) :
      Stepped nsig before .handle (before.handle frame rest)
  | start {act : Act} {main : Main} (none : before.frames = []) (other : before.main = .other)
      (first : main = .poll .count ∨ main = .slow .start) :
      Stepped nsig before act { before with main }
  | poll {result : Int} {place : Poll} (none : before.frames = [])
      (main : before.main = .poll place) :
      Stepped nsig before (.advance result) (before.poll nsig place)
  | read {result : Int} {place : Slow} (none : before.frames = [])
      (main : before.main = .slow place) :
      Stepped nsig before (.advance result) (before.read result place)
  | rest {act : Act} {blocked : Int} {hasforked : Bool} (none : before.frames = [])
      (other : before.main = .other) :
      Stepped nsig before act { before with blocked, hasforked }

theorem State.idle_iff {state : State} :
    state.idle = true ↔ state.frames = [] ∧ state.main = .other := by
  rw [State.idle, Bool.and_eq_true, List.isEmpty_iff, beq_iff_eq]

theorem stepped_of_step {nsig : Nat} {before after : State} {act : Act}
    (step : before.step nsig act = some after) : Stepped nsig before act after := by
  unfold State.step at step
  split at step
  · cases step
  cases act with
  | arrive sig =>
    simp only [Option.ite_none_right_eq_some, Option.some.injEq] at step
    obtain ⟨⟨pos, lt, free⟩, rfl⟩ := step
    exact .arrive pos lt free
  | call sig =>
    simp only [Option.ite_none_right_eq_some, Option.some.injEq, State.idle_iff] at step
    obtain ⟨⟨pos, lt, none, other⟩, rfl⟩ := step
    exact .call pos lt none other
  | handle =>
    cases frames : before.frames with
    | nil => simp only [frames, reduceCtorEq] at step
    | cons frame rest =>
      simp only [frames, Option.some.injEq] at step
      exact step ▸ .handle frames
  | sigchk =>
    simp only [Option.ite_none_right_eq_some, Option.some.injEq, State.idle_iff] at step
    obtain ⟨⟨none, other⟩, rfl⟩ := step
    exact .start none other (.inl rfl)
  | eread =>
    simp only [Option.ite_none_right_eq_some, Option.some.injEq, State.idle_iff] at step
    obtain ⟨⟨none, other⟩, rfl⟩ := step
    exact .start none other (.inr rfl)
  | advance result =>
    cases none : before.frames with
    | cons frame rest => simp only [none, reduceCtorEq] at step
    | nil =>
      cases main : before.main with
      | other => simp only [none, main, reduceCtorEq] at step
      | poll place =>
        simp only [none, main, Option.some.injEq] at step
        exact step ▸ .poll none main
      | slow place =>
        simp only [none, main, Option.some.injEq] at step
        exact step ▸ .read none main
  | blocksignals =>
    simp only [Option.ite_none_right_eq_some, Option.some.injEq, State.idle_iff] at step
    obtain ⟨⟨none, other⟩, rfl⟩ := step
    exact .rest none other
  | unblocksignals =>
    simp only [Option.ite_none_right_eq_some, Option.some.injEq, State.idle_iff] at step
    obtain ⟨⟨⟨none, other⟩, -⟩, rfl⟩ := step
    exact .rest none other
  | fork =>
    simp only [Option.ite_none_right_eq_some, Option.some.injEq, State.idle_iff] at step
    obtain ⟨⟨none, other⟩, rfl⟩ := step
    exact .rest none other

/-- What holds at first and is kept by every allowed step holds in every state reached. -/
theorem Reachable.invariant {nsig : Nat} {allowed : State → Act → Prop} (property : State → Prop)
    (initial : property .initial)
    (kept : ∀ before act after, property before → allowed before act →
      Stepped nsig before act after → property after)
    {state : State} (reachable : Reachable nsig allowed state) : property state := by
  induction reachable with
  | refl => exact initial
  | tail _ step held =>
    obtain ⟨act, allowed, step⟩ := step
    exact kept _ act _ held allowed (stepped_of_step step)

/-- Steps that are allowed in every state lead from a state that is reached to another. -/
theorem Reachable.run {nsig : Nat} {allowed : State → Act → Prop} {acts : List Act}
    (always : ∀ act ∈ acts, ∀ state, allowed state act) {before after : State}
    (reachable : Reachable nsig allowed before) (run : before.run nsig acts = some after) :
    Reachable nsig allowed after := by
  induction acts generalizing before with
  | nil =>
    cases run
    exact reachable
  | cons act acts ih =>
    rw [State.run, List.foldlM_cons] at run
    obtain ⟨next, step, run⟩ := Option.bind_eq_some_iff.mp run
    exact ih (fun other member => always other (List.mem_cons_of_mem _ member))
      (reachable.tail ⟨act, always act List.mem_cons_self before, step⟩) run

/-! ### Nothing is invented and nothing is forgotten -/

/-- Has `catcher` made sure that its signal is caught? -/
def Handler.late : Handler → Bool
  | .test | .assign => false
  | _ => true

/-- Is this a `catcher` of a signal that has not yet made sure of that? -/
def Frame.early (sig : Nat) (frame : Frame) : Bool := frame.sig == sig && !frame.place.late

/-- The signal that `sigchk` is about to take. -/
def Main.taking : Main → Option Nat
  | .poll (.load sig) | .poll (.store sig _) | .poll (.clear sig) => some sig
  | _ => none

/-- A signal is caught once its `catcher` is past the assignment, until it is taken, and every
signal taken, caught or about to be caught has arrived. -/
structure Kept (state : State) : Prop where
  late : ∀ frame ∈ state.frames, frame.place.late → state.caught frame.sig = true
  taking : ∀ sig, state.main.taking = some sig → state.caught sig = true
  handled : ∀ sig, .handled sig ∈ state.log.takeWhile (· ≠ .taken sig) → state.caught sig = true
  count : ∀ sig, state.log.count (.taken sig) + (state.caught sig).toNat +
    state.frames.countP (Frame.early sig) ≤ state.log.count (.arrived sig)

theorem Kept.enter {state : State} (kept : Kept state) (sig : Nat) (direct : Bool) :
    Kept (state.enter sig direct) where
  late frame member late := by
    rcases List.mem_cons.mp member with rfl | member
    · cases late
    · exact kept.late frame member late
  taking := kept.taking
  handled other member := by
    refine kept.handled other ?_
    simpa [State.enter, List.takeWhile_cons] using member
  count other := by
    have before := kept.count other
    by_cases same : sig = other
    · simp [State.enter, Frame.early, Handler.late, same] at before ⊢
      omega
    · simp [State.enter, Frame.early, Handler.late, same] at before ⊢
      omega

theorem Kept.goto {state : State} (kept : Kept state) {frame : Frame} {rest : List Frame}
    (frames : state.frames = frame :: rest) {place : Handler}
    (late : place.late → state.caught frame.sig = true)
    (early : place.late = false → frame.place.late = false) :
    Kept (state.goto frame rest place) where
  late other member past := by
    rcases List.mem_cons.mp member with rfl | member
    · exact late past
    · exact kept.late other (frames ▸ List.mem_cons_of_mem _ member) past
  taking := kept.taking
  handled := kept.handled
  count sig := by
    have before := kept.count sig
    rw [frames] at before
    have fewer : (if Frame.early sig { frame with place } = true then 1 else 0) ≤
        if Frame.early sig frame = true then 1 else 0 := by
      cases past : place.late <;> simp_all [Frame.early]
    simp only [State.goto, List.countP_cons] at before ⊢
    omega

theorem update_true {caught : Nat → Bool} {sig : Nat} (assigned : Nat)
    (held : caught sig = true) : Function.update caught assigned true sig = true := by
  rw [Function.update_apply]
  split
  · rfl
  · exact held

/-- The assignment of `catcher`. -/
theorem Kept.assign {state : State} (kept : Kept state) {frame : Frame} {rest : List Frame}
    (frames : state.frames = frame :: rest) (place : frame.place = .assign) :
    Kept (State.goto { state with caught := Function.update state.caught frame.sig true }
      frame rest .load) where
  late other member past := by
    rcases List.mem_cons.mp member with rfl | member
    · exact Function.update_self ..
    · exact update_true _ (kept.late other (frames ▸ List.mem_cons_of_mem _ member) past)
  taking sig taking := update_true _ (kept.taking sig taking)
  handled sig member := update_true _ (kept.handled sig member)
  count sig := by
    have before := kept.count sig
    rw [frames] at before
    by_cases same : sig = frame.sig
    · -- The call was early, and the flag it sets counts in its place.
      subst same
      simp only [List.countP_cons, Frame.early, place, Handler.late, beq_self_eq_true,
        Bool.not_false, Bool.and_self, if_true, State.goto, Function.update_self, Bool.not_true,
        Bool.and_false, Bool.false_eq_true, if_false, Bool.toNat_true] at before ⊢
      omega
    · have other : (frame.sig == sig) = false := beq_false_of_ne (Ne.symm same)
      simpa only [List.countP_cons, Frame.early, other, Bool.false_and, Bool.false_eq_true,
        if_false, State.goto, Function.update_of_ne same] using before

/-- The end of a `catcher`, whichever calls of it are left. -/
theorem Kept.handled_cons {state : State} (kept : Kept state) {sig : Nat}
    (caught : state.caught sig = true) {frames : List Frame} (sublist : frames.Sublist state.frames)
    {main : Main} (same : ∀ taken, main.taking = some taken → state.main.taking = some taken) :
    Kept { state with frames, main, log := .handled sig :: state.log } where
  late frame member := kept.late frame (sublist.subset member)
  taking taken taking := kept.taking taken (same taken taking)
  handled other member := by
    rw [List.takeWhile_cons_of_pos (by simp), List.mem_cons] at member
    rcases member with same | member
    · cases same
      exact caught
    · exact kept.handled other member
  count other := by
    have before := kept.count other
    have fewer := sublist.countP_le (p := Frame.early other)
    simp only [List.count_cons, beq_iff_eq, reduceCtorEq, if_false, Nat.add_zero]
    omega

theorem Kept.handle {state : State} (kept : Kept state) {frame : Frame} {rest : List Frame}
    (frames : state.frames = frame :: rest) : Kept (state.handle frame rest) := by
  have member : frame ∈ state.frames := frames ▸ List.mem_cons_self
  unfold State.handle
  cases place : frame.place with
  | test =>
    simp only
    split
    · exact ⟨kept.late, kept.taking, kept.handled, kept.count⟩
    split
    next caught => exact kept.goto frames (fun _ => caught) fun early => by cases early
    next => exact kept.goto frames (fun late => by cases late) fun _ => by rw [place]; rfl
  | assign => exact kept.assign frames place
  | load =>
    exact kept.goto frames (fun _ => kept.late frame member (by rw [place]; rfl))
      fun early => by cases early
  | store sigcount =>
    have counted : Kept { state with sigcount := sigcount + 1 } :=
      ⟨kept.late, kept.taking, kept.handled, kept.count⟩
    exact counted.goto frames (fun _ => kept.late frame member (by rw [place]; rfl))
      fun early => by cases early
  | interrupt =>
    have interrupted : Kept { state with interrupted := true } :=
      ⟨kept.late, kept.taking, kept.handled, kept.count⟩
    exact interrupted.goto frames (fun _ => kept.late frame member (by rw [place]; rfl))
      fun early => by cases early
  | jump =>
    have caught := kept.late frame member (by rw [place]; rfl)
    simp only
    split
    · exact kept.handled_cons caught (List.nil_sublist _) fun _ taking => by cases taking
    · exact kept.handled_cons caught (frames ▸ List.sublist_cons_self ..) fun _ => id

/-- The place of the shell changes, and perhaps variables that none of these facts is about. -/
theorem Kept.move {state : State} (kept : Kept state) {main : Main}
    (taking : ∀ sig, main.taking = some sig → state.caught sig = true) (sigcount : Int)
    (interrupted slow exited : Bool) :
    Kept { state with main, sigcount, interrupted, slow, exited } :=
  ⟨kept.late, taking, kept.handled, kept.count⟩

theorem Kept.clear {state : State} (kept : Kept state) (none : state.frames = []) {sig : Nat}
    (caught : state.caught sig = true) :
    Kept { state with
      caught := Function.update state.caught sig false
      main := .other
      log := .taken sig :: state.log } where
  late frame member := by
    rw [none] at member
    cases member
  taking other taking := by cases taking
  handled other member := by
    by_cases same : other = sig
    · subst same
      rw [List.takeWhile_cons_of_neg (by simp)] at member
      cases member
    · rw [List.takeWhile_cons_of_pos (by simpa using fun eq => same eq.symm), List.mem_cons]
        at member
      rcases member with eq | member
      · cases eq
      · exact (Function.update_of_ne same ..).trans (kept.handled other member)
  count other := by
    have before := kept.count other
    rw [none] at before ⊢
    by_cases same : other = sig
    · subst same
      simp only [caught, Bool.toNat_true, List.countP_nil] at before
      simp only [Function.update_self, Bool.toNat_false, List.count_cons_self, List.countP_nil,
        List.count_cons, beq_iff_eq, reduceCtorEq, if_false]
      omega
    · have ne : ¬sig = other := fun eq => same eq.symm
      simpa only [List.count_cons, beq_iff_eq, Event.taken.injEq, ne, if_false, reduceCtorEq,
        Function.update_of_ne same, Nat.add_zero] using before

theorem Kept.poll {state : State} (kept : Kept state) {nsig : Nat} {place : Poll}
    (none : state.frames = []) (main : state.main = .poll place) :
    Kept (state.poll nsig place) := by
  have taking : ∀ sig, (Main.poll place).taking = some sig → state.caught sig = true :=
    main ▸ kept.taking
  unfold State.poll
  cases place with
  | count =>
    simp only
    split
    · exact kept.move (fun _ taking => by cases taking) ..
    split
    · exact ⟨kept.late, kept.taking, kept.handled, kept.count⟩
    · exact kept.move (fun _ taking => by cases taking) ..
  | scan sig =>
    simp only
    split
    · exact kept.move (fun _ taking => by cases taking) ..
    split
    next caught =>
      refine kept.move (fun other taking => ?_) ..
      cases taking
      exact caught
    · exact kept.move (fun _ taking => by cases taking) ..
  | load sig =>
    refine kept.move (fun other same => ?_) ..
    exact taking other same
  | store sig sigcount =>
    refine kept.move (fun other same => ?_) ..
    exact taking other same
  | clear sig => exact kept.clear none (taking sig rfl)
  | reset => exact kept.move (fun _ taking => by cases taking) ..

/-- The events of `eread` are not about signals. -/
theorem Kept.log {state : State} (kept : Kept state) {event : Event}
    (neither : ∀ sig, event ≠ .arrived sig ∧ event ≠ .handled sig ∧ event ≠ .taken sig) :
    Kept { state with log := event :: state.log } where
  late := kept.late
  taking := kept.taking
  handled sig member := by
    rw [List.takeWhile_cons_of_pos (by simpa using (neither sig).2.2), List.mem_cons] at member
    rcases member with same | member
    · exact absurd same.symm (neither sig).2.1
    · exact kept.handled sig member
  count sig := by
    rw [List.count_cons_of_ne (neither sig).2.2, List.count_cons_of_ne (neither sig).1]
    exact kept.count sig

theorem Kept.read {state : State} (kept : Kept state) {result : Int} {place : Slow} :
    Kept (state.read result place) := by
  unfold State.read
  cases place with
  | start =>
    have logged := @Kept.log _ kept .began fun sig =>
      ⟨Event.noConfusion, Event.noConfusion, Event.noConfusion⟩
    exact logged.move (fun _ taking => by cases taking) ..
  | arm => exact kept.move (fun _ taking => by cases taking) ..
  | check =>
    simp only
    split
    · exact kept.move (fun _ taking => by cases taking) ..
    · exact kept.move (fun _ taking => by cases taking) ..
  | call => exact kept.move (fun _ taking => by cases taking) ..
  | finish returned =>
    have logged := @Kept.log _ kept (.returned returned) fun sig =>
      ⟨Event.noConfusion, Event.noConfusion, Event.noConfusion⟩
    exact logged.move (fun _ taking => by cases taking) ..

theorem Kept.step {nsig : Nat} {before after : State} {act : Act} (kept : Kept before)
    (stepped : Stepped nsig before act after) : Kept after := by
  cases stepped with
  | arrive => exact kept.enter ..
  | call => exact kept.enter ..
  | handle frames => exact kept.handle frames
  | start none other first =>
    rcases first with rfl | rfl
    · exact kept.move (fun _ taking => by cases taking) ..
    · exact kept.move (fun _ taking => by cases taking) ..
  | poll none main => exact kept.poll none main
  | read none main => exact kept.read
  | rest => exact ⟨kept.late, kept.taking, kept.handled, kept.count⟩

theorem kept_initial : Kept .initial where
  late frame member := by cases member
  taking sig taking := by cases taking
  handled sig member := by cases member
  count sig := Nat.zero_le 0

theorem Reachable.kept {nsig : Nat} {allowed : State → Act → Prop} {state : State}
    (reachable : Reachable nsig allowed state) : Kept state :=
  reachable.invariant Kept kept_initial fun _ _ _ kept _ stepped => kept.step stepped

/-- Whenever signals come, one is taken at most as often as it has arrived, and once its `catcher`
has come to its end it stays caught until it is taken. -/
theorem taken_le_arrived {nsig : Nat} {state : State} (reachable : Reachable nsig Anytime state)
    (sig : Nat) :
    state.log.count (.taken sig) ≤ state.log.count (.arrived sig) ∧
      (.handled sig ∈ state.log.takeWhile (· ≠ .taken sig) → state.caught sig = true) :=
  ⟨by have := reachable.kept.count sig; omega, reachable.kept.handled sig⟩

/-- Signal 2 is caught while signal 3 is being handled, and one of them is taken. -/
def twoSignals : List Act :=
  [.arrive 3, .handle, .arrive 2] ++ List.replicate 11 .handle ++
    .sigchk :: List.replicate 7 (.advance 0)

theorem taken_le_arrived_twoSignals :
    ∃ state, State.initial.run 5 twoSignals = some state ∧
      state.log.count (.taken 2) ≤ state.log.count (.arrived 2) ∧
        (.handled 2 ∈ state.log.takeWhile (· ≠ .taken 2) → state.caught 2 = true) := by
  have some : (State.initial.run 5 twoSignals).isSome := by decide
  obtain ⟨state, run⟩ := Option.isSome_iff_exists.mp some
  exact ⟨state, run, taken_le_arrived
    (Reachable.run (fun _ _ _ => trivial) Relation.ReflTransGen.refl run) 2⟩

/-! ### No system call sleeps through a signal -/

/-- Is the shell where `slowlabel` is set and `slow` is on? -/
def Main.jumpable : Main → Bool
  | .slow .check | .slow .call | .slow (.finish _) => true
  | _ => false

/-- Is `eread` yet to test `interrupted`? -/
def Main.testing : Main → Bool
  | .slow .arm | .slow .check => true
  | _ => false

/-- Is `eread` in the system call, or back from it? -/
def Main.calling : Main → Bool
  | .slow .call => true
  | .slow (.finish result) => result.isSome
  | _ => false

/-- What has been recorded since the last slow call began. -/
def State.since (state : State) : List Event := state.log.takeWhile (· ≠ .began)

/-- `slow` says where the shell is. A signal that has come and gone since the slow call began has
set `interrupted` if that is yet to be tested; otherwise it has ended the call. -/
structure Awake (state : State) : Prop where
  slow : state.slow = state.main.jumpable
  interrupted : ∀ frame ∈ state.frames, frame.place = .jump → state.interrupted = true
  testing : state.frames = [] → state.main.testing → ∀ sig, .arrived sig ∈ state.since →
    state.interrupted = true
  calling : state.frames = [] → state.main.calling → ∀ sig, .arrived sig ∉ state.since
  returned : ∀ result earlier, (.returned (some result) :: earlier) <:+ state.log →
    ∀ sig, .arrived sig ∉ earlier.takeWhile (· ≠ .began)

/-- A slow call that returned something is still in the log if what is added is no such return. -/
theorem suffix_of_cons {event : Event} {log earlier : List Event} {result : Int}
    (suffix : (.returned (some result) :: earlier) <:+ event :: log)
    (ne : event ≠ .returned (some result)) : (.returned (some result) :: earlier) <:+ log := by
  rcases List.suffix_cons_iff.mp suffix with eq | suffix
  · exact absurd (List.cons.inj eq).1.symm ne
  · exact suffix

theorem Awake.enter {state : State} (awake : Awake state) (sig : Nat) (direct : Bool) :
    Awake (state.enter sig direct) where
  slow := awake.slow
  interrupted frame member jump := by
    rcases List.mem_cons.mp member with rfl | member
    · cases jump
    · exact awake.interrupted frame member jump
  testing none := by cases none
  calling none := by cases none
  returned result earlier suffix :=
    awake.returned result earlier (suffix_of_cons suffix Event.noConfusion)

/-- A handler goes on to a place where `interrupted` has been set if it is the last one. -/
theorem Awake.goto {state : State} (awake : Awake state) {frame : Frame} {rest : List Frame}
    (frames : state.frames = frame :: rest) {place : Handler}
    (jump : place = .jump → state.interrupted = true) : Awake (state.goto frame rest place) where
  slow := awake.slow
  interrupted other member jumps := by
    rcases List.mem_cons.mp member with rfl | member
    · exact jump jumps
    · exact awake.interrupted other (frames ▸ List.mem_cons_of_mem _ member) jumps
  testing none := by cases none
  calling none := by cases none
  returned := awake.returned

theorem Awake.handle {state : State} (awake : Awake state) {frame : Frame} {rest : List Frame}
    (frames : state.frames = frame :: rest) : Awake (state.handle frame rest) := by
  unfold State.handle
  cases place : frame.place with
  | test =>
    simp only
    split
    · exact ⟨awake.slow, awake.interrupted, awake.testing, awake.calling, awake.returned⟩
    split
    · exact awake.goto frames Handler.noConfusion
    · exact awake.goto frames Handler.noConfusion
  | assign =>
    have assigned : Awake { state with caught := Function.update state.caught frame.sig true } :=
      ⟨awake.slow, awake.interrupted, awake.testing, awake.calling, awake.returned⟩
    exact assigned.goto frames Handler.noConfusion
  | load => exact awake.goto frames Handler.noConfusion
  | store sigcount =>
    have counted : Awake { state with sigcount := sigcount + 1 } :=
      ⟨awake.slow, awake.interrupted, awake.testing, awake.calling, awake.returned⟩
    exact counted.goto frames Handler.noConfusion
  | interrupt =>
    have interrupted : Awake { state with interrupted := true } :=
      ⟨awake.slow, fun _ _ _ => rfl, fun _ _ _ _ => rfl, awake.calling, awake.returned⟩
    exact interrupted.goto frames fun _ => rfl
  | jump =>
    have set := awake.interrupted frame (frames ▸ List.mem_cons_self) place
    simp only
    split
    next slow =>
      exact
        { slow := slow
          interrupted := fun _ member => by cases member
          testing := fun _ testing => by cases testing
          calling := fun _ calling => by cases calling
          returned := fun result earlier suffix =>
            awake.returned result earlier (suffix_of_cons suffix Event.noConfusion) }
    next slow =>
      refine
        { slow := awake.slow
          interrupted := fun _ _ _ => set
          testing := fun _ _ _ _ => set
          calling := fun _ calling => ?_
          returned := fun result earlier suffix =>
            awake.returned result earlier (suffix_of_cons suffix Event.noConfusion) }
      -- In the call `slow` is on, and the handler would have jumped out of it.
      have jumpable : state.main.jumpable = true := by
        generalize state.main = main at calling ⊢
        match main, calling with
        | .slow .call, _ => rfl
        | .slow (.finish (some _)), _ => rfl
      exact absurd (awake.slow.trans jumpable) slow

/-- The shell goes on outside slow calls. -/
theorem Awake.move {state : State} (awake : Awake state)
    (before : state.main.jumpable = false) (main : Main) (jumpable : main.jumpable = false)
    (testing : main.testing = false) (calling : main.calling = false) (sigcount : Int) :
    Awake { state with main, sigcount } where
  slow := awake.slow.trans (before.trans jumpable.symm)
  interrupted := awake.interrupted
  testing _ is := absurd is (by simp [testing])
  calling _ is := absurd is (by simp [calling])
  returned := awake.returned

theorem Awake.poll {state : State} (awake : Awake state) {nsig : Nat} {place : Poll}
    (main : state.main = .poll place) : Awake (state.poll nsig place) := by
  have jumpable : state.main.jumpable = false := by rw [main]; rfl
  unfold State.poll
  cases place with
  | count =>
    simp only
    split
    · exact awake.move jumpable .other rfl rfl rfl ..
    split
    · exact ⟨awake.slow, awake.interrupted, awake.testing, awake.calling, awake.returned⟩
    · exact awake.move jumpable (.poll (.scan 0)) rfl rfl rfl ..
  | scan sig =>
    simp only
    split
    · exact awake.move jumpable (.poll .reset) rfl rfl rfl ..
    split
    · exact awake.move jumpable (.poll (.load sig)) rfl rfl rfl ..
    · exact awake.move jumpable (.poll (.scan (sig + 1))) rfl rfl rfl ..
  | load sig => exact awake.move jumpable (.poll (.store sig state.sigcount)) rfl rfl rfl ..
  | store sig sigcount => exact awake.move jumpable (.poll (.clear sig)) rfl rfl rfl ..
  | clear sig =>
    exact
      { slow := awake.slow.trans jumpable
        interrupted := awake.interrupted
        testing := fun _ testing => by cases testing
        calling := fun _ calling => by cases calling
        returned := fun result earlier suffix =>
          awake.returned result earlier (suffix_of_cons suffix Event.noConfusion) }
  | reset => exact awake.move jumpable .other rfl rfl rfl ..

theorem Awake.read {state : State} (awake : Awake state) {result : Int} {place : Slow}
    (none : state.frames = []) (main : state.main = .slow place) :
    Awake (state.read result place) := by
  have slow := awake.slow
  rw [main] at slow
  unfold State.read
  cases place with
  | start =>
    exact
      { slow := slow
        interrupted := fun _ member => absurd member (none ▸ List.not_mem_nil)
        testing := fun _ _ sig member => by
          rw [State.since, List.takeWhile_cons_of_neg (by simp)] at member
          cases member
        calling := fun _ calling => by cases calling
        returned := fun result earlier suffix =>
          awake.returned result earlier (suffix_of_cons suffix Event.noConfusion) }
  | arm =>
    exact
      { slow := rfl
        interrupted := awake.interrupted
        testing := fun none _ => awake.testing none (by rw [main]; rfl)
        calling := fun _ calling => by cases calling
        returned := awake.returned }
  | check =>
    simp only
    split
    next =>
      exact
        { slow := slow
          interrupted := awake.interrupted
          testing := fun _ testing => by cases testing
          calling := fun _ calling => by cases calling
          returned := awake.returned }
    next unset =>
      exact
        { slow := slow
          interrupted := awake.interrupted
          testing := fun _ testing => by cases testing
          calling := fun none _ sig member =>
            unset (awake.testing none (by rw [main]; rfl) sig member)
          returned := awake.returned }
  | call =>
    exact
      { slow := slow
        interrupted := awake.interrupted
        testing := fun _ testing => by cases testing
        calling := fun none _ => awake.calling none (by rw [main]; rfl)
        returned := awake.returned }
  | finish returned =>
    refine
      { slow := rfl
        interrupted := awake.interrupted
        testing := fun _ testing => by cases testing
        calling := fun _ calling => by cases calling
        returned := fun result earlier suffix => ?_ }
    rcases List.suffix_cons_iff.mp suffix with eq | suffix
    · obtain ⟨same, rfl⟩ := List.cons.inj eq
      cases same
      exact awake.calling none (by rw [main]; rfl)
    · exact awake.returned result earlier suffix

theorem Awake.step {nsig : Nat} {before after : State} {act : Act} (awake : Awake before)
    (stepped : Stepped nsig before act after) : Awake after := by
  cases stepped with
  | arrive => exact awake.enter ..
  | call => exact awake.enter ..
  | handle frames => exact awake.handle frames
  | start none other first =>
    have jumpable : before.main.jumpable = false := by rw [other]; rfl
    rcases first with rfl | rfl
    · exact awake.move jumpable (.poll .count) rfl rfl rfl ..
    · exact awake.move jumpable (.slow .start) rfl rfl rfl ..
  | poll none main => exact awake.poll main
  | read none main => exact awake.read none main
  | rest none other =>
    exact ⟨awake.slow, awake.interrupted, awake.testing, awake.calling, awake.returned⟩

theorem awake_initial : Awake .initial where
  slow := rfl
  interrupted frame member := by cases member
  testing _ testing := by cases testing
  calling _ calling := by cases calling
  returned result earlier suffix := by
    have short := suffix.length_le
    cases short

theorem Reachable.awake {nsig : Nat} {allowed : State → Act → Prop} {state : State}
    (reachable : Reachable nsig allowed state) : Awake state :=
  reachable.invariant Awake awake_initial fun _ _ _ awake _ stepped => awake.step stepped

/-- Whenever signals come, a system call of `eread` that gave a result has not slept through one:
none has arrived since the slow call began. A `catcher` that jumps leaves a slow call that is
running. -/
theorem returned_of_no_arrival {nsig : Nat} {state : State}
    (reachable : Reachable nsig Anytime state) :
    (∀ result earlier, (.returned (some result) :: earlier) <:+ state.log →
      ∀ sig, .arrived sig ∉ earlier.takeWhile (· ≠ .began)) ∧
      (state.slow = true → ∃ place, state.main = .slow place) := by
  refine ⟨reachable.awake.returned, fun slow => ?_⟩
  have jumpable := reachable.awake.slow.symm.trans slow
  cases main : state.main with
  | slow place => exact ⟨place, rfl⟩
  | other => rw [main] at jumpable; cases jumpable
  | poll place => rw [main] at jumpable; cases jumpable

/-- A signal comes before a slow call begins, and the call then gives a result. -/
def oneRead : List Act :=
  .arrive 2 :: (List.replicate 6 .handle ++ .eread :: List.replicate 5 (.advance 7))

theorem returned_of_no_arrival_oneRead :
    ∃ state, State.initial.run 5 oneRead = some state ∧
      (∀ result earlier, (.returned (some result) :: earlier) <:+ state.log →
        ∀ sig, .arrived sig ∉ earlier.takeWhile (· ≠ .began)) ∧
        (state.slow = true → ∃ place, state.main = .slow place) := by
  have some : (State.initial.run 5 oneRead).isSome := by decide
  obtain ⟨state, run⟩ := Option.isSome_iff_exists.mp some
  exact ⟨state, run, returned_of_no_arrival
    (Reachable.run (fun _ _ _ => trivial) Relation.ReflTransGen.refl run)⟩

end Signals

end Desh
