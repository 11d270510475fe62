/-
This file proves what the counter of `signal.c` is worth, whenever the signals of
`Signals.lean` come. Its two accesses are not one, and so it may end up too small.
It is never too large unless the shell itself calls `catcher`, and it is exact
where no signal comes between the two accesses; then the calls of `sigchk` take
every caught signal.
-/

import Desh.Delivery

namespace Desh

namespace Signals

/-! ### The counter -/

/-- The calls of `catcher` that have caught a signal and not counted it. -/
def owed (frames : List Frame) : Int := frames.countP fun frame => frame.place.counting

/-- The signal that `sigchk` has counted as taken while it is still caught. -/
def Main.owes : Main → Int
  | .poll (.clear _) => 1
  | _ => 0

@[simp] theorem owed_cons (frame : Frame) (rest : List Frame) :
    owed (frame :: rest) = owed rest + if frame.place.counting then 1 else 0 := by
  rw [owed, List.countP_cons, owed]
  split <;> simp

theorem owed_nonneg (frames : List Frame) : 0 ≤ owed frames := Int.natCast_nonneg _

theorem Main.owes_nonneg (main : Main) : 0 ≤ main.owes := by
  unfold Main.owes
  split <;> decide

theorem mem_pending {nsig sig : Nat} {caught : Nat → Bool} :
    sig ∈ pending nsig caught ↔ sig < nsig ∧ caught sig = true := by
  rw [pending, Finset.mem_filter, Finset.mem_range]

/-- Catching a signal that is not caught. -/
theorem card_pending_true {nsig sig : Nat} {caught : Nat → Bool} (lt : sig < nsig)
    (free : caught sig = false) :
    (pending nsig (Function.update caught sig true)).card = (pending nsig caught).card + 1 := by
  have fresh : sig ∉ pending nsig caught := by simp [mem_pending, free]
  rw [← Finset.card_insert_of_notMem fresh]
  congr 1
  ext other
  rw [Finset.mem_insert, mem_pending, mem_pending, Function.update_apply]
  by_cases same : other = sig
  · simp [same, lt]
  · simp [same]

/-- Releasing a signal that is caught. -/
theorem pending_false {nsig sig : Nat} {caught : Nat → Bool} :
    pending nsig (Function.update caught sig false) = (pending nsig caught).erase sig := by
  ext other
  rw [Finset.mem_erase, mem_pending, mem_pending, Function.update_apply]
  by_cases same : other = sig
  · simp [same]
  · simp [same]

theorem card_pending_false {nsig sig : Nat} {caught : Nat → Bool} (lt : sig < nsig)
    (held : caught sig = true) :
    (pending nsig (Function.update caught sig false)).card + 1 = (pending nsig caught).card := by
  rw [pending_false]
  exact Finset.card_erase_add_one (mem_pending.mpr ⟨lt, held⟩)

/-- The counter, with what is owed to it, is at most the number of caught signals; so is every
value that is about to be counted up from. The loop of `sigchk` is at or before a caught signal. -/
structure Counted (nsig : Nat) (state : State) : Prop where
  distinct : (state.frames.map Frame.sig).Nodup
  within : ∀ frame ∈ state.frames, frame.sig < nsig
  assigning : ∀ frame ∈ state.frames, frame.place = .assign → state.caught frame.sig = false
  nonneg : 0 ≤ state.sigcount
  room : state.sigcount + owed state.frames + state.main.owes ≤ (pending nsig state.caught).card
  stores : ∀ frame rest sigcount, (frame :: rest) <:+ state.frames →
    frame.place = .store sigcount →
    0 ≤ sigcount ∧
      sigcount + owed (frame :: rest) + state.main.owes ≤ (pending nsig state.caught).card
  storing : ∀ sig sigcount, state.main = .poll (.store sig sigcount) →
    1 ≤ sigcount ∧ sigcount ≤ (pending nsig state.caught).card
  taking : ∀ sig, state.main.taking = some sig → sig < nsig
  positive : ∀ sig, state.main = .poll (.scan sig) ∨ state.main = .poll (.load sig) →
    1 ≤ state.sigcount
  found : ∀ sig, state.main = .poll (.scan sig) →
    ∃ found, sig ≤ found ∧ found ∈ pending nsig state.caught
  notReset : state.main ≠ .poll .reset

theorem Counted.enter {nsig : Nat} {state : State} (counted : Counted nsig state) {sig : Nat}
    (lt : sig < nsig) (other : ∀ frame ∈ state.frames, frame.sig ≠ sig) (direct : Bool) :
    Counted nsig (state.enter sig direct) where
  distinct := by
    refine List.nodup_cons.mpr ⟨fun member => ?_, counted.distinct⟩
    obtain ⟨frame, member, same⟩ := List.mem_map.mp member
    exact other frame member same
  within frame member := by
    rcases List.mem_cons.mp member with rfl | member
    · exact lt
    · exact counted.within frame member
  assigning frame member place := by
    rcases List.mem_cons.mp member with rfl | member
    · cases place
    · exact counted.assigning frame member place
  nonneg := counted.nonneg
  room := by
    rw [State.enter, owed_cons]
    simpa [Handler.counting] using counted.room
  stores frame rest sigcount suffix place := by
    rcases List.suffix_cons_iff.mp suffix with eq | suffix
    · obtain ⟨rfl, -⟩ := List.cons.inj eq
      cases place
    · exact counted.stores frame rest sigcount suffix place
  storing := counted.storing
  taking := counted.taking
  positive := counted.positive
  found := counted.found
  notReset := counted.notReset

/-- The innermost handler goes on, perhaps catching its signal or counting it. -/
theorem Counted.goto {nsig : Nat} {state : State} (counted : Counted nsig state) {frame : Frame}
    {rest : List Frame} (frames : state.frames = frame :: rest) {place : Handler}
    {caught : Nat → Bool} {sigcount : Int} (interrupted : Bool)
    (same : ∀ other ∈ rest, caught other.sig = state.caught other.sig)
    (grows : pending nsig state.caught ⊆ pending nsig caught)
    (assigning : place = .assign → caught frame.sig = false)
    (nonneg : 0 ≤ sigcount) (positive : 1 ≤ state.sigcount → 1 ≤ sigcount)
    (room : sigcount + (owed rest + if place.counting then 1 else 0) + state.main.owes ≤
      (pending nsig caught).card)
    (store : ∀ loaded, place = .store loaded →
      0 ≤ loaded ∧ loaded + (owed rest + 1) + state.main.owes ≤ (pending nsig caught).card) :
    Counted nsig
      (State.goto { state with caught, sigcount, interrupted } frame rest place) where
  distinct := by
    have distinct := counted.distinct
    rw [frames] at distinct
    exact distinct
  within other member := by
    rcases List.mem_cons.mp member with rfl | member
    · exact counted.within frame (frames ▸ List.mem_cons_self)
    · exact counted.within other (frames ▸ List.mem_cons_of_mem _ member)
  assigning other member assign := by
    rcases List.mem_cons.mp member with rfl | member
    · exact assigning assign
    · exact (same other member).trans
        (counted.assigning other (frames ▸ List.mem_cons_of_mem _ member) assign)
  nonneg := nonneg
  room := by
    rw [State.goto, owed_cons]
    exact room
  stores other below loaded suffix stored := by
    rcases List.suffix_cons_iff.mp suffix with eq | suffix
    · obtain ⟨rfl, rfl⟩ := List.cons.inj eq
      obtain rfl : place = .store loaded := stored
      rw [owed_cons]
      exact store loaded rfl
    · have before := counted.stores other below loaded
        (frames ▸ suffix.trans (List.suffix_cons ..)) stored
      exact ⟨before.1, before.2.trans (by exact_mod_cast Finset.card_le_card grows)⟩
  storing sig loaded main :=
    have before := counted.storing sig loaded main
    ⟨before.1, before.2.trans (by exact_mod_cast Finset.card_le_card grows)⟩
  taking := counted.taking
  positive sig main := positive (counted.positive sig main)
  found sig main :=
    have ⟨found, le, member⟩ := counted.found sig main
    ⟨found, le, grows member⟩
  notReset := counted.notReset

/-- A handler comes to its end, whichever calls of `catcher` are left. -/
theorem Counted.finish {nsig : Nat} {state : State} (counted : Counted nsig state)
    {frames : List Frame} (suffix : frames <:+ state.frames) {main : Main}
    (left : main = state.main ∨ main = .slow (.finish none)) (log : List Event) :
    Counted nsig { state with frames, main, log } where
  distinct := counted.distinct.sublist (suffix.sublist.map _)
  within frame member := counted.within frame (suffix.subset member)
  assigning frame member := counted.assigning frame (suffix.subset member)
  nonneg := counted.nonneg
  room := by
    have fewer : owed frames ≤ owed state.frames :=
      Int.ofNat_le.mpr (suffix.sublist.countP_le ..)
    have less : main.owes ≤ state.main.owes := by
      rcases left with rfl | rfl
      · exact le_rfl
      · exact state.main.owes_nonneg
    have room := counted.room
    show state.sigcount + owed frames + main.owes ≤ (pending nsig state.caught).card
    omega
  stores frame rest loaded within stored := by
    have less : main.owes ≤ state.main.owes := by
      rcases left with rfl | rfl
      · exact le_rfl
      · exact state.main.owes_nonneg
    have before := counted.stores frame rest loaded (within.trans suffix) stored
    exact ⟨before.1, (add_le_add_right less _).trans before.2⟩
  storing sig loaded storing := by
    rcases left with rfl | rfl
    · exact counted.storing sig loaded storing
    · cases storing
  taking sig taking := by
    rcases left with rfl | rfl
    · exact counted.taking sig taking
    · cases taking
  positive sig place := by
    rcases left with rfl | rfl
    · exact counted.positive sig place
    · simp at place
  found sig place := by
    rcases left with rfl | rfl
    · exact counted.found sig place
    · cases place
  notReset := by
    rcases left with rfl | rfl
    · exact counted.notReset
    · exact Main.noConfusion

theorem Counted.handle {nsig : Nat} {state : State} (counted : Counted nsig state) {frame : Frame}
    {rest : List Frame} (frames : state.frames = frame :: rest) :
    Counted nsig (state.handle frame rest) := by
  have member : frame ∈ state.frames := frames ▸ List.mem_cons_self
  have room := counted.room
  have nonneg := counted.nonneg
  rw [frames, owed_cons] at room
  unfold State.handle
  cases place : frame.place with
  | test =>
    simp only [place, Handler.counting, Bool.false_eq_true, if_false] at room
    simp only
    split
    · exact ⟨counted.distinct, counted.within, counted.assigning, counted.nonneg, counted.room,
        counted.stores, counted.storing, counted.taking, counted.positive, counted.found,
        counted.notReset⟩
    split
    next =>
      exact counted.goto frames _ (fun _ _ => rfl) (Finset.Subset.refl _) Handler.noConfusion
        nonneg id room fun _ => Handler.noConfusion
    next free =>
      exact counted.goto frames _ (fun _ _ => rfl) (Finset.Subset.refl _)
        (fun _ => Bool.not_eq_true _ ▸ free) nonneg id room fun _ => Handler.noConfusion
  | assign =>
    have card := card_pending_true (counted.within frame member)
      (counted.assigning frame member place)
    have ne : ∀ other ∈ rest, other.sig ≠ frame.sig := by
      have distinct := counted.distinct
      rw [frames, List.map_cons, List.nodup_cons] at distinct
      exact fun other member same => distinct.1 (List.mem_map.mpr ⟨other, member, same⟩)
    simp only [place, Handler.counting, Bool.false_eq_true, if_false] at room
    refine counted.goto frames _ (fun other member => Function.update_of_ne (ne other member) ..)
      (fun sig member => ?_) Handler.noConfusion nonneg id ?_ fun _ => Handler.noConfusion
    · exact mem_pending.mpr ⟨(mem_pending.mp member).1, update_true _ (mem_pending.mp member).2⟩
    · simp only [Handler.counting, if_true]
      omega
  | load =>
    simp only [place, Handler.counting, if_true] at room
    refine counted.goto frames _ (fun _ _ => rfl) (Finset.Subset.refl _) Handler.noConfusion
      nonneg id room fun loaded eq => ?_
    obtain rfl : state.sigcount = loaded := Handler.store.inj eq
    exact ⟨nonneg, room⟩
  | store sigcount =>
    have ⟨loaded, fits⟩ := counted.stores frame rest sigcount (frames ▸ List.suffix_rfl) place
    simp only [owed_cons, place, Handler.counting, if_true] at fits
    refine counted.goto frames _ (fun _ _ => rfl) (Finset.Subset.refl _) Handler.noConfusion
      (by omega) (fun _ => by omega) ?_ fun _ => Handler.noConfusion
    simp only [Handler.counting, Bool.false_eq_true, if_false]
    omega
  | interrupt =>
    simp only [place, Handler.counting, Bool.false_eq_true, if_false] at room
    exact counted.goto frames _ (fun _ _ => rfl) (Finset.Subset.refl _) Handler.noConfusion
      nonneg id room fun _ => Handler.noConfusion
  | jump =>
    simp only
    split
    · exact counted.finish (List.nil_suffix) (.inr rfl) _
    · exact counted.finish (frames ▸ List.suffix_cons ..) (.inl rfl) _

/-- The shell goes on, with no handler running, and the counter is as it was. -/
theorem Counted.move {nsig : Nat} {state : State} (counted : Counted nsig state)
    (none : state.frames = []) {main : Main} (owes : main.owes = 0)
    (storing : ∀ sig sigcount, main = .poll (.store sig sigcount) →
      sigcount = state.sigcount ∧ 1 ≤ state.sigcount)
    (taking : ∀ sig, main.taking = some sig → sig < nsig)
    (positive : ∀ sig, main = .poll (.scan sig) ∨ main = .poll (.load sig) → 1 ≤ state.sigcount)
    (found : ∀ sig, main = .poll (.scan sig) →
      ∃ found, sig ≤ found ∧ found ∈ pending nsig state.caught)
    (notReset : main ≠ .poll .reset) (interrupted slow : Bool) (log : List Event) :
    Counted nsig { state with main, interrupted, slow, log } where
  distinct := counted.distinct
  within := counted.within
  assigning := counted.assigning
  nonneg := counted.nonneg
  room := by
    have room := counted.room
    have before := state.main.owes_nonneg
    show state.sigcount + owed state.frames + main.owes ≤ (pending nsig state.caught).card
    omega
  stores frame rest loaded suffix := by
    rw [none] at suffix
    have short := suffix.length_le
    cases short
  storing sig sigcount eq := by
    obtain ⟨rfl, positive⟩ := storing sig sigcount eq
    have room := counted.room
    have before := state.main.owes_nonneg
    have calls := owed_nonneg state.frames
    exact ⟨positive, show state.sigcount ≤ (pending nsig state.caught).card by omega⟩
  taking := taking
  positive := positive
  found := found
  notReset := notReset

/-- The shell goes on outside `sigchk`. -/
theorem Counted.leave {nsig : Nat} {state : State} (counted : Counted nsig state)
    (none : state.frames = []) {main : Main}
    (outside : ∀ place, main = .poll place → place = .count)
    (interrupted slow : Bool) (log : List Event) :
    Counted nsig { state with main, interrupted, slow, log } := by
  have taking : main.taking = .none := by
    cases main with
    | poll place => rw [outside place rfl]; rfl
    | _ => rfl
  refine counted.move none ?_ (fun sig sigcount eq => ?_) (fun sig eq => ?_) (fun sig eq => ?_)
    (fun sig eq => ?_) (fun eq => ?_) ..
  · cases main with
    | poll place => rw [outside place rfl]; rfl
    | _ => rfl
  · cases outside _ eq
  · rw [taking] at eq
    cases eq
  · rcases eq with eq | eq
    · cases outside _ eq
    · cases outside _ eq
  · cases outside _ eq
  · cases outside _ eq

theorem Counted.poll {nsig : Nat} {state : State} (counted : Counted nsig state)
    (kept : Kept state) {place : Poll} (none : state.frames = [])
    (main : state.main = .poll place) : Counted nsig (state.poll nsig place) := by
  have room := counted.room
  rw [main] at room
  unfold State.poll
  cases place with
  | count =>
    simp only
    split
    · exact counted.leave none (fun _ => Main.noConfusion) ..
    next more =>
    have positive : 1 ≤ state.sigcount := by
      have nonneg := counted.nonneg
      omega
    split
    · exact ⟨counted.distinct, counted.within, counted.assigning, counted.nonneg, counted.room,
        counted.stores, counted.storing, counted.taking, counted.positive, counted.found,
        counted.notReset⟩
    · -- The counter is not too large, so some signal is caught.
      have calls := owed_nonneg state.frames
      have some : 0 < (pending nsig state.caught).card := by
        simp only [Main.owes] at room
        omega
      obtain ⟨found, member⟩ := Finset.card_pos.mp some
      refine counted.move none rfl (fun _ _ eq => by cases eq) (fun _ eq => by cases eq)
        (fun _ _ => positive) (fun sig eq => ?_) (fun eq => by cases eq) ..
      cases eq
      exact ⟨found, Nat.zero_le _, member⟩
  | scan sig =>
    obtain ⟨found, le, member⟩ := counted.found sig main
    have positive := counted.positive sig (.inl main)
    have ⟨lt, caught⟩ := mem_pending.mp member
    simp only
    split
    next ge => exact absurd (ge.trans le) (Nat.not_le.mpr lt)
    next inside =>
    split
    next held =>
      refine counted.move none rfl (fun _ _ eq => by cases eq) (fun taken eq => ?_)
        (fun _ _ => positive) (fun _ eq => by cases eq) (fun eq => by cases eq) ..
      cases eq
      exact Nat.not_le.mp inside
    next free =>
      refine counted.move none rfl (fun _ _ eq => by cases eq) (fun _ eq => by cases eq)
        (fun _ _ => positive) (fun next eq => ?_) (fun eq => by cases eq) ..
      cases eq
      exact ⟨found, Nat.lt_of_le_of_ne le fun same => free (same ▸ caught), member⟩
  | load sig =>
    have positive := counted.positive sig (.inr main)
    refine @Counted.move _ _ counted none (.poll (.store sig state.sigcount)) rfl
      (fun _ _ eq => ?_) (fun taken eq => ?_) (fun _ eq => by simp at eq) (fun _ eq => by cases eq)
      (fun eq => by cases eq) ..
    · cases eq
      exact ⟨rfl, positive⟩
    · cases eq
      exact counted.taking sig (by rw [main]; rfl)
  | store sig sigcount =>
    have ⟨positive, fits⟩ := counted.storing sig sigcount main
    have lt := counted.taking sig (by rw [main]; rfl)
    exact
      { distinct := counted.distinct
        within := counted.within
        assigning := counted.assigning
        nonneg := Int.sub_nonneg_of_le positive
        room := by
          show sigcount - 1 + owed state.frames + 1 ≤ (pending nsig state.caught).card
          rw [none, owed]
          simpa using fits
        stores := fun frame rest loaded suffix => by
          rw [none] at suffix
          cases suffix.length_le
        storing := fun _ _ eq => by cases eq
        taking := fun taken eq => by
          cases eq
          exact lt
        positive := fun _ eq => by simp at eq
        found := fun _ eq => by cases eq
        notReset := fun eq => by cases eq }
  | clear sig =>
    have card := card_pending_false (counted.taking sig (by rw [main]; rfl))
      (kept.taking sig (by rw [main]; rfl))
    simp only [Main.owes] at room
    exact
      { distinct := counted.distinct
        within := counted.within
        assigning := fun frame member => absurd member (none ▸ List.not_mem_nil)
        nonneg := counted.nonneg
        room := by
          show state.sigcount + owed state.frames + 0 ≤
            (pending nsig (Function.update state.caught sig false)).card
          omega
        stores := fun frame rest loaded suffix => by
          rw [none] at suffix
          cases suffix.length_le
        storing := fun _ _ eq => by cases eq
        taking := fun taken eq => by cases eq
        positive := fun _ eq => by simp at eq
        found := fun _ eq => by cases eq
        notReset := fun eq => by cases eq }
  | reset => exact absurd main counted.notReset

theorem Counted.read {nsig : Nat} {state : State} (counted : Counted nsig state) {result : Int}
    {place : Slow} (none : state.frames = []) : Counted nsig (state.read result place) := by
  unfold State.read
  cases place with
  | check =>
    simp only
    split
    · exact counted.leave none (fun _ => Main.noConfusion) ..
    · exact counted.leave none (fun _ => Main.noConfusion) ..
  | _ => exact counted.leave none (fun _ => Main.noConfusion) ..

theorem Counted.step {nsig : Nat} {before after : State} {act : Act}
    (counted : Counted nsig before) (kept : Kept before) (allowed : Unrepeated before act)
    (stepped : Stepped nsig before act after) : Counted nsig after := by
  cases stepped with
  | arrive pos lt free => exact counted.enter lt allowed _
  | call pos lt none other =>
    exact counted.enter lt (fun frame member => absurd member (none ▸ List.not_mem_nil)) _
  | handle frames => exact counted.handle frames
  | start none other first =>
    refine counted.leave none (fun place eq => ?_) ..
    rcases first with rfl | rfl
    · cases eq
      rfl
    · cases eq
  | poll none main => exact counted.poll kept none main
  | read none main => exact counted.read none
  | rest => exact ⟨counted.distinct, counted.within, counted.assigning, counted.nonneg,
      counted.room, counted.stores, counted.storing, counted.taking, counted.positive,
      counted.found, counted.notReset⟩

theorem counted_initial (nsig : Nat) : Counted nsig .initial where
  distinct := List.nodup_nil
  within frame member := by cases member
  assigning frame member := by cases member
  nonneg := le_rfl
  room := Int.natCast_nonneg _
  stores frame rest loaded suffix := by cases suffix.length_le
  storing _ _ eq := by cases eq
  taking _ eq := by cases eq
  positive _ eq := by simp [State.initial] at eq
  found _ eq := by cases eq
  notReset eq := by cases eq

theorem Reachable.counted {nsig : Nat} {state : State}
    (reachable : Reachable nsig Unrepeated state) : Counted nsig state :=
  (reachable.invariant (fun state => Kept state ∧ Counted nsig state)
    ⟨kept_initial, counted_initial nsig⟩ fun _ _ _ held allowed stepped =>
      ⟨held.1.step stepped, held.2.step held.1 allowed stepped⟩).2

/-- Unless a call of `catcher` by the shell itself is interrupted by its own signal, the counter is
never larger than the number of caught signals, and a `sigchk` that finds it positive takes one. -/
theorem sigcount_le_card {nsig : Nat} {state : State}
    (reachable : Reachable nsig Unrepeated state) :
    0 ≤ state.sigcount ∧ state.sigcount ≤ (pending nsig state.caught).card ∧
      state.main ≠ .poll .reset := by
  have counted := reachable.counted
  have room := counted.room
  have calls := owed_nonneg state.frames
  have owes := state.main.owes_nonneg
  exact ⟨counted.nonneg, by omega, counted.notReset⟩

/-- Signal 3 comes while the shell is in `catcher` for signal 2, which it has called. -/
theorem sigcount_le_card_nested :
    ∃ state, State.initial.run 5 [.call 2, .handle] = some state ∧
      (state.enter 3 false).frames.length = 2 ∧
      0 ≤ (state.enter 3 false).sigcount ∧
        (state.enter 3 false).sigcount ≤ (pending 5 (state.enter 3 false).caught).card ∧
        (state.enter 3 false).main ≠ .poll .reset := by
  refine ⟨_, rfl, rfl, ?_⟩
  have always : ∀ act ∈ [Act.call 2, .handle], ∀ state, Unrepeated state act := by
    simp [Unrepeated]
  have before : Reachable 5 Unrepeated _ := Reachable.run always Relation.ReflTransGen.refl rfl
  refine sigcount_le_card (before.tail ⟨.arrive 3, fun frame member => ?_, rfl⟩)
  obtain rfl := List.mem_singleton.mp member
  exact Nat.ne_of_beq_eq_false rfl

/-! ### Where the counter is exact -/

/-- The counter, with what is owed to it, is the number of caught signals, and it has not changed
since it was read. -/
structure Exact (nsig : Nat) (state : State) : Prop where
  exact : state.sigcount + owed state.frames + state.main.owes =
    (pending nsig state.caught).card
  outer : ∀ frame ∈ state.frames.tail, frame.place.counting = false
  stored : ∀ frame ∈ state.frames, ∀ sigcount, frame.place = .store sigcount →
    sigcount = state.sigcount
  storing : ∀ sig sigcount, state.main = .poll (.store sig sigcount) →
    state.frames = [] ∧ sigcount = state.sigcount

theorem owed_eq_zero {frames : List Frame}
    (none : ∀ frame ∈ frames, frame.place.counting = false) : owed frames = 0 := by
  rw [owed, List.countP_eq_zero.mpr fun frame member => by simp [none frame member]]
  rfl

/-- The innermost handler goes on, perhaps catching its signal or counting it. -/
theorem Exact.goto {nsig : Nat} {state : State} (exact : Exact nsig state) {frame : Frame}
    {rest : List Frame} (frames : state.frames = frame :: rest) {place : Handler}
    {caught : Nat → Bool} {sigcount : Int} (interrupted : Bool)
    (same : sigcount + (if place.counting then 1 else 0) + state.main.owes =
      (pending nsig caught).card)
    (store : ∀ loaded, place = .store loaded → loaded = sigcount) :
    Exact nsig (State.goto { state with caught, sigcount, interrupted } frame rest place) where
  exact := by
    have outer := exact.outer
    rw [frames, List.tail_cons] at outer
    simpa only [State.goto, owed_cons, owed_eq_zero outer, zero_add] using same
  outer := by
    have outer := exact.outer
    rwa [frames, List.tail_cons] at outer
  stored other member loaded stored := by
    have outer := exact.outer
    rw [frames, List.tail_cons] at outer
    rcases List.mem_cons.mp member with rfl | member
    · exact store loaded stored
    · have idle := outer other member
      rw [stored] at idle
      cases idle
  storing sig loaded eq := by
    have idle := (exact.storing sig loaded eq).1
    rw [frames] at idle
    cases idle

theorem Exact.handle {nsig : Nat} {state : State} (exact : Exact nsig state)
    (counted : Counted nsig state) (awake : Awake state) {frame : Frame} {rest : List Frame}
    (frames : state.frames = frame :: rest) : Exact nsig (state.handle frame rest) := by
  have member : frame ∈ state.frames := frames ▸ List.mem_cons_self
  have outer := exact.outer
  have total := exact.exact
  rw [frames, List.tail_cons] at outer
  rw [frames, owed_cons, owed_eq_zero outer, zero_add] at total
  unfold State.handle
  cases place : frame.place with
  | test =>
    simp only [place, Handler.counting, Bool.false_eq_true, if_false] at total
    simp only
    split
    · exact ⟨exact.exact, exact.outer, exact.stored, exact.storing⟩
    split
    · exact exact.goto frames _ total fun _ => Handler.noConfusion
    · exact exact.goto frames _ total fun _ => Handler.noConfusion
  | assign =>
    have card := card_pending_true (counted.within frame member)
      (counted.assigning frame member place)
    simp only [place, Handler.counting, Bool.false_eq_true, if_false] at total
    refine exact.goto frames _ ?_ fun _ => Handler.noConfusion
    simp only [Handler.counting, if_true]
    omega
  | load =>
    simp only [place, Handler.counting, if_true] at total
    exact exact.goto frames _ total fun loaded eq => (Handler.store.inj eq).symm
  | store sigcount =>
    obtain rfl : sigcount = state.sigcount := exact.stored frame member sigcount place
    simp only [place, Handler.counting, if_true] at total
    refine exact.goto frames _ ?_ fun _ => Handler.noConfusion
    simp only [Handler.counting, Bool.false_eq_true, if_false]
    omega
  | interrupt =>
    simp only [place, Handler.counting, Bool.false_eq_true, if_false] at total
    exact exact.goto frames _ total fun _ => Handler.noConfusion
  | jump =>
    simp only [place, Handler.counting, Bool.false_eq_true, if_false, Int.add_zero] at total
    simp only
    split
    next slow =>
      -- No call that is left behind owes anything, and neither does `eread`.
      have owes : state.main.owes = 0 := by
        have jumpable := awake.slow.symm.trans slow
        generalize state.main = main at jumpable ⊢
        match main, jumpable with
        | .slow place, _ => rfl
      exact
        { exact := by
            show state.sigcount + owed [] + 0 = (pending nsig state.caught).card
            rw [owes] at total
            simpa [owed] using total
          outer := fun _ member => by cases member
          stored := fun _ member => by cases member
          storing := fun _ _ eq => by cases eq }
    next =>
      exact
        { exact := by
            show state.sigcount + owed rest + state.main.owes = (pending nsig state.caught).card
            rw [owed_eq_zero outer, Int.add_zero]
            exact total
          outer := fun other member => outer other (List.mem_of_mem_tail member)
          stored := fun other member => exact.stored other (frames ▸ List.mem_cons_of_mem _ member)
          storing := fun sig loaded eq => by
            have idle := (exact.storing sig loaded eq).1
            rw [frames] at idle
            cases idle }

/-- The shell goes on, with no handler running, and the counter is as it was. -/
theorem Exact.move {nsig : Nat} {state : State} (exact : Exact nsig state)
    (none : state.frames = []) {main : Main} (before : state.main.owes = 0)
    (owes : main.owes = 0)
    (storing : ∀ sig sigcount, main = .poll (.store sig sigcount) → sigcount = state.sigcount)
    (interrupted slow : Bool) (log : List Event) :
    Exact nsig { state with main, interrupted, slow, log } where
  exact := by
    have total := exact.exact
    rw [before, ← owes] at total
    exact total
  outer := exact.outer
  stored := exact.stored
  storing sig sigcount eq := ⟨none, storing sig sigcount eq⟩

theorem Exact.poll {nsig : Nat} {state : State} (exact : Exact nsig state)
    (counted : Counted nsig state) (kept : Kept state) {place : Poll} (none : state.frames = [])
    (main : state.main = .poll place) : Exact nsig (state.poll nsig place) := by
  have total := exact.exact
  rw [main, none] at total
  unfold State.poll
  cases place with
  | count =>
    have before : state.main.owes = 0 := by rw [main]; rfl
    simp only
    split
    · exact exact.move none before rfl (fun _ _ eq => by cases eq) ..
    split
    · exact ⟨exact.exact, exact.outer, exact.stored, exact.storing⟩
    · exact exact.move none before rfl (fun _ _ eq => by cases eq) ..
  | scan sig =>
    have before : state.main.owes = 0 := by rw [main]; rfl
    simp only
    split
    · exact exact.move none before rfl (fun _ _ eq => by cases eq) ..
    split
    · exact exact.move none before rfl (fun _ _ eq => by cases eq) ..
    · exact exact.move none before rfl (fun _ _ eq => by cases eq) ..
  | load sig =>
    refine @Exact.move _ _ exact none (.poll (.store sig state.sigcount)) (by rw [main]; rfl) rfl
      (fun _ _ eq => ?_) ..
    cases eq
    rfl
  | store sig sigcount =>
    obtain rfl := (exact.storing sig sigcount main).2
    exact
      { exact := by
          show state.sigcount - 1 + owed state.frames + 1 = (pending nsig state.caught).card
          simp only [Main.owes] at total
          rw [none]
          omega
        outer := exact.outer
        stored := fun frame member => absurd member (none ▸ List.not_mem_nil)
        storing := fun _ _ eq => by cases eq }
  | clear sig =>
    have card := card_pending_false (counted.taking sig (by rw [main]; rfl))
      (kept.taking sig (by rw [main]; rfl))
    exact
      { exact := by
          show state.sigcount + owed state.frames + 0 =
            (pending nsig (Function.update state.caught sig false)).card
          simp only [Main.owes] at total
          rw [none]
          omega
        outer := exact.outer
        stored := exact.stored
        storing := fun _ _ eq => by cases eq }
  | reset => exact absurd main counted.notReset

theorem Exact.read {nsig : Nat} {state : State} (exact : Exact nsig state) {result : Int}
    {place : Slow} (none : state.frames = []) (main : state.main = .slow place) :
    Exact nsig (state.read result place) := by
  have before : state.main.owes = 0 := by rw [main]; rfl
  unfold State.read
  cases place with
  | check =>
    simp only
    split
    · exact exact.move none before rfl (fun _ _ eq => by cases eq) ..
    · exact exact.move none before rfl (fun _ _ eq => by cases eq) ..
  | _ => exact exact.move none before rfl (fun _ _ eq => by cases eq) ..

theorem Exact.step {nsig : Nat} {before after : State} {act : Act} (exact : Exact nsig before)
    (counted : Counted nsig before) (kept : Kept before) (awake : Awake before)
    (allowed : Undisturbed before act) (stepped : Stepped nsig before act after) :
    Exact nsig after := by
  have enter : ∀ sig direct, (∀ frame ∈ before.frames, frame.place.counting = false) →
      (∀ taken sigcount, before.main ≠ .poll (.store taken sigcount)) →
      Exact nsig (before.enter sig direct) := fun sig direct idle elsewhere =>
    { exact := by
        rw [State.enter, owed_cons]
        simpa [Handler.counting] using exact.exact
      outer := idle
      stored := fun frame member sigcount stored => by
        rcases List.mem_cons.mp member with rfl | member
        · cases stored
        · exact exact.stored frame member sigcount stored
      storing := fun taken sigcount eq => absurd eq (elsewhere taken sigcount) }
  cases stepped with
  | arrive => exact enter _ _ (fun frame member => (allowed.1 frame member).2) allowed.2
  | call pos lt none other =>
    exact enter _ _ (fun frame member => absurd member (none ▸ List.not_mem_nil))
      fun taken sigcount => by rw [other]; exact Main.noConfusion
  | handle frames => exact exact.handle counted awake frames
  | start none other first =>
    refine exact.move none (by rw [other]; rfl) ?_ (fun _ _ eq => ?_) ..
    · rcases first with rfl | rfl
      · rfl
      · rfl
    · rcases first with rfl | rfl
      · cases eq
      · cases eq
  | poll none main => exact exact.poll counted kept none main
  | read none main => exact exact.read none main
  | rest => exact ⟨exact.exact, exact.outer, exact.stored, exact.storing⟩

theorem exact_initial (nsig : Nat) : Exact nsig .initial where
  exact := by simp [State.initial, pending, owed, Main.owes]
  outer frame member := by cases member
  stored frame member := by cases member
  storing _ _ eq := by cases eq

theorem Undisturbed.unrepeated {state : State} {act : Act} (undisturbed : Undisturbed state act) :
    Unrepeated state act := by
  cases act with
  | arrive sig => exact fun frame member => (undisturbed.1 frame member).1
  | _ => trivial

/-- All that is known of the states of an undisturbed run. -/
structure Known (nsig : Nat) (state : State) : Prop where
  kept : Kept state
  awake : Awake state
  counted : Counted nsig state
  exact : Exact nsig state

theorem Known.step {nsig : Nat} {before after : State} {act : Act} (known : Known nsig before)
    (allowed : Undisturbed before act) (stepped : Stepped nsig before act after) :
    Known nsig after where
  kept := known.kept.step stepped
  awake := known.awake.step stepped
  counted := known.counted.step known.kept allowed.unrepeated stepped
  exact := known.exact.step known.counted known.kept known.awake allowed stepped

theorem Reachable.known {nsig : Nat} {state : State}
    (reachable : Reachable nsig Undisturbed state) : Known nsig state :=
  reachable.invariant (Known nsig)
    ⟨kept_initial, awake_initial, counted_initial nsig, exact_initial nsig⟩
    fun _ _ _ known allowed stepped => known.step allowed stepped

/-! ### Taking every signal -/

/-- The steps of a `sigchk` that takes a signal. -/
def sigchkActs (sig : Nat) : List Act :=
  .sigchk :: .advance 0 :: (List.replicate sig (.advance 0) ++ List.replicate 4 (.advance 0))

/-- The loop of `sigchk` runs to the first caught signal. -/
theorem run_scan {nsig found : Nat} (lt : found < nsig) :
    ∀ (distance sig : Nat) (state : State), sig + distance = found →
      state.exited = false → state.frames = [] → state.main = .poll (.scan sig) →
      (∀ other, sig ≤ other → other < found → state.caught other = false) →
      state.run nsig (List.replicate distance (.advance 0)) =
        some { state with main := .poll (.scan found) } := by
  intro distance
  induction distance with
  | zero =>
    rintro sig state rfl - - main -
    rw [Nat.add_zero, ← main]
    rfl
  | succ distance ih =>
    intro sig state eq running none main free
    have step : state.step nsig (.advance 0) =
        some { state with main := .poll (.scan (sig + 1)) } := by
      unfold State.step
      simp [running, none, main, State.poll, free sig le_rfl (by omega),
        show ¬nsig ≤ sig by omega]
    rw [State.run, List.replicate_succ, List.foldlM_cons, step]
    exact ih (sig + 1) _ (by omega) running none rfl fun other le below =>
      free other (by omega) below

/-- A `sigchk` that nothing disturbs takes the first caught signal. -/
theorem run_sigchk {nsig sig : Nat} {state : State} (lt : sig < nsig)
    (first : ∀ other, other < sig → state.caught other = false) (caught : state.caught sig = true)
    (running : state.exited = false) (parent : state.hasforked = false)
    (unblocked : state.blocked = 0) (idle : state.idle) (some : state.sigcount ≠ 0) :
    state.run nsig (sigchkActs sig) =
      Option.some { state with
        caught := Function.update state.caught sig false
        sigcount := state.sigcount - 1
        log := .taken sig :: state.log } := by
  obtain ⟨none, other⟩ := State.idle_iff.mp idle
  have called : state.step nsig .sigchk = Option.some { state with main := .poll .count } := by
    unfold State.step
    simp [running, idle]
  have tested : State.step nsig { state with main := .poll .count } (.advance 0) =
      Option.some { state with main := .poll (.scan 0) } := by
    unfold State.step
    simp [running, none, State.poll, some, unblocked, parent]
  have scanned := run_scan lt sig 0 { state with main := .poll (.scan 0) } (Nat.zero_add _) running
    none rfl fun other _ => first other
  rw [State.run] at scanned ⊢
  rw [sigchkActs, List.foldlM_cons, called, Option.bind_eq_bind,
    Option.bind_some, List.foldlM_cons, tested, Option.bind_eq_bind, Option.bind_some,
    List.foldlM_append, scanned]
  simp [List.replicate, State.step, running, none, State.poll, caught, Nat.not_le.mpr lt, ← other]

/-- The caught signals, in the order in which the loop of `sigchk` comes to them. -/
def caughtList (nsig : Nat) (caught : Nat → Bool) : List Nat := (List.range nsig).filter caught

theorem caughtList_cons {nsig sig : Nat} {caught : Nat → Bool} {rest : List Nat}
    (eq : caughtList nsig caught = sig :: rest) :
    sig < nsig ∧ caught sig = true ∧ (∀ other, other < sig → caught other = false) ∧
      caughtList nsig (Function.update caught sig false) = rest := by
  obtain ⟨before, after, range, free, held, rfl⟩ := List.filter_eq_cons_iff.mp eq
  have sorted : (List.range nsig).Pairwise (· < ·) := List.pairwise_lt_range
  rw [range, List.pairwise_append, List.pairwise_cons] at sorted
  obtain ⟨-, ⟨above, -⟩, below⟩ := sorted
  have lt : sig < nsig := List.mem_range.mp (by rw [range]; simp)
  refine ⟨lt, held, fun other less => ?_, ?_⟩
  · have member : other ∈ before ++ sig :: after :=
      range ▸ List.mem_range.mpr (less.trans lt)
    rcases List.mem_append.mp member with member | member
    · exact Bool.not_eq_true _ ▸ free other member
    · rcases List.mem_cons.mp member with rfl | member
      · exact absurd less (lt_irrefl _)
      · exact absurd less (Nat.lt_asymm (above other member))
  · rw [caughtList, range, List.filter_append, List.filter_cons_of_neg (by simp)]
    have none : before.filter (Function.update caught sig false) = [] :=
      List.filter_eq_nil_iff.mpr fun other member => by
        rw [Function.update_of_ne (below other member sig List.mem_cons_self).ne]
        exact free other member
    rw [none, List.nil_append]
    exact List.filter_congr fun other member => Function.update_of_ne (above other member).ne' ..

theorem length_caughtList (nsig : Nat) (caught : Nat → Bool) :
    (caughtList nsig caught).length = (pending nsig caught).card := by
  show _ = Multiset.card (Multiset.filter _ (List.range nsig : Multiset Nat))
  rw [Multiset.filter_coe, Multiset.coe_card, caughtList]
  simp

/-- Undisturbed calls of `sigchk` take every caught signal, in ascending order. -/
theorem run_sigchks {nsig : Nat} :
    ∀ (list : List Nat) (state : State), caughtList nsig state.caught = list →
      state.sigcount = list.length → state.exited = false → state.hasforked = false →
      state.blocked = 0 → state.idle →
      ∃ after, state.run nsig (list.flatMap sigchkActs) = some after ∧
        after.log = (list.map .taken).reverse ++ state.log ∧ after.sigcount = 0 ∧
        caughtList nsig after.caught = [] ∧ after.idle := by
  intro list
  induction list with
  | nil =>
    intro state none count _ _ _ idle
    exact ⟨state, rfl, rfl, count, none, idle⟩
  | cons sig rest ih =>
    intro state eq count running parent unblocked idle
    obtain ⟨lt, caught, first, left⟩ := caughtList_cons eq
    have some : state.sigcount ≠ 0 := by
      rw [count, List.length_cons]
      omega
    have taken := run_sigchk lt first caught running parent unblocked idle some
    obtain ⟨after, run, log, zero, done, idle'⟩ := ih
      { state with
        caught := Function.update state.caught sig false
        sigcount := state.sigcount - 1
        log := .taken sig :: state.log } left
      (by simp only [count, List.length_cons]; omega) running parent unblocked idle
    refine ⟨after, ?_, ?_, zero, done, idle'⟩
    · rw [State.run] at taken ⊢
      rw [List.flatMap_cons, List.foldlM_append, taken]
      exact run
    · rw [log, List.map_cons, List.reverse_cons, List.append_assoc]
      rfl

/-- A second signal comes between the two accesses of `++sigcount`, and one count is lost. -/
example :
    (State.initial.run 5 ([.arrive 2, .handle, .handle, .handle, .arrive 3] ++
      List.replicate 9 .handle)).map (fun state => (state.sigcount, caughtList 5 state.caught)) =
      some (1, [2, 3]) := by
  decide

end Signals

end Desh
