/-
This file proves what `Runinput.lean` promises: whatever is run, and whichever
way it is left, the stack of inputs is as it was, and each input that has been on
it was cleaned up once, its descriptor closed once, and its `Input` taken off the
registered ones. The assertions of `parse` hold if no `read` fails behind a
syntax error, and no signal without an effect is taken there.
-/

import Desh.Runinput

namespace Desh

namespace Runinput

/-! ### The books -/

/-- The inputs from a pointer on. -/
inductive Chain (sources : Nat → Source) : Option Nat → List Nat → Prop
  | nil : Chain sources none []
  | cons {address : Nat} {stack : List Nat} (rest : Chain sources (sources address).prev stack) :
      Chain sources (some address) (address :: stack)

/-- An input is on the stack until it is freed. It is registered as long, if it has a descriptor,
and that is open until it is closed. -/
structure Ledger (stack : List Nat) (state : State) (address : Nat) : Prop where
  freed : state.log.count (.freed address) = if address ∈ stack then 0 else 1
  closed : ∀ fd, state.log.count (.closed address fd) +
    (if address ∈ stack ∧ (state.sources address).fd = some fd then 1 else 0) =
      state.log.count (.registered address fd)
  unregistered : state.log.count (.unregistered address) =
    if address ∈ stack ∨ (state.sources address).kind = .string then 0 else 1
  string : (state.sources address).kind = .string → (state.sources address).fd = none
  fd : address ∈ stack → (state.sources address).kind = .fd → (state.sources address).eof = false →
    (state.sources address).fd.isSome

/-- The books are kept of every `Input` there has been, and there is nothing in them of others. -/
structure Balanced (stack : List Nat) (state : State) : Prop where
  chain : Chain state.sources state.input stack
  nodup : stack.Nodup
  below : ∀ address ∈ stack, address < state.next
  ledger : ∀ address, address < state.next → Ledger stack state address
  unborn : ∀ address, state.next ≤ address →
    state.log.count (.freed address) = 0 ∧ state.log.count (.unregistered address) = 0 ∧
      ∀ fd, state.log.count (.closed address fd) = 0 ∧ state.log.count (.registered address fd) = 0

/-- The current input is the same, and the others are as they were. -/
structure Steady (before after : State) : Prop where
  input : after.input = before.input
  next : before.next ≤ after.next
  others : ∀ address, address < before.next → before.input ≠ some address →
    after.sources address = before.sources address
  current : ∀ address, before.input = some address →
    (after.sources address).prev = (before.sources address).prev ∧
      (after.sources address).kind = (before.sources address).kind

theorem Steady.refl (state : State) : Steady state state :=
  ⟨rfl, le_rfl, fun _ _ _ => rfl, fun _ _ => ⟨rfl, rfl⟩⟩

theorem Steady.error (state : State) (error : Bool) : Steady state { state with error } :=
  ⟨rfl, le_rfl, fun _ _ _ => rfl, fun _ _ => ⟨rfl, rfl⟩⟩

theorem Steady.trans {first second third : State} (one : Steady first second)
    (two : Steady second third) : Steady first third where
  input := two.input.trans one.input
  next := one.next.trans two.next
  others address less other :=
    (two.others address (less.trans_le one.next) (one.input ▸ other)).trans
      (one.others address less other)
  current address same :=
    have ⟨prev, kind⟩ := two.current address (one.input.trans same)
    have ⟨prev', kind'⟩ := one.current address same
    ⟨prev.trans prev', kind.trans kind'⟩

/-- A step of the shell keeps the books and the stack, unless an assertion fails. -/
def Keeps (body : State → Ended × State) : Prop :=
  ∀ stack state, Balanced stack state → (body state).1 ≠ .abort →
    Balanced stack (body state).2 ∧ Steady state (body state).2

theorem Chain.congr {sources sources' : Nat → Source} {input : Option Nat} {stack : List Nat}
    (chain : Chain sources input stack)
    (same : ∀ address ∈ stack, (sources' address).prev = (sources address).prev) :
    Chain sources' input stack := by
  induction chain with
  | nil => exact .nil
  | cons rest ih =>
    refine .cons ?_
    rw [same _ List.mem_cons_self]
    exact ih fun address member => same address (List.mem_cons_of_mem _ member)

/-- What is not about an `Input` leaves its page as it is. -/
theorem Ledger.of_eq {stack stack' : List Nat} {before after : State} {address : Nat}
    (ledger : Ledger stack before address)
    (log : ∀ event : Event, event.address = address →
      after.log.count event = before.log.count event)
    (source : after.sources address = before.sources address)
    (mem : address ∈ stack' ↔ address ∈ stack) : Ledger stack' after address where
  freed := by
    rw [log _ rfl, ledger.freed]
    exact if_congr mem.symm rfl rfl
  closed fd := by
    rw [log _ rfl, log _ rfl, source, ← ledger.closed fd]
    congr 1
    exact if_congr (and_congr_left' mem) rfl rfl
  unregistered := by
    rw [log _ rfl, source, ledger.unregistered]
    exact if_congr (or_congr_left mem.symm) rfl rfl
  string := by
    rw [source]
    exact ledger.string
  fd member := by
    rw [source]
    exact ledger.fd (mem.mp member)

theorem Balanced.mem {stack : List Nat} {state : State} (balanced : Balanced stack state)
    {address : Nat} (input : state.input = some address) : address ∈ stack := by
  have chain := balanced.chain
  rw [input] at chain
  cases chain with
  | cons => exact List.mem_cons_self

theorem Balanced.error {stack : List Nat} {state : State} (balanced : Balanced stack state)
    (error : Bool) : Balanced stack { state with error } :=
  ⟨balanced.chain, balanced.nodup, balanced.below,
    fun address less => (balanced.ledger address less).of_eq (fun _ _ => rfl) rfl Iff.rfl,
    balanced.unborn⟩

/-- The current input changes, and perhaps something is recorded about it. -/
theorem Balanced.set {stack : List Nat} {state : State} (balanced : Balanced stack state)
    {address : Nat} (input : state.input = some address) (below : address < state.next)
    (source : Source) (prev : source.prev = (state.sources address).prev)
    (kind : source.kind = (state.sources address).kind) {log : List Event}
    (about : ∀ event : Event, event.address ≠ address → log.count event = state.log.count event)
    (ledger : Ledger stack (State.set { state with log } address source) address) :
    Balanced stack (State.set { state with log } address source) ∧
      Steady state (State.set { state with log } address source) := by
  have other : ∀ other, other ≠ address →
      Function.update state.sources address source other = state.sources other :=
    fun other ne => Function.update_of_ne ne ..
  refine ⟨⟨balanced.chain.congr fun member _ => ?_, balanced.nodup, balanced.below,
    fun member less => ?_, fun member le => ?_⟩, rfl, le_rfl, fun member _ ne => ?_,
    fun member same => ?_⟩
  · by_cases same : member = address
    · rw [same]
      exact (congrArg Source.prev (Function.update_self ..)).trans prev
    · exact congrArg Source.prev (other member same)
  · by_cases same : member = address
    · rw [same]
      exact ledger
    · exact (balanced.ledger member less).of_eq
        (fun event isAbout => about event (isAbout ▸ same)) (other member same) Iff.rfl
  · have ne : member ≠ address := (below.trans_le le).ne'
    obtain ⟨freed, unregistered, fds⟩ := balanced.unborn member le
    exact ⟨(about (.freed member) ne).trans freed,
      (about (.unregistered member) ne).trans unregistered,
      fun fd => ⟨(about (.closed member fd) ne).trans (fds fd).1,
        (about (.registered member fd) ne).trans (fds fd).2⟩⟩
  · exact other member fun same => ne (same ▸ input)
  · obtain rfl : address = member := Option.some.inj (input.symm.trans same)
    exact ⟨(congrArg Source.prev (Function.update_self ..)).trans prev,
      (congrArg Source.kind (Function.update_self ..)).trans kind⟩

/-! ### Reading -/

/-- The descriptor of the current input is closed at the end of the file. -/
theorem Ledger.close {stack : List Nat} {state : State} {address fd : Nat}
    (ledger : Ledger stack state address) (member : address ∈ stack)
    (some : (state.sources address).fd = some fd) :
    Ledger stack (State.set { state with log := .closed address fd :: state.log } address
      (state.sources address).shut) address where
  freed := by
    simpa [State.set, Source.shut] using ledger.freed
  closed other := by
    have before := ledger.closed other
    by_cases same : fd = other
    · subst same
      simp only [member, some, and_self, if_true] at before
      simpa [State.set, Source.shut] using before
    · simp only [member, some, Option.some.injEq, same, and_false, if_false] at before
      simpa [State.set, Source.shut, List.count_cons, same] using before
  unregistered := by
    simpa [State.set, Source.shut] using ledger.unregistered
  string kind := by simp [State.set, Source.shut]
  fd _ _ eof := by simp [State.set, Source.shut] at eof

/-- The current input is a string, and comes to its end. -/
theorem Ledger.end {stack : List Nat} {state : State} {address : Nat}
    (ledger : Ledger stack state address) :
    Ledger stack (state.set address (state.sources address).ended) address where
  freed := ledger.freed
  closed fd := by simpa [State.set, Source.ended] using ledger.closed fd
  unregistered := by simpa [State.set, Source.ended] using ledger.unregistered
  string kind := by
    simp only [State.set, Source.ended, Function.update_self] at kind ⊢
    exact ledger.string kind
  fd _ _ eof := by simp [State.set, Source.ended] at eof

/-- The descriptor of the current input has been read from. -/
theorem fdfill_keeps {stack : List Nat} {state : State} (balanced : Balanced stack state)
    {address : Nat} (input : state.input = some address) {fd : Nat}
    (some : (state.sources address).fd = some fd) (brings : Brings) :
    Balanced stack (fdfill brings address fd state).2 ∧
      Steady state (fdfill brings address fd state).2 := by
  have member := balanced.mem input
  have below := balanced.below address member
  have about : ∀ event : Event, event.address ≠ address →
      (Event.closed address fd :: state.log).count event = state.log.count event := by
    intro event other
    rw [List.count_cons_of_ne]
    rintro rfl
    exact other rfl
  have closed := balanced.set input below (state.sources address).shut rfl rfl about
    ((balanced.ledger address below).close member some)
  cases brings with
  | data => exact ⟨balanced, .refl state⟩
  | signal => exact ⟨balanced.error _, Steady.error state _⟩
  | eof => exact closed
  | failure => exact closed

theorem fill_keeps {stack : List Nat} {state : State} (balanced : Balanced stack state)
    {address : Nat} (input : state.input = some address) (noop : Bool) (brings : Brings)
    (fine : (fill noop brings address state).1 ≠ .abort) :
    Balanced stack (fill noop brings address state).2 ∧
      Steady state (fill noop brings address state).2 := by
  have below := balanced.below address (balanced.mem input)
  unfold fill at fine ⊢
  simp only at fine ⊢
  split at fine
  next eof =>
    rw [if_pos eof]
    exact ⟨balanced, .refl state⟩
  next live =>
  rw [if_neg live]
  cases kind : (state.sources address).kind with
  | string =>
    exact balanced.set input below (state.sources address).ended rfl rfl (fun _ _ => rfl)
      (balanced.ledger address below).end
  | fd =>
    cases some : (state.sources address).fd with
    | none =>
      simp only [kind, some] at fine
      exact absurd rfl fine
    | some fd =>
      obtain ⟨filled, steady⟩ := fdfill_keeps (balanced.error (state.error && !noop)) input some
        brings
      exact ⟨filled, (Steady.error state _).trans steady⟩

/-- The descriptor of the current input is open until its end. -/
theorem fill_fine {stack : List Nat} {state : State} (balanced : Balanced stack state)
    {address : Nat} (input : state.input = some address) (noop : Bool) (brings : Brings) :
    (fill noop brings address state).1 ≠ .abort := by
  have member := balanced.mem input
  have ledger := balanced.ledger address (balanced.below address member)
  unfold fill
  simp only
  split
  next => exact Ended.noConfusion
  next live =>
  cases kind : (state.sources address).kind with
  | string => exact Ended.noConfusion
  | fd =>
    obtain ⟨fd, some⟩ := Option.isSome_iff_exists.mp
      (ledger.fd member kind (Bool.eq_false_iff.mpr live))
    rw [some]
    cases brings <;> exact Ended.noConfusion

theorem yyparse_keeps {stack : List Nat} {address : Nat} (steps : List ParseStep) {state : State}
    (balanced : Balanced stack state) (input : state.input = some address)
    (fine : (yyparse address steps state).1 ≠ .abort) :
    Balanced stack (yyparse address steps state).2 ∧
      Steady state (yyparse address steps state).2 := by
  induction steps generalizing state with
  | nil => exact ⟨balanced, .refl state⟩
  | cons step steps ih =>
    cases step with
    | yyerror =>
      obtain ⟨parsed, steady⟩ := ih (balanced.error true) input fine
      exact ⟨parsed, (Steady.error state true).trans steady⟩
    | fill noop brings =>
      have kept := fill_keeps balanced input noop brings (fill_fine balanced input noop brings)
      simp only [yyparse] at fine ⊢
      rcases filled : fill noop brings address state with ⟨ended, after⟩
      rw [filled] at kept fine
      cases ended with
      | ret =>
        obtain ⟨parsed, steady⟩ := ih kept.1 (kept.2.input.trans input) fine
        exact ⟨parsed, kept.2.trans steady⟩
      | raise => exact kept
      | abort => exact kept

theorem parse_keeps (steps : List ParseStep) (result : Bool) : Keeps (parse steps result) := by
  intro stack state balanced fine
  unfold parse at fine ⊢
  split at fine
  next => exact absurd rfl fine
  next => exact absurd rfl fine
  next address _ input =>
  split at fine
  next eof =>
    rw [if_pos eof]
    exact ⟨balanced, .refl state⟩
  next live =>
  rw [if_neg live]
  have kept := yyparse_keeps steps balanced input
  rcases parsed : yyparse address steps state with ⟨ended, after⟩
  rw [parsed] at kept fine
  cases ended with
  | ret =>
    have ⟨keptBalanced, steady⟩ := kept Ended.noConfusion
    rcases error : after.error with _ | _
    · cases result with
      | true =>
        simp only [error] at fine
        exact absurd rfl fine
      | false => simpa only [error] using ⟨keptBalanced, steady⟩
    · simp only [error]
      exact ⟨keptBalanced.error false, steady.trans (Steady.error after false)⟩
  | raise => exact kept Ended.noConfusion
  | abort => exact absurd rfl fine

/-! ### Running -/

/-- `runinput` has put a new `Input` on the stack, and perhaps its descriptor is registered. -/
def State.enter (state : State) (source : Source) (log : List Event) : State where
  sources := Function.update state.sources state.next { source with prev := state.input }
  next := state.next + 1
  input := some state.next
  error := state.error
  log := log

/-- `runinput` takes an `Input` off the stack. -/
def State.leave (state : State) (address : Nat) : State :=
  { cleanup address state with input := (state.sources address).prev }

theorem runinput_new (body : State → Ended × State) (state : State) (source : Source)
    (log : List Event) :
    runinput state.next body { state.new source with log } =
      match body (state.enter source log) with
      | (.ret, after) => (.ret, after.leave state.next)
      | (.raise, after) =>
        match after.input with
        | none => (.abort, after)
        | some input => (.raise, after.leave input)
      | (.abort, after) => (.abort, after) := by
  have entered : State.push { state.new source with log } state.next = state.enter source log := by
    simp [State.enter, State.push, State.set, State.new]
  have left : ∀ (after : State) (address : Nat),
      cleanup address { after with input := (after.sources address).prev } =
        after.leave address := by
    intro after address
    simp only [cleanup, State.leave]
    split
    · rfl
    · split <;> rfl
  have cleaned : ∀ (address : Nat) (after : State), (cleanup address after).sources =
      after.sources := by
    intro address after
    simp only [cleanup]
    split
    · rfl
    · split <;> rfl
  rw [runinput, entered]
  rcases body (state.enter source log) with ⟨ended, after⟩
  cases ended with
  | ret => exact congrArg _ (left after state.next)
  | raise =>
    cases input : after.input with
    | none => simp only [input]
    | some address => simp only [input, cleaned, State.leave]
  | abort => rfl

theorem Balanced.enter {stack : List Nat} {state : State} (balanced : Balanced stack state)
    {source : Source} {log : List Event}
    (about : ∀ event : Event, event.address ≠ state.next →
      log.count event = state.log.count event)
    (ledger : Ledger (state.next :: stack) (state.enter source log) state.next) :
    Balanced (state.next :: stack) (state.enter source log) := by
  have fresh : state.next ∉ stack := fun member => (balanced.below _ member).false
  have older : ∀ address, address ≠ state.next →
      (state.enter source log).sources address = state.sources address :=
    fun address ne => Function.update_of_ne ne ..
  refine ⟨?_, List.nodup_cons.mpr ⟨fresh, balanced.nodup⟩, fun address member => ?_,
    fun address less => ?_, fun address le => ?_⟩
  · refine .cons ?_
    have prev : ((state.enter source log).sources state.next).prev = state.input := by
      simp [State.enter]
    rw [prev]
    exact balanced.chain.congr fun address member =>
      congrArg Source.prev (older address fun same => fresh (same ▸ member))
  · rcases List.mem_cons.mp member with rfl | member
    · exact Nat.lt_succ_self _
    · exact (balanced.below address member).trans (Nat.lt_succ_self _)
  · rcases Nat.lt_succ_iff_lt_or_eq.mp less with less | rfl
    · exact (balanced.ledger address less).of_eq
        (fun event same => about event (same ▸ less.ne)) (older address less.ne)
        (by simp [less.ne])
    · exact ledger
  · have ne : address ≠ state.next := (Nat.lt_of_succ_le le).ne'
    obtain ⟨freed, unregistered, fds⟩ := balanced.unborn address (Nat.le_of_succ_le le)
    exact ⟨(about (.freed address) ne).trans freed,
      (about (.unregistered address) ne).trans unregistered,
      fun fd => ⟨(about (.closed address fd) ne).trans (fds fd).1,
        (about (.registered address fd) ne).trans (fds fd).2⟩⟩

/-- The first page on an `Input` that has a descriptor. -/
theorem Ledger.registered {stack : List Nat} {state : State} (balanced : Balanced stack state)
    (fd : Nat) :
    Ledger (state.next :: stack)
      (state.enter ⟨.fd, none, some fd, false⟩ (.registered state.next fd :: state.log))
      state.next where
  freed := by simpa [State.enter] using (balanced.unborn state.next le_rfl).1
  closed other := by
    have ⟨closed, registered⟩ := (balanced.unborn state.next le_rfl).2.2 other
    simp [State.enter, List.count_cons, closed, registered]
  unregistered := by simpa [State.enter] using (balanced.unborn state.next le_rfl).2.1
  string kind := by simp [State.enter] at kind
  fd _ _ _ := by simp [State.enter]

/-- The first page on an `Input` that is a string. -/
theorem Ledger.string_new {stack : List Nat} {state : State} (balanced : Balanced stack state) :
    Ledger (state.next :: stack) (state.enter ⟨.string, none, none, false⟩ state.log)
      state.next where
  freed := by simpa [State.enter] using (balanced.unborn state.next le_rfl).1
  closed fd := by
    have ⟨closed, registered⟩ := (balanced.unborn state.next le_rfl).2.2 fd
    simp [State.enter, closed, registered]
  unregistered := by simpa [State.enter] using (balanced.unborn state.next le_rfl).2.1
  string _ := by simp [State.enter]
  fd _ kind _ := by simp [State.enter] at kind

/-- The page on an `Input` is closed when it is freed. -/
theorem Ledger.leave {stack : List Nat} {state : State} {address : Nat}
    (ledger : Ledger (address :: stack) state address) (fresh : address ∉ stack) :
    Ledger stack (state.leave address) address := by
  have freed : state.log.count (.freed address) = 0 := by simpa using ledger.freed
  have closed := ledger.closed
  have unregistered : state.log.count (.unregistered address) = 0 := by
    simpa using ledger.unregistered
  simp only [List.mem_cons_self, true_and] at closed
  cases kind : (state.sources address).kind with
  | string =>
    have none := ledger.string kind
    constructor <;> simp_all [State.leave, cleanup]
  | fd =>
    cases some : (state.sources address).fd with
    | none => constructor <;> simp_all [State.leave, cleanup]
    | some fd =>
      constructor
      · simp_all [State.leave, cleanup]
      · intro other
        have before := closed other
        by_cases same : fd = other
        · simp_all [State.leave, cleanup]
        · simp_all [State.leave, cleanup]
      · simp_all [State.leave, cleanup]
      · simp_all [State.leave, cleanup]
      · simp_all [State.leave, cleanup]

theorem leave_sources (state : State) (address : Nat) :
    (state.leave address).sources = state.sources ∧
      (state.leave address).next = state.next := by
  simp only [State.leave, cleanup]
  split
  · exact ⟨rfl, rfl⟩
  · split <;> exact ⟨rfl, rfl⟩

theorem Balanced.leave {stack : List Nat} {state : State} {address : Nat}
    (balanced : Balanced (address :: stack) state) : Balanced stack (state.leave address) := by
  have fresh : address ∉ stack := (List.nodup_cons.mp balanced.nodup).1
  have below := balanced.below address List.mem_cons_self
  have sources := leave_sources state address
  have about : ∀ event : Event, event.address ≠ address →
      (state.leave address).log.count event = state.log.count event := by
    intro event other
    have ne : ∀ recorded : Event, recorded.address = address → recorded ≠ event :=
      fun recorded same eq => other (eq ▸ same)
    simp only [State.leave, cleanup]
    split
    · exact List.count_cons_of_ne (ne (.freed address) rfl)
    · split
      · rw [List.count_cons_of_ne (ne (.freed address) rfl),
          List.count_cons_of_ne (ne (.unregistered address) rfl)]
      next fd _ =>
        rw [List.count_cons_of_ne (ne (.freed address) rfl),
          List.count_cons_of_ne (ne (.closed address fd) rfl),
          List.count_cons_of_ne (ne (.unregistered address) rfl)]
  refine ⟨?_, (List.nodup_cons.mp balanced.nodup).2, fun member mem => ?_, fun member less => ?_,
    fun member le => ?_⟩
  · rw [sources.1]
    have chain := balanced.chain
    generalize input : state.input = from' at chain
    cases chain with
    | cons rest => exact rest
  · rw [sources.2]
    exact balanced.below member (List.mem_cons_of_mem _ mem)
  · rw [sources.2] at less
    by_cases same : member = address
    · rw [same]
      exact (balanced.ledger address below).leave fresh
    · exact (balanced.ledger member less).of_eq
        (fun event isAbout => about event (isAbout ▸ same)) (congrFun sources.1 member)
        (by simp [same])
  · rw [sources.2] at le
    have ne : member ≠ address := (below.trans_le le).ne'
    obtain ⟨freed, unregistered, fds⟩ := balanced.unborn member le
    exact ⟨(about (.freed member) ne).trans freed,
      (about (.unregistered member) ne).trans unregistered,
      fun fd => ⟨(about (.closed member fd) ne).trans (fds fd).1,
        (about (.registered member fd) ne).trans (fds fd).2⟩⟩

/-- A new `Input` is run, and the stack is as before. -/
theorem runinput_keeps {stack : List Nat} {state : State} {body : State → Ended × State}
    (balanced : Balanced stack state) (keeps : Keeps body) {source : Source} {log : List Event}
    (entered : Balanced (state.next :: stack) (state.enter source log))
    (fine : (runinput state.next body { state.new source with log }).1 ≠ .abort) :
    Balanced stack (runinput state.next body { state.new source with log }).2 ∧
      Steady state (runinput state.next body { state.new source with log }).2 := by
  rw [runinput_new] at fine ⊢
  have kept := keeps _ _ entered
  rcases ran : body (state.enter source log) with ⟨ended, after⟩
  rw [ran] at kept fine
  have left : ended ≠ .abort → Balanced stack (after.leave state.next) ∧
      Steady state (after.leave state.next) := by
    intro notAborted
    obtain ⟨run, steady⟩ := kept notAborted
    have sources := leave_sources after state.next
    have older : ∀ address, address < state.next →
        (after.leave state.next).sources address = state.sources address := by
      intro address less
      rw [sources.1, steady.others address (Nat.lt_succ_of_lt less)
        (fun same => less.ne (Option.some.inj same).symm)]
      exact Function.update_of_ne less.ne ..
    refine ⟨run.leave, ?_, ?_, fun address less _ => older address less,
      fun address same => ?_⟩
    · have prev := (steady.current state.next rfl).1
      simpa [State.leave, State.enter] using prev
    · rw [sources.2]
      exact (Nat.le_succ _).trans steady.next
    · have member : address ∈ stack := balanced.mem same
      rw [older address (balanced.below address member)]
      exact ⟨rfl, rfl⟩
  cases ended with
  | ret => exact left Ended.noConfusion
  | raise =>
    have input := (kept Ended.noConfusion).2.input
    simp only [State.enter] at input
    simp only [input]
    exact left Ended.noConfusion
  | abort => exact absurd rfl fine

theorem Balanced.enter_fd {stack : List Nat} {state : State} (balanced : Balanced stack state)
    (fd : Nat) : Balanced (state.next :: stack)
      (state.enter ⟨.fd, none, some fd, false⟩ (.registered state.next fd :: state.log)) := by
  refine balanced.enter (fun event other => ?_) (Ledger.registered balanced fd)
  rw [List.count_cons_of_ne]
  rintro rfl
  exact other rfl

theorem Balanced.enter_string {stack : List Nat} {state : State}
    (balanced : Balanced stack state) : Balanced (state.next :: stack)
      (state.enter ⟨.string, none, none, false⟩ state.log) :=
  balanced.enter (fun _ _ => rfl) (Ledger.string_new balanced)

theorem runfd_keeps {body : State → Ended × State} (keeps : Keeps body) (fd : Nat) :
    Keeps (runfd fd body) := by
  intro stack state balanced fine
  exact runinput_keeps balanced keeps (balanced.enter_fd fd) fine

theorem runstring_keeps {body : State → Ended × State} (keeps : Keeps body) :
    Keeps (runstring body) := by
  intro stack state balanced fine
  exact runinput_keeps balanced keeps balanced.enter_string fine

theorem parseValue_keeps (steps : List ParseStep) (result more : Bool) :
    Keeps (parseValue steps result more) := by
  intro stack state balanced fine
  have kept := parse_keeps steps result stack state balanced
  unfold parseValue at fine ⊢
  rcases parsed : parse steps result state with ⟨ended, after⟩
  rw [parsed] at kept fine
  cases ended with
  | raise => exact kept Ended.noConfusion
  | abort => exact absurd rfl fine
  | ret =>
    obtain ⟨run, steady⟩ := kept Ended.noConfusion
    cases more with
    | true => exact ⟨run, steady⟩
    | false =>
      cases input : after.input with
      | none =>
        simp only [input] at fine
        exact absurd rfl fine
      | some address =>
        simp only [input] at fine ⊢
        have ⟨filled, kept⟩ := fill_keeps run input false .eof fine
        exact ⟨filled, steady.trans kept⟩

theorem exec_keeps (activity : Activity) : Keeps (exec activity) := by
  induction activity with
  | done => exact fun _ state balanced _ => ⟨balanced, .refl state⟩
  | throw => exact fun _ state balanced _ => ⟨balanced, .refl state⟩
  | parse steps result => exact parse_keeps steps result
  | runfd fd body ih => exact runfd_keeps ih fd
  | runstring body ih => exact runstring_keeps ih
  | parsestring steps result more => exact runstring_keeps (parseValue_keeps steps result more)
  | andThen first next first_ih next_ih =>
    intro stack state balanced fine
    have kept := first_ih stack state balanced
    unfold exec at fine ⊢
    rcases ran : exec first state with ⟨ended, after⟩
    rw [ran] at kept fine
    cases ended with
    | ret =>
      obtain ⟨run, steady⟩ := kept Ended.noConfusion
      obtain ⟨run, steady'⟩ := next_ih stack after run fine
      exact ⟨run, steady.trans steady'⟩
    | raise => exact kept Ended.noConfusion
    | abort => exact absurd rfl fine
  | catching body handler body_ih handler_ih =>
    intro stack state balanced fine
    have kept := body_ih stack state balanced
    unfold exec at fine ⊢
    rcases ran : exec body state with ⟨ended, after⟩
    rw [ran] at kept fine
    cases ended with
    | ret => exact kept Ended.noConfusion
    | raise =>
      obtain ⟨run, steady⟩ := kept Ended.noConfusion
      obtain ⟨run, steady'⟩ := handler_ih stack after run fine
      exact ⟨run, steady.trans steady'⟩
    | abort => exact absurd rfl fine

/-- Nothing has been run yet. -/
theorem Balanced.initial : Balanced [] State.initial where
  chain := .nil
  nodup := .nil
  below _ member := absurd member List.not_mem_nil
  ledger _ less := absurd less (Nat.not_lt_zero _)
  unborn _ _ := ⟨rfl, rfl, fun _ => ⟨rfl, rfl⟩⟩

/-- A string is run from a file, and left by the exception of a syntax error. -/
def nested : Activity :=
  .runfd 3 (.andThen (.parse [.fill true .data] false)
    (.catching (.runstring (.parse [.yyerror] true)) (.parse [.fill false .eof] false)))

/-- Whatever is done, and whether it ends with an exception or not, the current input is the same
afterwards, the older ones are as they were, and each of the inputs that have been put on the stack
meanwhile was freed once, unregistered once if it had a descriptor, and each descriptor closed as
often as it was registered. -/
theorem exec_restores {stack : List Nat} {state : State} (balanced : Balanced stack state)
    (activity : Activity) (fine : (exec activity state).1 ≠ .abort) :
    let after := (exec activity state).2
    after.input = state.input ∧ Chain after.sources after.input stack ∧
      (∀ address, address < state.next → state.input ≠ some address →
        after.sources address = state.sources address) ∧
      ∀ address, state.next ≤ address → address < after.next →
        after.log.count (.freed address) = 1 ∧
          after.log.count (.unregistered address) =
            (if (after.sources address).kind = .string then 0 else 1) ∧
          ∀ fd, after.log.count (.closed address fd) =
            after.log.count (.registered address fd) := by
  obtain ⟨run, steady⟩ := exec_keeps activity stack state balanced fine
  refine ⟨steady.input, run.chain, steady.others, fun address le less => ?_⟩
  have popped : address ∉ stack := fun member => (balanced.below address member).not_ge le
  have ledger := run.ledger address less
  refine ⟨?_, ?_, fun fd => ?_⟩
  · simpa [popped] using ledger.freed
  · simpa [popped] using ledger.unregistered
  · simpa [popped] using ledger.closed fd

theorem exec_restores_nested :
    let after := (exec nested State.initial).2
    after.input = State.initial.input ∧ Chain after.sources after.input [] ∧
      (∀ address, address < State.initial.next → State.initial.input ≠ some address →
        after.sources address = State.initial.sources address) ∧
      ∀ address, State.initial.next ≤ address → address < after.next →
        after.log.count (.freed address) = 1 ∧
          after.log.count (.unregistered address) =
            (if (after.sources address).kind = .string then 0 else 1) ∧
          ∀ fd, after.log.count (.closed address fd) =
            after.log.count (.registered address fd) :=
  exec_restores .initial nested (by decide)

/-! ### Assertions -/

/-- Behind a syntax error no `read` fails and no signal without an effect is taken, and `yyparse`
gives up only because of one. -/
def orderly (error : Bool) : List ParseStep → Bool → Bool
  | [], result => !result || error
  | .yyerror :: steps, result => orderly true steps result
  | .fill noop brings :: steps, result =>
    !(error && (noop || brings = .failure)) && orderly error steps result

/-- Each parse is so, and there is an input to parse. -/
def Activity.orderly (reading : Bool) : Activity → Bool
  | .done | .throw => true
  | .parse steps result => reading && Runinput.orderly false steps result
  | .runfd _ body | .runstring body => body.orderly true
  | .parsestring steps result _ => Runinput.orderly false steps result
  | .andThen first next => first.orderly reading && next.orderly reading
  | .catching body handler => body.orderly reading && handler.orderly reading

/-- No assertion fails, and no message is left. -/
def Clears (result : Ended × State) : Prop := result.1 ≠ .abort ∧ result.2.error = false

/-- A message stays unless `fill` ends with an exception, and that leaves none. -/
theorem fill_clears {stack : List Nat} {state : State} (balanced : Balanced stack state)
    {address : Nat} (input : state.input = some address) {noop : Bool} {brings : Brings}
    (harmless : state.error = true → noop = false ∧ brings ≠ .failure) :
    (fill noop brings address state).1 = .ret ∧
        (fill noop brings address state).2.error = state.error ∨
      (fill noop brings address state).1 = .raise ∧
        (fill noop brings address state).2.error = false := by
  have fine := fill_fine balanced input noop brings
  have error : (state.checked noop).error = state.error := by
    cases error : state.error with
    | false => simp [State.checked, error]
    | true => simp [State.checked, error, (harmless error).1]
  unfold fill at fine ⊢
  simp only at fine ⊢
  split
  next => exact .inl ⟨rfl, rfl⟩
  next live =>
  rw [if_neg live] at fine
  split
  next => exact .inl ⟨rfl, rfl⟩
  next kind fd =>
    rw [kind, fd] at fine
    exact absurd rfl fine
  next =>
    cases brings with
    | data => exact .inl ⟨rfl, error⟩
    | eof => exact .inl ⟨rfl, error⟩
    | signal => exact .inr ⟨rfl, Bool.and_false _⟩
    | failure =>
      have none : state.error = false := Bool.eq_false_iff.mpr fun some => (harmless some).2 rfl
      exact .inr ⟨rfl, error.trans none⟩

theorem yyparse_clears {stack : List Nat} {address : Nat} (steps : List ParseStep) (result : Bool)
    {state : State} (balanced : Balanced stack state) (input : state.input = some address)
    (sane : orderly state.error steps result = true) :
    (yyparse address steps state).1 ≠ .abort ∧
      ((yyparse address steps state).1 = .raise →
        (yyparse address steps state).2.error = false) ∧
      ((yyparse address steps state).1 = .ret → result = true →
        (yyparse address steps state).2.error = true) := by
  induction steps generalizing state with
  | nil =>
    refine ⟨Ended.noConfusion, Ended.noConfusion, fun _ gaveUp => ?_⟩
    simpa [orderly, yyparse, gaveUp] using sane
  | cons step steps ih =>
    cases step with
    | yyerror => exact ih (balanced.error true) input sane
    | fill noop brings =>
      simp only [orderly, Bool.and_eq_true, Bool.not_eq_true', Bool.and_eq_false_iff,
        Bool.or_eq_false_iff, decide_eq_false_iff_not] at sane
      have harmless : state.error = true → noop = false ∧ brings ≠ .failure := by
        intro error
        exact sane.1.resolve_left (by simp [error])
      have kept := fill_keeps balanced input noop brings (fill_fine balanced input noop brings)
      have cleared := fill_clears balanced input harmless
      simp only [yyparse]
      rcases filled : fill noop brings address state with ⟨ended, after⟩
      rw [filled] at kept cleared
      rcases cleared with ⟨returned, error⟩ | ⟨raised, error⟩
      · simp only at returned error
        subst returned
        exact ih kept.1 (kept.2.input.trans input) (by rw [error]; exact sane.2)
      · simp only at raised
        subst raised
        exact ⟨Ended.noConfusion, fun _ => error, Ended.noConfusion⟩

theorem parse_clears {stack : List Nat} {state : State} (balanced : Balanced stack state)
    (steps : List ParseStep) (result : Bool) (reading : state.input.isSome = true)
    (error : state.error = false) (sane : orderly false steps result = true) :
    Clears (parse steps result state) := by
  obtain ⟨address, input⟩ := Option.isSome_iff_exists.mp reading
  rw [parse, error, input]
  simp only
  split
  next => exact ⟨Ended.noConfusion, error⟩
  next =>
  have ⟨fine, raised, returned⟩ := yyparse_clears steps result balanced input (error.symm ▸ sane)
  rcases parsed : yyparse address steps state with ⟨ended, after⟩
  rw [parsed] at fine raised returned
  cases ended with
  | ret =>
    rcases message : after.error with _ | _
    · cases result with
      | true => exact Bool.noConfusion (message.symm.trans (returned rfl rfl))
      | false => simpa only [message] using ⟨Ended.noConfusion, message⟩
    · simpa only [message] using ⟨Ended.noConfusion, rfl⟩
  | raise => exact ⟨Ended.noConfusion, raised rfl⟩
  | abort => exact absurd rfl fine

theorem leave_error (state : State) (address : Nat) :
    (state.leave address).error = state.error := by
  simp only [State.leave, cleanup]
  split
  · rfl
  · split <;> rfl

theorem runinput_clears {stack : List Nat} {state : State} {body : State → Ended × State}
    (keeps : Keeps body) {source : Source} {log : List Event}
    (entered : Balanced (state.next :: stack) (state.enter source log))
    (clears : Clears (body (state.enter source log))) :
    Clears (runinput state.next body { state.new source with log }) := by
  have kept := keeps _ _ entered clears.1
  rw [runinput_new]
  rcases ran : body (state.enter source log) with ⟨ended, after⟩
  rw [ran] at kept clears
  cases ended with
  | ret => exact ⟨Ended.noConfusion, (leave_error after state.next).trans clears.2⟩
  | raise =>
    have input : after.input = some state.next := kept.2.input
    simp only [input]
    exact ⟨Ended.noConfusion, (leave_error after state.next).trans clears.2⟩
  | abort => exact absurd rfl clears.1


theorem parseValue_clears {stack : List Nat} {state : State} (balanced : Balanced stack state)
    (steps : List ParseStep) (result more : Bool) (reading : state.input.isSome = true)
    (error : state.error = false) (sane : orderly false steps result = true) :
    Clears (parseValue steps result more state) := by
  have cleared := parse_clears balanced steps result reading error sane
  have kept := parse_keeps steps result stack state balanced cleared.1
  unfold parseValue
  rcases parsed : parse steps result state with ⟨ended, after⟩
  rw [parsed] at cleared kept
  cases ended with
  | raise => exact cleared
  | abort => exact absurd rfl cleared.1
  | ret =>
    cases more with
    | true => exact ⟨Ended.noConfusion, cleared.2⟩
    | false =>
      obtain ⟨address, current⟩ := Option.isSome_iff_exists.mp reading
      have input : after.input = some address := kept.2.input.trans current
      have harmless : after.error = true → false = false ∧ Brings.eof ≠ .failure :=
        fun _ => ⟨rfl, Brings.noConfusion⟩
      simp only [input]
      refine ⟨fill_fine kept.1 input false .eof, ?_⟩
      rcases fill_clears kept.1 input harmless with ⟨_, same⟩ | ⟨_, none⟩
      · exact same.trans cleared.2
      · exact none

/-- The assertions of `parse` and `fdfill` hold in whatever is done, if behind a syntax error no
`read` fails and no signal without an effect is taken before the parse has ended. -/
theorem exec_clears {stack : List Nat} {state : State} (balanced : Balanced stack state)
    (error : state.error = false) (activity : Activity)
    (sane : activity.orderly state.input.isSome = true) : Clears (exec activity state) := by
  induction activity generalizing stack state with
  | done => exact ⟨Ended.noConfusion, error⟩
  | throw => exact ⟨Ended.noConfusion, error⟩
  | parse steps result =>
    simp only [Activity.orderly, Bool.and_eq_true] at sane
    exact parse_clears balanced steps result sane.1 error sane.2
  | runfd fd body ih =>
    have entered := balanced.enter_fd fd
    exact runinput_clears (exec_keeps body) entered (ih entered error sane)
  | runstring body ih =>
    have entered := balanced.enter_string
    exact runinput_clears (exec_keeps body) entered (ih entered error sane)
  | parsestring steps result more =>
    have entered := balanced.enter_string
    exact runinput_clears (parseValue_keeps steps result more) entered
      (parseValue_clears entered steps result more rfl error sane)
  | andThen first next first_ih next_ih =>
    simp only [Activity.orderly, Bool.and_eq_true] at sane
    have cleared := first_ih balanced error sane.1
    have kept := exec_keeps first stack state balanced cleared.1
    unfold exec
    rcases ran : exec first state with ⟨ended, after⟩
    rw [ran] at cleared kept
    cases ended with
    | ret => exact next_ih kept.1 cleared.2 (by rw [kept.2.input]; exact sane.2)
    | raise => exact cleared
    | abort => exact absurd rfl cleared.1
  | catching body handler body_ih handler_ih =>
    simp only [Activity.orderly, Bool.and_eq_true] at sane
    have cleared := body_ih balanced error sane.1
    have kept := exec_keeps body stack state balanced cleared.1
    unfold exec
    rcases ran : exec body state with ⟨ended, after⟩
    rw [ran] at cleared kept
    cases ended with
    | ret => exact cleared
    | raise => exact handler_ih kept.1 cleared.2 (by rw [kept.2.input]; exact sane.2)
    | abort => exact absurd rfl cleared.1

theorem exec_clears_nested : Clears (exec nested State.initial) :=
  exec_clears .initial rfl nested rfl

/-- A message is left when a `read` fails behind a syntax error, and the next parse aborts. -/
example : (exec (.runfd 3 (.catching (.parse [.yyerror, .fill false .failure] true)
    (.runstring (.parse [] false)))) State.initial).1 = .abort := by decide

/-- A signal drops the message, though it has no effect, and the parse itself aborts. -/
example : (exec (.runfd 3 (.parse [.yyerror, .fill true .data] true)) State.initial).1 =
    .abort := by decide

end Runinput

end Desh
