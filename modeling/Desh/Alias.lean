/-
This file models the variables that `initial.es` keeps under two names: `home`
and `HOME`, `path` and `PATH`. The settor of each assigns to the other one,
whose own settor it hides meanwhile with `local`. Assignments and local bindings
call the settors as `var.c` does, also when a binding ends; each call takes a
level of `eval`, of which there are so many.

Whatever is assigned and bound, with exceptions and without, the two names agree
and the settors do not call one another without end. A local binding restores
the other name just if it had what the settor makes of the restored value.
-/

import Desh.Splitting

namespace Desh

namespace Alias

/-! ### The settors -/

/-- `set-name = @ { local (set-other = ) other = <={carry $*}; result $* }`. -/
structure Settor where
  other : Text
  carry : List Text → List Text

/-- The variables, and the settors that are hidden by a `local`. -/
structure State where
  value : Text → List Text
  hidden : Text → Bool

/-- What is done: an assignment, an exception, a local binding, one thing after another, or
something with a handler. -/
inductive Activity where
  | assign (name : Text) (defn : List Text)
  | raise
  | binding (name : Text) (defn : List Text) (body : Activity)
  | andThen (first next : Activity)
  | catching (body handler : Activity)

def State.store (state : State) (name : Text) (defn : List Text) : State :=
  { state with value := Function.update state.value name defn }

def State.hide (state : State) (name : Text) (hidden : Bool) : State :=
  { state with hidden := Function.update state.hidden name hidden }

section

variable (settors : Text → Option Settor)

/-- `callsettor`, with so many levels of `eval` left. -/
def callsettor : Nat → Text → List Text → State → Option (List Text × State)
  | depth, name, defn, state =>
    match settors name, state.hidden name with
    | none, _ => some (defn, state)
    | some _, true => some (defn, state)
    | some settor, false =>
      match depth with
      | 0 => none
      | depth + 1 =>
        (callsettor depth settor.other (settor.carry defn) (state.hide settor.other true)).map
          fun (carried, after) =>
            (defn, (after.store settor.other carried).hide settor.other
              (state.hidden settor.other))

/-- `vardef`. -/
def vardef (depth : Nat) (name : Text) (defn : List Text) (state : State) : Option State :=
  (callsettor settors depth name defn state).map fun (defn, after) => after.store name defn

/-- `varpush`, and what it saves. -/
def varpush (depth : Nat) (name : Text) (defn : List Text) (state : State) :
    Option (List Text × State) :=
  (callsettor settors depth name defn state).map fun (defn, after) =>
    (after.value name, after.store name defn)

/-- `varpop`. -/
def varpop (depth : Nat) (name : Text) (saved : List Text) (state : State) : Option State :=
  (callsettor settors depth name saved state).map fun (saved, after) => after.store name saved

/-- Carry out an activity, and say if it ends with an exception. -/
def exec (depth : Nat) : Activity → State → Option (Bool × State)
  | .assign name defn, state => (vardef settors depth name defn state).map fun after =>
      (false, after)
  | .raise, state => some (true, state)
  | .binding name defn body, state =>
    (varpush settors depth name defn state).bind fun (saved, inner) =>
      (exec depth body inner).bind fun (raised, after) =>
        (varpop settors depth name saved after).map fun after => (raised, after)
  | .andThen first next, state =>
    (exec depth first state).bind fun (raised, after) =>
      if raised then some (true, after) else exec depth next after
  | .catching body handler, state =>
    (exec depth body state).bind fun (raised, after) =>
      if raised then exec depth handler after else some (false, after)

end

/-- The settors of `initial.es`. What was split before makes no difference to `%fsplit`. -/
def initial (name : Text) : Option Settor :=
  if name = lit "home" then some ⟨lit "HOME", id⟩
  else if name = lit "HOME" then some ⟨lit "home", id⟩
  else if name = lit "path" then some ⟨lit "PATH", fun list =>
    ((primFlatten (lit ":" :: list)).toOption).getD []⟩
  else if name = lit "PATH" then some ⟨lit "path", fun list =>
    ((primFsplit Split.initial (lit ":" :: list)).toOption).getD []⟩
  else none

/-! ### Two names of one thing -/

/-- What settors have to do for it: each has a counterpart, and what it carries over agrees. -/
structure Mirrors (settors : Text → Option Settor) (plain : List Text → Prop)
    (agree : Text → List Text → List Text → Prop) : Prop where
  back : ∀ {name settor}, settors name = some settor → name ≠ settor.other ∧
    ∃ counterpart, settors settor.other = some counterpart ∧ counterpart.other = name
  keeps : ∀ {name settor list}, settors name = some settor → plain list →
    plain (settor.carry list)
  carries : ∀ {name settor list}, settors name = some settor → plain list →
    agree name list (settor.carry list)
  symm : ∀ {name settor list other}, settors name = some settor → agree name list other →
    agree settor.other other list

/-- No settor is hidden, and the two names agree. -/
structure Synced (settors : Text → Option Settor) (plain : List Text → Prop)
    (agree : Text → List Text → List Text → Prop) (state : State) : Prop where
  shown : ∀ name, state.hidden name = false
  plain : ∀ name, plain (state.value name)
  agree : ∀ name settor, settors name = some settor →
    agree name (state.value name) (state.value settor.other)

/-- What is assigned in an activity. -/
def Activity.Plain (plain : List Text → Prop) : Activity → Prop
  | .assign _ defn => plain defn
  | .raise => True
  | .binding _ defn body => plain defn ∧ body.Plain plain
  | .andThen first next => first.Plain plain ∧ next.Plain plain
  | .catching body handler => body.Plain plain ∧ handler.Plain plain

/-- A settor has carried a value over. -/
def State.carried (settors : Text → Option Settor) (state : State) (name : Text)
    (defn : List Text) : State :=
  match settors name with
  | none => state
  | some settor => state.store settor.other (settor.carry defn)

section

variable {settors : Text → Option Settor} {plain : List Text → Prop}
  {agree : Text → List Text → List Text → Prop}

/-- A settor calls the other one, and that is hidden. -/
theorem callsettor_eq (mirrors : Mirrors settors plain agree) {state : State}
    (shown : ∀ name, state.hidden name = false) (depth : Nat) (name : Text) (defn : List Text) :
    callsettor settors (depth + 1) name defn state =
      some (defn, state.carried settors name defn) := by
  rw [callsettor, State.carried]
  cases found : settors name with
  | none => rfl
  | some settor =>
    obtain ⟨-, counterpart, back, -⟩ := mirrors.back found
    have hidden : (state.hide settor.other true).hidden settor.other = true :=
      Function.update_self ..
    have inner : callsettor settors depth settor.other (settor.carry defn)
        (state.hide settor.other true) =
          some (settor.carry defn, state.hide settor.other true) := by
      rw [callsettor, back, hidden]
    simp only [shown name, inner, Option.map_some]
    congr 2
    simp only [State.hide, State.store, Function.update_idem]
    congr 1
    exact Function.update_eq_self settor.other state.hidden

/-- An assignment leaves both names with what agrees. -/
theorem Synced.define (mirrors : Mirrors settors plain agree) {state : State}
    (synced : Synced settors plain agree state) {defn : List Text} (valid : plain defn)
    (name : Text) :
    Synced settors plain agree ((state.carried settors name defn).store name defn) := by
  cases found : settors name with
  | none =>
    have carried : state.carried settors name defn = state := by
      rw [State.carried, found]
    rw [carried]
    refine ⟨synced.shown, fun other => ?_, fun other settor has => ?_⟩
    · by_cases same : other = name
      · simpa [State.store, same] using valid
      · simpa [State.store, same] using synced.plain other
    · obtain ⟨-, counterpart, back, -⟩ := mirrors.back has
      have ne : other ≠ name := fun same => by simp [same, found] at has
      have ne' : settor.other ≠ name := fun same => by simp [same, found] at back
      simpa [State.store, ne, ne'] using synced.agree other settor has
  | some settor =>
    have carried : state.carried settors name defn =
        state.store settor.other (settor.carry defn) := by
      rw [State.carried, found]
    obtain ⟨distinct, counterpart, back, counter⟩ := mirrors.back found
    rw [carried]
    have value : ((state.store settor.other (settor.carry defn)).store name defn).value name =
        defn := Function.update_self ..
    have value' : ((state.store settor.other (settor.carry defn)).store name defn).value
        settor.other = settor.carry defn := by
      simp [State.store, distinct.symm]
    have value'' : ∀ other, other ≠ name → other ≠ settor.other →
        ((state.store settor.other (settor.carry defn)).store name defn).value other =
          state.value other := by
      intro other ne ne'
      simp [State.store, ne, ne']
    refine ⟨synced.shown, fun other => ?_, fun other settor' has => ?_⟩
    · by_cases same : other = name
      · rw [same, value]
        exact valid
      by_cases same' : other = settor.other
      · rw [same', value']
        exact mirrors.keeps found valid
      · rw [value'' other same same']
        exact synced.plain other
    · by_cases same : other = name
      · subst same
        obtain rfl : settor = settor' := Option.some.inj (found.symm.trans has)
        rw [value, value']
        exact mirrors.carries found valid
      by_cases same' : other = settor.other
      · subst same'
        obtain rfl : counterpart = settor' := Option.some.inj (back.symm.trans has)
        rw [value', counter, value]
        exact mirrors.symm found (mirrors.carries found valid)
      · obtain ⟨distinct', counterpart', back', counter'⟩ := mirrors.back has
        have ne : settor'.other ≠ name := by
          rintro rfl
          exact same' (counter'.symm.trans (congrArg Settor.other
            (Option.some.inj (back'.symm.trans found))))
        have ne' : settor'.other ≠ settor.other := by
          intro eq
          rw [eq] at back'
          exact same (counter'.symm.trans ((congrArg Settor.other
            (Option.some.inj (back'.symm.trans back))).trans counter))
        rw [value'' other same same', value'' settor'.other ne ne']
        exact synced.agree other settor' has

/-- A settor does not assign to its own variable. -/
theorem carried_value (mirrors : Mirrors settors plain agree) (state : State) (name : Text)
    (defn : List Text) : (state.carried settors name defn).value name = state.value name := by
  rw [State.carried]
  cases found : settors name with
  | none => rfl
  | some settor => exact Function.update_of_ne (mirrors.back found).1 ..

/-- Whatever is done, the names agree, and the settors come to an end. -/
theorem exec_synced (mirrors : Mirrors settors plain agree) (depth : Nat) (activity : Activity)
    {state : State} (synced : Synced settors plain agree state) (valid : activity.Plain plain) :
    ∃ raised after, exec settors (depth + 1) activity state = some (raised, after) ∧
      Synced settors plain agree after := by
  induction activity generalizing state with
  | assign name defn =>
    refine ⟨false, _, ?_, synced.define mirrors valid name⟩
    rw [exec, vardef, callsettor_eq mirrors synced.shown]
    rfl
  | raise => exact ⟨true, state, rfl, synced⟩
  | binding name defn body ih =>
    obtain ⟨raised, after, ran, inner⟩ := ih (synced.define mirrors valid.1 name) valid.2
    refine ⟨raised, _, ?_, inner.define mirrors (synced.plain name) name⟩
    rw [exec, varpush, callsettor_eq mirrors synced.shown]
    simp only [Option.map_some, Option.bind_some, ran, carried_value mirrors]
    rw [varpop, callsettor_eq mirrors inner.shown]
    rfl
  | andThen first next first_ih next_ih =>
    obtain ⟨raised, after, ran, synced⟩ := first_ih synced valid.1
    rw [exec, ran]
    cases raised with
    | true => exact ⟨true, after, rfl, synced⟩
    | false => exact next_ih synced valid.2
  | catching body handler body_ih handler_ih =>
    obtain ⟨raised, after, ran, synced⟩ := body_ih synced valid.1
    rw [exec, ran]
    cases raised with
    | true => exact handler_ih synced valid.2
    | false => exact ⟨false, after, rfl, synced⟩

/-- A local binding leaves its variable with the value from before, and the other name with what
the settor makes of that, whatever the body does. -/
theorem exec_binding (mirrors : Mirrors settors plain agree) (depth : Nat) {name : Text}
    {settor : Settor} (found : settors name = some settor) {defn : List Text} {body : Activity}
    {state : State} (synced : Synced settors plain agree state) (valid : plain defn)
    (validBody : body.Plain plain) :
    ∃ raised after, exec settors (depth + 1) (.binding name defn body) state =
        some (raised, after) ∧
      after.value name = state.value name ∧
      after.value settor.other = settor.carry (state.value name) := by
  obtain ⟨raised, after, ran, inner⟩ :=
    exec_synced mirrors depth body (synced.define mirrors valid name) validBody
  refine ⟨raised, (after.carried settors name (state.value name)).store name (state.value name),
    ?_, Function.update_self .., ?_⟩
  · rw [exec, varpush, callsettor_eq mirrors synced.shown]
    simp only [Option.map_some, Option.bind_some, ran, carried_value mirrors]
    rw [varpop, callsettor_eq mirrors inner.shown]
    rfl
  · rw [State.carried, found]
    exact (Function.update_of_ne (mirrors.back found).1.symm ..).trans (Function.update_self ..)

end

/-! ### The settors of `initial.es` -/

/-- Strings of C. -/
def NulFree (list : List Text) : Prop := ∀ s ∈ list, 0 ∉ s

/-- `home` and `HOME` are the same, `path` and `PATH` are so with colons between. -/
def Agree (name : Text) (list other : List Text) : Prop :=
  if name = lit "path" ∨ name = lit "PATH" then Lconv (lit ":") list = Lconv (lit ":") other
  else list = other

theorem Lconv_append {sep : Text} {list other : List Text} (nonempty : list ≠ [])
    (nonempty' : other ≠ []) :
    Lconv sep (list ++ other) = Lconv sep list ++ sep ++ Lconv sep other := by
  induction list with
  | nil => exact absurd rfl nonempty
  | cons s list ih =>
    obtain ⟨t, other, rfl⟩ := List.exists_cons_of_ne_nil nonempty'
    cases list with
    | nil =>
      rw [List.singleton_append, Lconv_cons]
      simp [Lconv]
    | cons next list =>
      rw [List.cons_append, List.cons_append, Lconv_cons, ← List.cons_append,
        ih (List.cons_ne_nil _ _), Lconv_cons]
      simp only [List.append_assoc]

theorem mem_Lconv {sep s : Text} {list : List Text} {c : UInt8} (member : s ∈ list)
    (inside : c ∈ s) : c ∈ Lconv sep list := by
  induction list with
  | nil => cases member
  | cons first list ih =>
    rw [Lconv]
    rcases List.mem_cons.mp member with rfl | member
    · exact List.mem_append_left _ (List.mem_append_left _ inside)
    · exact List.mem_append_right _ (ih member)

theorem mem_of_mem_Lconv {sep : Text} {list : List Text} {c : UInt8}
    (inside : c ∈ Lconv sep list) : c ∈ sep ∨ ∃ s ∈ list, c ∈ s := by
  induction list with
  | nil => cases inside
  | cons first list ih =>
    rw [Lconv] at inside
    rcases List.mem_append.mp inside with inside | inside
    · rcases List.mem_append.mp inside with inside | inside
      · exact .inr ⟨first, .head _, inside⟩
      · split at inside
        · cases inside
        · exact .inl inside
    · refine (ih inside).imp_right ?_
      rintro ⟨s, member, inside⟩
      exact ⟨s, .tail _ member, inside⟩

/-- Flattening puts back the colons that splitting has taken. -/
theorem Lconv_splitOnP {s : Text} (nulFree : 0 ∉ s) :
    Lconv (lit ":") (s.splitOnP (ifsTable (lit ":"))) = s := by
  induction s with
  | nil => rfl
  | cons c s ih =>
    have rest := ih fun zero => nulFree (.tail _ zero)
    have pieces := List.splitOnP_ne_nil (ifsTable (lit ":")) s
    rw [List.splitOnP_cons_eq_if_modifyHead]
    obtain ⟨piece, others, eq⟩ := List.exists_cons_of_ne_nil pieces
    rw [eq] at rest ⊢
    split
    next separates =>
      have colon : c = ':'.toUInt8 := by
        rcases Bool.or_eq_true_iff.mp separates with zero | member
        · rw [beq_iff_eq.mp zero] at nulFree
          exact absurd (.head _) nulFree
        · exact List.mem_singleton.mp (List.contains_iff_mem.mp member)
      rw [Lconv_cons, rest, colon]
      rfl
    next plain =>
      rw [List.modifyHead_cons]
      rw [Lconv] at rest ⊢
      rw [List.cons_append, List.cons_append, rest]

/-- So it does with several strings. -/
theorem Lconv_flatMap {list : List Text} (nulFree : NulFree list) :
    Lconv (lit ":") (list.flatMap fun s => s.splitOnP (ifsTable (lit ":"))) =
      Lconv (lit ":") list := by
  induction list with
  | nil => rfl
  | cons s list ih =>
    have first := Lconv_splitOnP (nulFree s (.head _))
    have rest := ih fun t member => nulFree t (.tail _ member)
    rw [List.flatMap_cons]
    cases list with
    | nil =>
      rw [List.flatMap_nil, List.append_nil, first]
      simp [Lconv]
    | cons next list =>
      have nonempty : ((next :: list).flatMap fun s => s.splitOnP (ifsTable (lit ":"))) ≠ [] := by
        rw [List.flatMap_cons]
        exact List.append_ne_nil_of_left_ne_nil (List.splitOnP_ne_nil _ next) _
      rw [Lconv_append (List.splitOnP_ne_nil _ s) nonempty, first, rest, Lconv_cons]

/-- The flattened list of `set-path`, and the pieces of `set-PATH`. -/
def flattened (list : List Text) : List Text := [Lconv (lit ":") list]

def pieces (list : List Text) : List Text :=
  list.flatMap fun s => s.splitOnP (ifsTable (lit ":"))

theorem initial_cases {name : Text} {settor : Settor} (found : initial name = some settor) :
    name = lit "home" ∧ settor = ⟨lit "HOME", id⟩ ∨
      name = lit "HOME" ∧ settor = ⟨lit "home", id⟩ ∨
      name = lit "path" ∧ settor = ⟨lit "PATH", flattened⟩ ∨
      name = lit "PATH" ∧ settor = ⟨lit "path", pieces⟩ := by
  have split : (fun list => ((primFsplit Split.initial (lit ":" :: list)).toOption).getD []) =
      pieces := funext fun list => fsplit_pieces (lit ":") (by decide) list Split.initial
  unfold initial at found
  split_ifs at found with home HOME path PATH
  · exact .inl ⟨home, (Option.some.inj found).symm⟩
  · exact .inr (.inl ⟨HOME, (Option.some.inj found).symm⟩)
  · exact .inr (.inr (.inl ⟨path, (Option.some.inj found).symm⟩))
  · rw [split] at found
    exact .inr (.inr (.inr ⟨PATH, (Option.some.inj found).symm⟩))

theorem initial_mirrors : Mirrors initial NulFree Agree where
  back found := by
    rcases initial_cases found with ⟨rfl, rfl⟩ | ⟨rfl, rfl⟩ | ⟨rfl, rfl⟩ | ⟨rfl, rfl⟩
    · exact ⟨by decide, _, rfl, rfl⟩
    · exact ⟨by decide, _, rfl, rfl⟩
    · exact ⟨by decide, _, rfl, rfl⟩
    · exact ⟨by decide, _, rfl, rfl⟩
  keeps {name settor list} found nulFree := by
    rcases initial_cases found with ⟨rfl, rfl⟩ | ⟨rfl, rfl⟩ | ⟨rfl, rfl⟩ | ⟨rfl, rfl⟩
    · exact nulFree
    · exact nulFree
    · intro s member zero
      rw [List.mem_singleton.mp member] at zero
      rcases mem_of_mem_Lconv zero with zero | ⟨s, member, zero⟩
      · exact absurd zero (by decide)
      · exact nulFree s member zero
    · intro piece member zero
      obtain ⟨s, listed, member⟩ := List.mem_flatMap.mp member
      have inside : 0 ∈ Lconv (lit ":") (s.splitOnP (ifsTable (lit ":"))) := mem_Lconv member zero
      rw [Lconv_splitOnP (nulFree s listed)] at inside
      exact nulFree s listed inside
  carries {name settor list} found nulFree := by
    rcases initial_cases found with ⟨rfl, rfl⟩ | ⟨rfl, rfl⟩ | ⟨rfl, rfl⟩ | ⟨rfl, rfl⟩
    · exact rfl
    · exact rfl
    · rw [Agree, if_pos (.inl rfl)]
      simp [flattened, Lconv]
    · rw [Agree, if_pos (.inr rfl)]
      exact (Lconv_flatMap nulFree).symm
  symm {name settor list other} found agree := by
    rcases initial_cases found with ⟨rfl, rfl⟩ | ⟨rfl, rfl⟩ | ⟨rfl, rfl⟩ | ⟨rfl, rfl⟩
    · exact Eq.symm agree
    · exact Eq.symm agree
    · exact Eq.symm agree
    · exact Eq.symm agree

/-- No settor is hidden, and what is the same under two names is so. -/
structure Agreed (state : State) : Prop where
  shown : ∀ name, state.hidden name = false
  nulFree : ∀ name, NulFree (state.value name)
  home : state.value (lit "home") = state.value (lit "HOME")
  path : Lconv (lit ":") (state.value (lit "path")) = Lconv (lit ":") (state.value (lit "PATH"))

theorem agreed_iff {state : State} : Agreed state ↔ Synced initial NulFree Agree state := by
  constructor
  · intro agreed
    refine ⟨agreed.shown, agreed.nulFree, fun name settor found => ?_⟩
    rcases initial_cases found with ⟨rfl, rfl⟩ | ⟨rfl, rfl⟩ | ⟨rfl, rfl⟩ | ⟨rfl, rfl⟩
    · exact agreed.home
    · exact agreed.home.symm
    · exact agreed.path
    · exact agreed.path.symm
  · intro synced
    exact ⟨synced.shown, synced.plain, synced.agree (lit "home") _ rfl,
      synced.agree (lit "path") _ rfl⟩

/-- Nothing is set. -/
def unset : State := ⟨fun _ => [], fun _ => false⟩

theorem Agreed.unset : Agreed unset := ⟨fun _ => rfl, fun _ _ => nofun, rfl, rfl⟩

/-- `PATH = /bin:/usr/bin; local (path = /opt) throw error`. -/
def shortened : Activity :=
  .andThen (.assign (lit "PATH") [lit "/bin:/usr/bin"])
    (.binding (lit "path") [lit "/opt"] .raise)

theorem shortened_plain : shortened.Plain NulFree := by
  refine ⟨?_, ?_, trivial⟩
  · intro s member
    rw [List.mem_singleton.mp member]
    decide
  · intro s member
    rw [List.mem_singleton.mp member]
    decide

end Alias

end Desh
