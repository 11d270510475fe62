/-
This file proves that an assignment, `let`, `local` and the parameters of a
lambda pair names with values in the same way: one value each in order, the last
name takes what is left, and a name without a value gets the empty list. Where
several groups of bindings repeat a name, the last group counts.

A `local` binds dynamic variables, so a lexical binding around it hides what it
binds. The names of a form have no settors here.
-/

import Desh.Bindings
import Desh.Evaluating

namespace Desh

/-! ### Names and values -/

/-- What the variable `j` gets of a list of values. -/
def paired (names : List Text) (values : List TermRef) (j : Nat) : List TermRef :=
  if j + 1 = names.length then values.drop j else (values.drop j).take 1

/-- The names of a form, with what each of them gets. -/
def pairs (names : List Text) (values : List TermRef) : List (Text × List TermRef) :=
  names.zipIdx.map fun (name, j) => (name, paired names values j)

theorem map_fst_pairs (names : List Text) (values : List TermRef) :
    (pairs names values).map Prod.fst = names := by
  rw [pairs, List.map_map]
  exact List.zipIdx_map_fst 0 names

theorem getElem?_pairs (names : List Text) (values : List TermRef) (j : Nat) :
    (pairs names values)[j]? = names[j]?.map fun name => (name, paired names values j) := by
  rw [pairs, List.getElem?_map, List.getElem?_zipIdx, Option.map_map, Nat.zero_add]
  rfl

/-- The three loops share out the values as they go. -/
theorem pairs_cons (name : Text) (names : List Text) (values : List TermRef) :
    pairs (name :: names) values =
      (name, (Forms.nextValue names.isEmpty values).1) ::
        pairs names (Forms.nextValue names.isEmpty values).2 := by
  have later : ∀ j, paired (name :: names) values (j + 1) = paired names (values.drop 1) j := by
    intro j
    rw [paired, paired, List.drop_drop, List.length_cons, Nat.add_comm 1 j]
    simp only [Nat.add_right_cancel_iff]
  have rest : pairs (name :: names) values =
      (name, paired (name :: names) values 0) :: pairs names (values.drop 1) := by
    rw [pairs, List.zipIdx_cons, List.zipIdx_succ, List.map_cons, List.map_map, pairs]
    simp only [Function.comp_def, later]
  rw [rest]
  cases names with
  | nil => cases values <;> rfl
  | cons other names =>
    rcases values with _ | ⟨value, _ | ⟨value', values⟩⟩
    · rfl
    · rfl
    · rfl

/-! ### Where a name is looked up -/

theorem Shell.heap_markDirty {strhash : Text → Nat} (shell : Shell strhash) (name : Text) :
    (shell.markDirty name).heap = shell.heap := by
  rw [Shell.markDirty]
  split_ifs <;> rfl

theorem Shell.heap_define {strhash : Text → Nat} (shell : Shell strhash) (name : Text)
    (defn : List TermRef) : (shell.define name defn).heap = shell.heap := by
  unfold Shell.define
  dsimp only
  split <;> exact shell.heap_markDirty name

theorem Shell.get_define {strhash : Text → Nat} (shell : Shell strhash) (name other : Text)
    (defn : List TermRef) :
    ((shell.define name defn).vars.get other).map Var.defn =
      if other = name then (if defn = [] then none else some defn)
      else (shell.vars.get other).map Var.defn := by
  have vars : (shell.markDirty name).vars = shell.vars := by
    rw [Shell.markDirty]
    split_ifs <;> rfl
  unfold Shell.define
  dsimp only
  rw [vars]
  cases known : shell.vars.get name <;> cases defn <;> by_cases same : other = name <;>
    simp [Dictionary.get_put, same, known, vars, Shell.mkvar]

namespace Control

variable {strhash : Text → Nat} {World : Type}

/-- What is in scope. -/
def scope (control : Control strhash World) (binding : List BindingRef) : Desh.Scope TermRef where
  bindings := binding.filterMap fun b =>
    control.shell.heap.bindings[b]?.map fun cell => (cell.name, cell.defn)
  vars := fun name => (control.shell.vars.get name).map Var.defn

/-- `varlookup`. -/
def varlookup (control : Control strhash World) (binding : List BindingRef) (name : Text) :
    Except Failure (List TermRef) :=
  (control.scope binding).varlookup name

theorem varlookup_valid (control : Control strhash World) (binding : List BindingRef) {name : Text}
    (valid : validatevar name = .ok ()) :
    control.varlookup binding name = .ok ((control.scope binding).named name) := by
  have plain : ¬ iscounting name = true := by
    intro counts
    rw [validatevar, if_pos counts] at valid
    split_ifs at valid
  rw [varlookup, Desh.Scope.varlookup, if_neg plain, valid]
  rfl

end Control

/-! ### Groups of bindings -/

/-- The names of a form are names of variables, and they are distinct. -/
structure Variables (names : List Text) : Prop where
  distinct : names.Nodup
  valid : ∀ name ∈ names, validatevar name = .ok ()

theorem Variables.tail {name : Text} {names : List Text} (variables' : Variables (name :: names)) :
    Variables names :=
  ⟨(List.nodup_cons.mp variables'.distinct).2,
    fun other member => variables'.valid other (List.mem_cons_of_mem _ member)⟩

/-- A group of bindings, evaluated. -/
structure Group where
  names : List Text
  values : List TermRef

/-- The bindings of some groups, in the order they are made. -/
def groupPairs (groups : List Group) : List (Text × List TermRef) :=
  groups.flatMap fun group => pairs group.names group.values

/-- Each name of a group that no later group names stands for the values the group pairs it
with, unless it is hidden. -/
def LastCounts (groups : List Group) (hidden : Text → Prop)
    (look : Text → Except Failure (List TermRef)) : Prop :=
  ∀ front group back, groups = front ++ group :: back →
    ∀ j name, group.names[j]? = some name → (∀ later ∈ back, name ∉ later.names) →
      ¬hidden name → look name = .ok (paired group.names group.values j)

theorem lastCounts_singleton {group : Group} {hidden : Text → Prop}
    {look : Text → Except Failure (List TermRef)}
    (each : ∀ j name, group.names[j]? = some name → ¬hidden name →
      look name = .ok (paired group.names group.values j)) :
    LastCounts [group] hidden look := by
  intro front other back split j name isName _ seen
  cases front with
  | nil =>
    obtain rfl := (List.cons.inj split).1
    exact each j name isName seen
  | cons first front =>
    have more := congrArg List.length (List.cons.inj split).2
    simp at more

theorem find?_pairs {group : Group} (distinct : group.names.Nodup) {j : Nat} {name : Text}
    (isName : group.names[j]? = some name) :
    (pairs group.names group.values).reverse.find? (fun (bound, _) => bound == name) =
      some (name, paired group.names group.values j) := by
  have keys := distinct
  rw [← map_fst_pairs group.names group.values] at keys
  have entry : (name, paired group.names group.values j) ∈
      (pairs group.names group.values).reverse := by
    rw [List.mem_reverse]
    refine List.mem_of_getElem? (i := j) ?_
    rw [getElem?_pairs, isName]
    rfl
  have isSome : ((pairs group.names group.values).reverse.find?
      fun (bound, _) => bound == name).isSome :=
    List.find?_isSome.mpr ⟨_, entry, beq_self_eq_true name⟩
  obtain ⟨found, isFound⟩ := Option.isSome_iff_exists.mp isSome
  have same : (found.1 == name) = true := by
    have holds := List.find?_some isFound
    exact holds
  rw [beq_iff_eq] at same
  have member := List.mem_of_find?_eq_some isFound
  rw [isFound]
  refine congrArg some ?_
  exact List.inj_on_of_nodup_map keys (List.mem_reverse.mp member) (List.mem_reverse.mp entry) same

theorem find?_groupPairs {front back : List Group} {group : Group}
    (distinct : group.names.Nodup) {j : Nat} {name : Text}
    (isName : group.names[j]? = some name) (last : ∀ later ∈ back, name ∉ later.names) :
    (groupPairs (front ++ group :: back)).reverse.find? (fun (bound, _) => bound == name) =
      some (name, paired group.names group.values j) := by
  have passed : (groupPairs back).reverse.find? (fun (bound, _) => bound == name) = none := by
    rw [List.find?_eq_none]
    rintro ⟨bound, defn⟩ member same
    obtain ⟨later, isLater, inside⟩ := List.mem_flatMap.mp (List.mem_reverse.mp member)
    obtain rfl : bound = name := beq_iff_eq.mp same
    have key := List.mem_map_of_mem (f := Prod.fst) inside
    rw [map_fst_pairs] at key
    exact last later isLater key
  rw [groupPairs, List.flatMap_append, List.flatMap_cons, List.reverse_append, List.reverse_append,
    List.find?_append, List.find?_append, find?_pairs distinct isName]
  rw [groupPairs] at passed
  rw [passed]
  rfl

/-! ### The loops -/

namespace Forms

open Routine

variable {strhash : Text → Nat} {File Outside : Type} (forms : Forms strhash File Outside)

/-- The terms are strings, which print as these names whatever bindings hold. -/
def Spells (heap : Heap) (vars : List TermRef) (names : List Text) : Prop :=
  ∀ bindings, vars.map (forms.system.getstr ⟨heap.terms, bindings⟩) = names

variable {forms} {control : Control strhash (Machine File Outside)} {vars : List TermRef}

theorem Spells.nil {heap : Heap} {names : List Text} (spells : forms.Spells heap [] names) :
    names = [] := (spells []).symm

theorem Spells.cons {heap : Heap} {var : TermRef} {names : List Text}
    (spells : forms.Spells heap (var :: vars) names) :
    ∃ name rest, names = name :: rest ∧
      (∀ bindings, forms.system.getstr ⟨heap.terms, bindings⟩ var = name) ∧
      forms.Spells heap vars rest := by
  cases names with
  | nil => cases spells []
  | cons name rest =>
    exact ⟨name, rest, rfl, fun bindings => (List.cons.inj (spells bindings)).1,
      fun bindings => (List.cons.inj (spells bindings)).2⟩

theorem isEmpty_of_spells {heap : Heap} {names : List Text}
    (spells : forms.Spells heap vars names) : vars.isEmpty = names.isEmpty := by
  rw [← spells [], List.isEmpty_map]

theorem mkbinding_valid {α : Type} {name : Text} (valid : validatevar name = .ok ()) (defn : α)
    (next : List (Text × α)) :
    mkbinding name defn next control = .ret ((name, defn) :: next) control := by
  rw [mkbinding, Control.validated, valid]

theorem letLoop_pairs {names : List Text} (spells : forms.Spells control.shell.heap vars names)
    (valid : ∀ name ∈ names, validatevar name = .ok ()) (values : List TermRef)
    (binding : List (Text × List TermRef)) :
    forms.letLoop vars values binding control =
      .ret ((pairs names values).reverse ++ binding) control := by
  induction vars generalizing names values binding with
  | nil =>
    obtain rfl := spells.nil
    rfl
  | cons var vars ih =>
    obtain ⟨name, rest, rfl, here, spells⟩ := spells.cons
    rw [letLoop, bind_ret (show getstr forms.system var control = .ret name control from
        congrArg (Outcome.ret · control) (here control.shell.heap.bindings)),
      bind_ret (mkbinding_valid (valid name List.mem_cons_self) _ _), isEmpty_of_spells spells,
      ih spells fun other member => valid other (List.mem_cons_of_mem _ member), pairs_cons,
      List.reverse_cons, List.append_assoc]
    rfl

/-- Evaluating the groups of a `let` or a `local`. -/
inductive Evaluates (forms : Forms strhash File Outside) (context : List BindingRef) :
    Tree → Control strhash (Machine File Outside) → List Group →
      Control strhash (Machine File Outside) → Prop where
  | null (final : Control strhash (Machine File Outside)) :
      Evaluates forms context .null final [] final
  | skip {defn control groups after} (rest : Evaluates forms context defn control groups after) :
      Evaluates forms context (.nList .null defn) control groups after
  | group {p q defn control vars named values valued names groups after}
      (left : forms.glom p context false control = .ret vars named)
      (right : forms.glom q context true named = .ret values valued)
      (spells : forms.Spells valued.shell.heap vars names) (nonempty : names ≠ [])
      (rest : Evaluates forms context defn valued groups after) :
      Evaluates forms context (.nList (.nAssign p q) defn) control (⟨names, values⟩ :: groups) after

theorem letbindings_pairs {context : List BindingRef} {defn : Tree} {groups : List Group}
    {after : Control strhash (Machine File Outside)}
    (evaluates : Evaluates forms context defn control groups after)
    (valid : ∀ group ∈ groups, ∀ name ∈ group.names, validatevar name = .ok ())
    (binding : List (Text × List TermRef)) :
    forms.letbindings context defn binding control =
      .ret ((groupPairs groups).reverse ++ binding) after := by
  induction evaluates generalizing binding with
  | null control => rfl
  | skip rest ih => exact ih valid binding
  | @group p q defn control vars named values valued names groups after left right spells nonempty
      rest ih =>
    have some' : vars.isEmpty = false := by
      rw [isEmpty_of_spells spells, List.isEmpty_eq_false_iff]
      exact nonempty
    rw [letbindings, bind_ret left, bind_ret right, some', if_neg Bool.false_ne_true,
      bind_ret (letLoop_pairs spells (valid _ List.mem_cons_self) values binding),
      ih (fun group member => valid group (List.mem_cons_of_mem _ member)), groupPairs, groupPairs,
      List.flatMap_cons, List.reverse_append, List.append_assoc]

theorem filterMap_range' {α β : Type} (f : α → β) (old new : List α) :
    (List.range' old.length new.length).filterMap (fun b => (old ++ new)[b]?.map f) =
      new.map f := by
  induction new generalizing old with
  | nil => rfl
  | cons first new ih =>
    have onward := ih (old ++ [first])
    rw [List.length_append, List.length_singleton, List.append_assoc, List.singleton_append]
      at onward
    rw [List.length_cons, List.range'_succ, List.filterMap_cons, onward,
      List.getElem?_append_right le_rfl, Nat.sub_self, List.getElem?_cons_zero, List.map_cons]
    rfl

/-- The cells made for a chain are in front of those around them. -/
theorem publish_scope (chain : List (Text × List TermRef)) (outer : List BindingRef)
    (control : Control strhash (Machine File Outside)) :
    ∃ binding after rest, publish chain outer control = .ret binding after ∧
      (after.scope binding).bindings = chain ++ rest := by
  have made := filterMap_range' (fun cell : Binding => (cell.name, cell.defn))
    control.shell.heap.bindings (chain.reverse.map fun (name, defn) => ⟨name, defn⟩)
  rw [List.length_map, List.length_reverse, List.map_map] at made
  obtain ⟨after, published⟩ : ∃ after, publish chain outer control =
      .ret ((List.range' control.shell.heap.bindings.length chain.length).reverse ++ outer) after :=
    ⟨_, rfl⟩
  have cells : after.shell.heap.bindings = control.shell.heap.bindings ++
      chain.reverse.map fun (name, defn) => ⟨name, defn⟩ := by
    cases published
    rfl
  refine ⟨_, after, outer.filterMap fun b =>
    after.shell.heap.bindings[b]?.map fun cell => (cell.name, cell.defn), published, ?_⟩
  rw [Control.scope, List.filterMap_append, List.filterMap_reverse, cells, made]
  refine congrArg (· ++ _) ?_
  rw [← List.map_reverse, List.reverse_reverse]
  exact List.map_id _

theorem named_chain {control : Control strhash (Machine File Outside)} {binding : List BindingRef}
    {chain rest : List (Text × List TermRef)} {name : Text} {defn : List TermRef}
    (bindings : (control.scope binding).bindings = chain ++ rest)
    (first : chain.find? (fun (bound, _) => bound == name) = some (name, defn)) :
    (control.scope binding).named name = defn := by
  rw [Scope.named, bindings, List.find?_append, first]
  rfl

/-- What the code sees that gets a chain. -/
theorem publish_lastCounts (groups : List Group)
    (variables' : ∀ group ∈ groups, Variables group.names) (outer : List BindingRef)
    (control : Control strhash (Machine File Outside)) :
    ∃ binding after, publish (groupPairs groups).reverse outer control = .ret binding after ∧
      LastCounts groups (fun _ => False) (after.varlookup binding) := by
  obtain ⟨binding, after, rest, made, bindings⟩ :=
    publish_scope (groupPairs groups).reverse outer control
  refine ⟨binding, after, made, ?_⟩
  rintro front group back rfl j name isName last -
  have known := variables' group (List.mem_append_right _ List.mem_cons_self)
  rw [after.varlookup_valid binding (known.valid name (List.mem_of_getElem? isName)),
    named_chain bindings (find?_groupPairs known.distinct isName last)]

/-! ### Variables without settors -/

/-- No name has a settor, and none is the settor of another. -/
def NoSettors (control : Control strhash (Machine File Outside)) (names : List Text) : Prop :=
  ∀ name ∈ names, control.varlookup2 (lit "set-") name = [] ∧ lit "set-" ++ name ∉ names

theorem callsettor_none {commands : Evaluator strhash (Machine File Outside)} {name : Text}
    (none' : control.varlookup2 (lit "set-") name = []) (defn : List TermRef) :
    Control.callsettor commands name defn control = .ret defn control := by
  rw [Control.callsettor]
  split_ifs
  · rfl
  · rw [none']

theorem varlookup2_eq (control : Control strhash (Machine File Outside)) (name1 name2 : Text) :
    control.varlookup2 name1 name2 =
      ((control.shell.vars.get (name1 ++ name2)).map Var.defn).getD [] := by
  rw [Control.varlookup2]
  cases control.shell.vars.get (name1 ++ name2) <;> rfl

variable (forms) in
/-- `varpush` defines its variable and nothing else. -/
theorem varpush_defines {name : Text}
    (valid : validatevar name = .ok ()) (none' : control.varlookup2 (lit "set-") name = [])
    (defn : List TermRef) :
    ∃ after, forms.varpush name defn control = .ret () after ∧
      after.shell.heap = control.shell.heap ∧
      ∀ other, (after.shell.vars.get other).map Var.defn =
        if other = name then some defn else (control.shell.vars.get other).map Var.defn := by
  have vars : (control.linkName.markDirty name).shell.vars = control.shell.vars :=
    Control.vars_markDirty control.linkName name
  have heap : (control.linkName.markDirty name).shell.heap = control.shell.heap :=
    Shell.heap_markDirty control.shell name
  have called : (control.linkName.markDirty name).varlookup2 (lit "set-") name = [] := by
    rw [varlookup2_eq, vars, ← varlookup2_eq, none']
  refine ⟨(control.linkName.markDirty name).varpushEnd name defn control.rootlist, ?_, ?_,
    fun other => ?_⟩
  · rw [varpush, Control.varpush, Control.varpushWith, Control.validated, valid,
      callsettor_none called]
  · rw [Control.varpushEnd, Shell.varpushEnd, vars]
    cases control.shell.vars.get name <;> exact heap
  · rw [Control.varpushEnd, Shell.varpushEnd, vars]
    cases control.shell.vars.get name <;>
      simp only [Dictionary.get_put] <;> split_ifs <;> rfl

/-- Routines that do the same up to some point go on alike. -/
theorem bind_eq {α β : Type} {first second : Routine strhash File Outside α}
    {other : Control strhash (Machine File Outside)} (same : first control = second other)
    (next : α → Routine strhash File Outside β) :
    (first >>= next) control = (second >>= next) other := by
  simp only [Bind.bind]
  rw [same]

variable (forms) in
/-- What `localbind` does after its body. -/
def popLocals : Nat → Routine strhash File Outside Unit
  | 0 => pure ()
  | n + 1 => do
      popLocals n
      forms.varpop

/-- The body of a `local` runs with the last definitions that have been pushed. -/
theorem localbind_enters (lexical : List BindingRef) (body : Tree) (flags : EvalFlags)
    (dynamic : List (Text × List TermRef)) {names : List Text}
    (inside : ∀ entry ∈ dynamic, entry.1 ∈ names)
    (valid : ∀ name ∈ names, validatevar name = .ok ()) (settorless : NoSettors control names) :
    ∃ entered : Control strhash (Machine File Outside),
      forms.localbind lexical body flags dynamic control =
        (do
          let result ← forms.walk body lexical flags
          forms.popLocals dynamic.length
          pure result : Routine strhash File Outside _) entered ∧
      entered.shell.heap = control.shell.heap ∧
      ∀ name, (entered.shell.vars.get name).map Var.defn =
        ((dynamic.reverse.find? fun (bound, _) => bound == name).map Prod.snd).or
          ((control.shell.vars.get name).map Var.defn) := by
  induction dynamic generalizing control with
  | nil =>
    refine ⟨control, ?_, rfl, fun name => rfl⟩
    show forms.walk body lexical flags control = _
    simp only [List.length_nil, popLocals, Bind.bind, Pure.pure]
    cases forms.walk body lexical flags control <;> rfl
  | cons entry dynamic ih =>
    obtain ⟨name, defn⟩ := entry
    have isName := inside _ List.mem_cons_self
    obtain ⟨pushed, push, heap, vars⟩ := varpush_defines forms (valid name isName)
      (settorless name isName).1 defn
    have still : NoSettors pushed names := by
      intro other member
      have apart : lit "set-" ++ other ≠ name := fun same =>
        (settorless other member).2 (same ▸ isName)
      refine ⟨?_, (settorless other member).2⟩
      rw [varlookup2_eq, vars, if_neg apart, ← varlookup2_eq, (settorless other member).1]
    obtain ⟨entered, run, heap', vars'⟩ :=
      ih (fun entry member => inside entry (List.mem_cons_of_mem _ member)) still
    refine ⟨entered, ?_, heap'.trans heap, fun other => ?_⟩
    · rw [localbind, bind_ret push, bind_eq run]
      simp only [bind_assoc, pure_bind, List.length_cons, popLocals]
    · rw [vars', vars, List.reverse_cons, List.find?_append, Option.map_or, Option.or_assoc,
        List.find?_singleton]
      refine congrArg _ ?_
      by_cases same : other = name
      · rw [if_pos same, if_pos (beq_iff_eq.mpr same.symm)]
        rfl
      · rw [if_neg same, if_neg (fun equal => same (beq_iff_eq.mp equal).symm)]
        rfl

/-! ### Assignments -/

/-- The first binding of a name decides, and else its variable. -/
theorem named_eq (control : Control strhash (Machine File Outside)) (binding : List BindingRef)
    (name : Text) :
    (control.scope binding).named name =
      match control.shell.lookup name binding with
      | some b => ((control.shell.heap.bindings[b]?).map Binding.defn).getD []
      | none => ((control.shell.vars.get name).map Var.defn).getD [] := by
  unfold Scope.named Shell.lookup Control.scope
  dsimp only
  induction binding with
  | nil => rfl
  | cons b binding ih =>
    rw [List.filterMap_cons, List.find?_cons]
    cases found : control.shell.heap.bindings[b]? with
    | none => exact ih
    | some cell =>
      dsimp only [Option.map_some, Option.any_some]
      rw [List.find?_cons]
      cases same : cell.name == name with
      | true =>
        dsimp only
        rw [found]
        rfl
      | false => exact ih

theorem lookup_name {shell : Shell strhash} {name : Text} {binding : List BindingRef}
    {b : BindingRef} (found : shell.lookup name binding = some b) :
    ∃ cell, shell.heap.bindings[b]? = some cell ∧ cell.name = name := by
  have holds := List.find?_some found
  obtain ⟨cell, isCell, same⟩ := (Option.any_eq_true _ _).mp holds
  exact ⟨cell, isCell, beq_iff_eq.mp same⟩

/-- Assigning to a binding changes no names. -/
theorem lookup_rebind (shell : Shell strhash) (b : BindingRef) (defn : List TermRef) (name : Text)
    (binding : List BindingRef) :
    (shell.rebind b defn).lookup name binding = shell.lookup name binding := by
  unfold Shell.lookup
  refine congrArg (List.find? · binding) (funext fun other => ?_)
  show ((shell.heap.bindings.modify b fun cell => { cell with defn })[other]?).any _ = _
  rw [List.getElem?_modify]
  cases shell.heap.bindings[other]? with
  | none => rfl
  | some cell =>
    rw [Option.map_eq_map, Option.map_some, Option.any_some, Option.any_some]
    split_ifs <;> rfl

variable (forms) in
/-- `vardef` gives the name its value and leaves the others theirs. -/
theorem vardef_names {name : Text} (valid : validatevar name = .ok ())
    (none' : control.varlookup2 (lit "set-") name = []) (binding : List BindingRef)
    (defn : List TermRef) :
    ∃ after, forms.vardef name binding defn control = .ret () after ∧
      after.shell.heap.terms = control.shell.heap.terms ∧
      (∀ other, lit "set-" ++ other ≠ name →
        after.varlookup2 (lit "set-") other = control.varlookup2 (lit "set-") other) ∧
      ∀ other, (after.scope binding).named other =
        if other = name then defn else (control.scope binding).named other := by
  cases found : control.shell.lookup name binding with
  | some b =>
    obtain ⟨cell, isCell, isName⟩ := lookup_name found
    refine ⟨{ control with shell := control.shell.rebind b defn }, ?_, rfl, fun _ _ => rfl,
      fun other => ?_⟩
    · rw [vardef, Control.validated, valid, found]
    · have cells : ∀ b', (control.shell.rebind b defn).heap.bindings[b']? =
          control.shell.heap.bindings[b']?.map fun cell =>
            if b = b' then { cell with defn } else cell := fun b' => List.getElem?_modify ..
      rw [named_eq, named_eq, lookup_rebind]
      by_cases same : other = name
      · rw [if_pos same, same, found]
        dsimp only
        rw [cells, isCell, Option.map_some, if_pos rfl]
        rfl
      · rw [if_neg same]
        cases found' : control.shell.lookup other binding with
        | none => rfl
        | some b' =>
          obtain ⟨cell', isCell', isName'⟩ := lookup_name found'
          have apart : b ≠ b' := by
            rintro rfl
            cases isCell.symm.trans isCell'
            exact same (isName'.symm.trans isName)
          dsimp only
          rw [cells, isCell', Option.map_some, if_neg apart]
  | none =>
    refine ⟨{ control with shell := control.shell.define name defn }, ?_, ?_, fun other apart => ?_,
      fun other => ?_⟩
    · rw [vardef, Control.validated, valid, found]
      dsimp only
      rw [Control.vardef, Control.validated, valid, callsettor_none none']
    · exact congrArg Heap.terms (Shell.heap_define ..)
    · rw [varlookup2_eq, varlookup2_eq, Shell.get_define, if_neg apart]
    · have lookup : ∀ other, (control.shell.define name defn).lookup other binding =
          control.shell.lookup other binding := by
        intro other
        rw [Shell.lookup, Shell.heap_define]
        rfl
      rw [named_eq, named_eq, lookup, Shell.heap_define, Shell.get_define]
      by_cases same : other = name
      · rw [same, found, if_pos rfl, if_pos rfl]
        cases defn <;> rfl
      · rw [if_neg same, if_neg same]

theorem assignLoop_pairs {names : List Text} (spells : forms.Spells control.shell.heap vars names)
    (variables' : Variables names) (settorless : NoSettors control names)
    (binding : List BindingRef) (values : List TermRef) :
    ∃ after, forms.assignLoop binding vars values control = .ret () after ∧
      (∀ other, other ∉ names →
        (after.scope binding).named other = (control.scope binding).named other) ∧
      ∀ entry ∈ pairs names values, (after.scope binding).named entry.1 = entry.2 := by
  induction vars generalizing control names values with
  | nil =>
    obtain rfl := spells.nil
    exact ⟨control, rfl, fun _ _ => rfl, nofun⟩
  | cons var vars ih =>
    obtain ⟨name, rest, rfl, here, spells'⟩ := spells.cons
    have first := settorless name List.mem_cons_self
    obtain ⟨defined, define, terms, settors, named⟩ := vardef_names forms
      (variables'.valid name List.mem_cons_self) first.1 binding
      (nextValue rest.isEmpty values).1
    have fresh := (List.nodup_cons.mp variables'.distinct).1
    have still : NoSettors defined rest := by
      intro other member
      have known := settorless other (List.mem_cons_of_mem _ member)
      refine ⟨?_, fun inside => known.2 (List.mem_cons_of_mem _ inside)⟩
      rw [settors other fun same => known.2 (same ▸ List.mem_cons_self), known.1]
    have spelled : forms.Spells defined.shell.heap vars rest := by
      unfold Spells
      rw [terms]
      exact spells'
    obtain ⟨after, run, others, given⟩ :=
      ih spelled variables'.tail still (nextValue rest.isEmpty values).2
    refine ⟨after, ?_, fun other absent => ?_, fun entry member => ?_⟩
    · rw [assignLoop, bind_ret (show getstr forms.system var control = .ret name control from
        congrArg (Outcome.ret · control) (here control.shell.heap.bindings)),
        isEmpty_of_spells spells', bind_ret define, run]
    · rw [List.mem_cons, not_or] at absent
      rw [others other absent.2, named, if_neg absent.1]
    · rw [pairs_cons, List.mem_cons] at member
      rcases member with rfl | member
      · rw [others name fresh, named, if_pos rfl]
      · exact given entry member

/-! ### Parameters -/

/-- The parameters of a lambda, as the grammar writes them. -/
inductive Params : Tree → List Text → Prop where
  | null : Params .null []
  | word {params names} (s : Text) (rest : Params params names) :
      Params (.nList (.nWord s) params) (s :: names)
  | qword {params names} (s : Text) (rest : Params params names) :
      Params (.nList (.nQword s) params) (s :: names)

theorem Params.null_iff {params : Tree} {names : List Text} (isParams : Params params names) :
    (params == .null) = names.isEmpty := by
  cases isParams <;> rfl

theorem bindargsLoop_pairs {params : Tree} {names : List Text} (isParams : Params params names)
    (valid : ∀ name ∈ names, validatevar name = .ok ()) (args : List TermRef)
    (binding : List (Text × List TermRef)) :
    bindargsLoop params args binding control =
      .ret ((pairs names args).reverse ++ binding) control := by
  induction isParams generalizing args binding with
  | null => rfl
  | word s rest ih | qword s rest ih =>
    rw [bindargsLoop, bind_ret (mkbinding_valid (valid s List.mem_cons_self) _ _), rest.null_iff,
      ih fun other member => valid other (List.mem_cons_of_mem _ member), pairs_cons,
      List.reverse_cons, List.append_assoc]
    rfl

/-! ### The forms -/

/-- An assignment gives each name what it is paired with. -/
theorem assign_pairs {varform valueform : Tree} {binding : List BindingRef}
    {named valued : Control strhash (Machine File Outside)} {values : List TermRef}
    {names : List Text} (left : forms.glom varform binding false control = .ret vars named)
    (right : forms.glom valueform binding true named = .ret values valued)
    (spells : forms.Spells valued.shell.heap vars names) (nonempty : names ≠ [])
    (variables' : Variables names) (settorless : NoSettors valued names) :
    ∃ after, forms.assign varform valueform binding control = .ret values after ∧
      LastCounts [⟨names, values⟩] (fun _ => False) (after.varlookup binding) := by
  obtain ⟨after, run, -, given⟩ := assignLoop_pairs spells variables' settorless binding values
  have some' : vars.isEmpty = false := by
    rw [isEmpty_of_spells spells, List.isEmpty_eq_false_iff]
    exact nonempty
  refine ⟨after, ?_, ?_⟩
  · rw [assign, bind_ret left, some', if_neg Bool.false_ne_true, bind_ret right, bind_ret run]
    rfl
  · refine lastCounts_singleton fun j name isName _ => ?_
    rw [after.varlookup_valid binding (variables'.valid name (List.mem_of_getElem? isName))]
    refine congrArg Except.ok (given (name, _) ?_)
    refine List.mem_of_getElem? (i := j) ?_
    rw [getElem?_pairs, isName]
    rfl

/-- The body of a `let` sees what the last groups give. -/
theorem walkLet_pairs {defn body : Tree} {binding : List BindingRef} {flags : EvalFlags}
    {groups : List Group} {evaluated : Control strhash (Machine File Outside)}
    (evaluates : Evaluates forms binding defn control groups evaluated)
    (variables' : ∀ group ∈ groups, Variables group.names) :
    ∃ inner entered, forms.walkLet defn body binding flags control =
        forms.top body inner flags entered ∧
      LastCounts groups (fun _ => False) (entered.varlookup inner) := by
  obtain ⟨inner, entered, published, seen⟩ := publish_lastCounts groups variables' binding evaluated
  refine ⟨inner, entered, ?_, seen⟩
  have made := letbindings_pairs evaluates (fun group member => (variables' group member).valid) []
  rw [List.append_nil] at made
  rw [walkLet, bind_ret made, bind_ret published]

/-- The body of a `local` sees what the last groups give, but for names that are bound around it. -/
theorem local_pairs {defn body : Tree} {bindings : List BindingRef} {flags : EvalFlags}
    {groups : List Group} {evaluated : Control strhash (Machine File Outside)}
    (evaluates : Evaluates forms bindings defn control groups evaluated)
    (variables' : ∀ group ∈ groups, Variables group.names)
    (settorless : NoSettors evaluated (groups.flatMap Group.names)) :
    ∃ entered, forms.«local» defn body bindings flags control =
        (do
          let result ← forms.walk body bindings flags
          forms.popLocals (groupPairs groups).length
          pure result : Routine strhash File Outside _) entered ∧
      LastCounts groups (fun name => evaluated.shell.lookup name bindings ≠ none)
        (entered.varlookup bindings) := by
  have made := letbindings_pairs evaluates (fun group member => (variables' group member).valid) []
  rw [List.append_nil] at made
  have inside : ∀ entry ∈ groupPairs groups, entry.1 ∈ groups.flatMap Group.names := by
    intro entry member
    obtain ⟨group, isGroup, isEntry⟩ := List.mem_flatMap.mp member
    have key := List.mem_map_of_mem (f := Prod.fst) isEntry
    rw [map_fst_pairs] at key
    exact List.mem_flatMap.mpr ⟨group, isGroup, key⟩
  have valid : ∀ name ∈ groups.flatMap Group.names, validatevar name = .ok () := by
    intro name member
    obtain ⟨group, isGroup, isName⟩ := List.mem_flatMap.mp member
    exact (variables' group isGroup).valid name isName
  obtain ⟨entered, run, heap, vars⟩ :=
    localbind_enters bindings body flags (groupPairs groups) inside valid settorless
  refine ⟨entered, ?_, ?_⟩
  · rw [«local», bind_ret made, reversebindings, List.reverse_reverse, run]
  · rintro front group back rfl j name isName last seen
    have known := variables' group (List.mem_append_right _ List.mem_cons_self)
    have unbound : entered.shell.lookup name bindings = none := by
      rw [Shell.lookup, heap]
      exact not_not.mp seen
    rw [entered.varlookup_valid bindings (known.valid name (List.mem_of_getElem? isName)),
      named_eq, unbound]
    dsimp only
    rw [vars, find?_groupPairs known.distinct isName last]
    rfl

/-- The body of a lambda sees its parameters with what the arguments give them. -/
theorem bindargs_pairs {params : Tree} {names : List Text} (isParams : Params params names)
    (nonempty : names ≠ []) (variables' : Variables names) (args : List TermRef)
    (context : List BindingRef) :
    ∃ inner entered, (do
        let binding ← bindargs params args
        publish binding context : Routine strhash File Outside _) control = .ret inner entered ∧
      LastCounts [⟨names, args⟩] (fun _ => False) (entered.varlookup inner) := by
  obtain ⟨inner, entered, published, seen⟩ := publish_lastCounts
    [⟨names, args⟩] (List.forall_mem_singleton.mpr variables') context control
  refine ⟨inner, entered, ?_, seen⟩
  have made : bindargsLoop params args [] control = _ :=
    bindargsLoop_pairs isParams variables'.valid args []
  have loop : bindargs params args =
      (bindargsLoop params args [] : Routine strhash File Outside _) := by
    cases isParams with
    | null => exact absurd rfl nonempty
    | word | qword => rfl
  rw [loop, bind_ret made, ← published, groupPairs, List.flatMap_singleton, List.append_nil]

/-- Words stand for the terms that spell them, and every body looks `x` up. -/
def plain : Forms List.length Unit Unit where
  commands := Evaluating.returning
  system := { Evaluating.obliging with
    getstr := fun heap t =>
      match heap.terms[t]? with
      | some (.str s) => s
      | _ => [] }
  glom := fun tree _ _ control =>
    match tree with
    | .nWord s => .ret [control.shell.heap.terms.idxOf (.str s)] control
    | _ => .ret [] control
  top := fun _ binding _ control =>
    match control.varlookup binding (lit "x") with
    | .ok list => .ret list control
    | .error _ => .abort

/-- A shell with a lexical binding of `x`. -/
def lexical : Control List.length (Machine Unit Unit) :=
  Control.bottom
    { Shell.initvars with
      heap := ⟨[.str (lit "x"), .str (lit "a"), .str (lit "b")], [⟨lit "x", [1]⟩]⟩ }
    ⟨⟨⟨[]⟩, [], 0, [], fun _ => none⟩, 0, ()⟩ [] 0

/-- `(x = b)`. -/
def single : Tree := .nList (.nAssign (.nWord (lit "x")) (.nWord (lit "b"))) .null

theorem variables_x : Variables [lit "x"] :=
  ⟨List.nodup_singleton _, fun name member => by obtain rfl := List.mem_singleton.mp member; rfl⟩

theorem noSettors_lexical : NoSettors lexical [lit "x"] := by
  intro name member
  obtain rfl := List.mem_singleton.mp member
  exact ⟨by decide +kernel, by decide⟩

theorem evaluates_single (context : List BindingRef) :
    Evaluates plain context single lexical [⟨[lit "x"], [2]⟩] lexical :=
  .group (show plain.glom (.nWord (lit "x")) context false lexical = .ret [0] lexical from rfl)
    (show plain.glom (.nWord (lit "b")) context true lexical = .ret [2] lexical from rfl)
    (fun _ => rfl) nofun (.null lexical)

end Forms

end Desh
