/-
This file proves what a `for` does: in the round `i` each variable of a binding
gets the next value of the binding's list, or none, and there are as many rounds
as the longest of the lists asks for. The code instead takes values off the
lists of a chain of cells, in which a marker stands for the list in front of it.
-/

import Desh.Bindings

namespace Desh

/-! ### The values of a round -/

/-- A binding of a `for`, evaluated: its variables, of which there is one at least, and the list
their values come from. -/
structure ForBinding where
  first : Text
  others : List Text
  list : List TermRef

namespace ForBinding

def names (binding : ForBinding) : List Text := binding.first :: binding.others

/-- What the variable `j` has in the round `i`: one value, or none at the end of the list. -/
def value (binding : ForBinding) (i j : Nat) : List TermRef :=
  (binding.list.drop (i * binding.names.length + j)).take 1

/-- How many rounds use up the list. -/
def rounds (binding : ForBinding) : Nat :=
  (binding.list.length + binding.others.length) / binding.names.length

/-- The bindings of the round `i`, in the order of the variables. -/
def bound (binding : ForBinding) (i : Nat) : List (Text × List TermRef) :=
  binding.names.zipIdx.map fun (name, j) => (name, binding.value i j)

/-- The cells `forloop` keeps for a binding when some of its values are left. -/
def cells (binding : ForBinding) (left : List TermRef) : List (Text × Option (List TermRef)) :=
  (binding.first, some left) :: binding.others.map fun name => (name, none)

/-- The values that are left before the round `i`. -/
def left (binding : ForBinding) (i : Nat) : List TermRef :=
  binding.list.drop (i * binding.names.length)

end ForBinding

/-- How many rounds use up all lists. -/
def forCount (bindings : List ForBinding) : Nat := (bindings.map ForBinding.rounds).foldr max 0

/-- The bindings of the round `i`, innermost first. -/
def forBound (bindings : List ForBinding) (i : Nat) : List (Text × List TermRef) :=
  (bindings.flatMap fun binding => binding.bound i).reverse

/-- The cells of `looping` before the round `i`. -/
def forCells (bindings : List ForBinding) (i : Nat) : List (Text × Option (List TermRef)) :=
  bindings.flatMap fun binding => binding.cells (binding.left i)

/-! ### A round -/

/-- Values given one by one. -/
theorem zipIdx_values (name : Text) (names : List Text) (left : List TermRef) :
    ((name :: names).zipIdx.map fun (name, j) => (name, (left.drop j).take 1)) =
      (name, left.take 1) ::
        names.zipIdx.map fun (name, j) => (name, ((left.drop 1).drop j).take 1) := by
  rw [List.zipIdx_cons, List.zipIdx_succ, List.map_cons, List.map_map]
  simp only [List.drop_drop, Function.comp_def, List.drop_zero, Nat.add_comm]

section

variable {before after : List (Text × Option (List TermRef))} {sequence : Option Nat}
  {bp : List (Text × List TermRef)} {allnull : Bool} {name : Text}

/-- A cell that has a list. -/
theorem step_list (left : List TermRef) :
    ForRound.step ⟨before ++ (name, some left) :: after, sequence, bp, allnull⟩ before.length =
      some ⟨before ++ (name, some (left.drop 1)) :: after, some before.length,
        (name, left.take 1) :: bp, allnull && left.isEmpty⟩ := by
  unfold ForRound.step
  dsimp only
  rw [List.getElem?_append_right le_rfl, Nat.sub_self, List.getElem?_cons_zero]
  dsimp only [Option.bind_some, Option.isSome_some]
  rw [if_pos rfl, Option.bind_some, List.getElem?_append_right le_rfl, Nat.sub_self,
    List.getElem?_cons_zero]
  cases left with
  | nil => simp
  | cons term next =>
    dsimp only
    rw [List.set_append_right _ _ le_rfl, Nat.sub_self, List.set_cons_zero]
    simp

/-- A cell with the marker, behind others that have it. -/
theorem step_multiple {owner : Text} {between : List (Text × Option (List TermRef))}
    (left : List TermRef) {lp : Nat} (here : lp = before.length + 1 + between.length) :
    ForRound.step
        ⟨before ++ (owner, some left) :: (between ++ (name, none) :: after), some before.length, bp,
          allnull⟩ lp =
      some ⟨before ++ (owner, some (left.drop 1)) :: (between ++ (name, none) :: after),
        some before.length, (name, left.take 1) :: bp, allnull && left.isEmpty⟩ := by
  have cell : (before ++ (owner, some left) :: (between ++ (name, none) :: after))[lp]? =
      some (name, none) := by
    rw [here, List.getElem?_append_right (by omega), Nat.add_assoc, Nat.add_sub_cancel_left,
      Nat.add_comm 1, List.getElem?_cons_succ, List.getElem?_append_right le_rfl, Nat.sub_self,
      List.getElem?_cons_zero]
  unfold ForRound.step
  dsimp only
  rw [cell]
  dsimp only [Option.bind_some, Option.isSome_none]
  rw [if_neg Bool.false_ne_true, Option.bind_some, List.getElem?_append_right le_rfl, Nat.sub_self,
    List.getElem?_cons_zero]
  cases left with
  | nil => simp
  | cons term next =>
    dsimp only
    rw [List.set_append_right _ _ le_rfl, Nat.sub_self, List.set_cons_zero]
    simp

/-- The cells with the marker behind a list: the variables `j` on of a binding. -/
theorem steps_multiple (before after : List (Text × Option (List TermRef))) (owner : Text)
    (left : List TermRef) (names : List Text) (between : List (Text × Option (List TermRef)))
    (bp : List (Text × List TermRef)) (allnull : Bool) :
    (List.range' (before.length + 1 + between.length) names.length).foldlM ForRound.step
        ⟨before ++ (owner, some left) :: (between ++ (names.map fun name => (name, none)) ++ after),
          some before.length, bp, allnull⟩ =
      some ⟨before ++ (owner, some (left.drop names.length)) ::
          (between ++ (names.map fun name => (name, none)) ++ after),
        some before.length,
        ((names.zipIdx.map fun (name, j) => (name, (left.drop j).take 1)).reverse ++ bp),
        allnull && (names.isEmpty || left.isEmpty)⟩ := by
  induction names generalizing left between bp allnull with
  | nil => simp
  | cons name names ih =>
    have shift : between ++ ((name :: names).map fun name => (name, none)) ++ after =
        between ++ (name, none) :: ((names.map fun name => (name, none)) ++ after) := by
      rw [List.map_cons, List.append_assoc, List.cons_append]
    have regroup : between ++ (name, none) :: ((names.map fun name => (name, none)) ++ after) =
        between ++ [(name, none)] ++ (names.map fun name => (name, none)) ++ after := by
      simp
    rw [List.length_cons, List.range'_succ, List.foldlM_cons, shift, step_multiple left rfl]
    have onward := ih (left.drop 1) (between ++ [(name, none)]) ((name, left.take 1) :: bp)
      (allnull && left.isEmpty)
    rw [List.length_append, List.length_singleton, ← Nat.add_assoc] at onward
    rw [regroup]
    have none_left : (allnull && left.isEmpty && (names.isEmpty || (left.drop 1).isEmpty)) =
        (allnull && ((name :: names).isEmpty || left.isEmpty)) := by
      cases left <;> simp
    rw [Option.bind_eq_bind, Option.bind_some, onward, none_left, zipIdx_values, List.drop_drop,
      Nat.add_comm 1, List.reverse_cons, List.append_assoc (List.reverse _)]
    rfl

/-- The cells of one binding. -/
theorem steps_cells (before after : List (Text × Option (List TermRef))) (sequence : Option Nat)
    (bp : List (Text × List TermRef)) (allnull : Bool) (binding : ForBinding)
    (left : List TermRef) :
    (List.range' before.length binding.names.length).foldlM ForRound.step
        ⟨before ++ binding.cells left ++ after, sequence, bp, allnull⟩ =
      some ⟨before ++ binding.cells (left.drop binding.names.length) ++ after, some before.length,
        ((binding.names.zipIdx.map fun (name, j) => (name, (left.drop j).take 1)).reverse ++ bp),
        allnull && left.isEmpty⟩ := by
  obtain ⟨first, others, list⟩ := binding
  have none_left : (allnull && left.isEmpty && (others.isEmpty || (left.drop 1).isEmpty)) =
      (allnull && left.isEmpty) := by
    cases left <;> simp
  have onward := steps_multiple before after first (left.drop 1) others []
    ((first, left.take 1) :: bp) (allnull && left.isEmpty)
  rw [List.nil_append, List.length_nil, Nat.add_zero] at onward
  unfold ForBinding.names ForBinding.cells
  rw [List.append_assoc, List.cons_append, List.length_cons, List.range'_succ, List.foldlM_cons,
    step_list left, Option.bind_eq_bind, Option.bind_some, onward, none_left, zipIdx_values,
    List.drop_drop, Nat.add_comm 1, List.reverse_cons, List.append_assoc (List.reverse _),
    List.append_assoc]
  rfl

/-- The cells of all bindings. -/
theorem steps_forCells (bindings : List ForBinding) (i : Nat)
    (before : List (Text × Option (List TermRef))) (sequence : Option Nat)
    (bp : List (Text × List TermRef)) (allnull : Bool) :
    ∃ sequence',
      (List.range' before.length (forCells bindings i).length).foldlM ForRound.step
          ⟨before ++ forCells bindings i, sequence, bp, allnull⟩ =
        some ⟨before ++ forCells bindings (i + 1), sequence', forBound bindings i ++ bp,
          allnull && bindings.all fun binding => (binding.left i).isEmpty⟩ := by
  induction bindings generalizing before sequence bp allnull with
  | nil => exact ⟨sequence, by simp [forCells, forBound]⟩
  | cons binding bindings ih =>
    have long : (binding.cells (binding.left i)).length = binding.names.length := by
      simp [ForBinding.cells, ForBinding.names]
    have drops : (binding.left i).drop binding.names.length = binding.left (i + 1) := by
      rw [ForBinding.left, ForBinding.left, List.drop_drop, Nat.succ_mul]
    have here := steps_cells before (forCells bindings i) sequence bp allnull binding
      (binding.left i)
    rw [drops] at here
    obtain ⟨sequence', onward⟩ := ih (before ++ binding.cells (binding.left (i + 1)))
      (some before.length) ((binding.bound i).reverse ++ bp)
      (allnull && (binding.left i).isEmpty)
    refine ⟨sequence', ?_⟩
    have values : (binding.names.zipIdx.map fun (name, j) =>
        (name, ((binding.left i).drop j).take 1)) = binding.bound i := by
      unfold ForBinding.bound ForBinding.value ForBinding.left
      simp only [List.drop_drop]
    have cells : ∀ i, forCells (binding :: bindings) i =
        binding.cells (binding.left i) ++ forCells bindings i := fun i => List.flatMap_cons
    have length : (before ++ binding.cells (binding.left (i + 1))).length =
        before.length + binding.names.length := by
      rw [List.length_append]
      simp [ForBinding.cells, ForBinding.names]
    have bound : forBound (binding :: bindings) i ++ bp =
        forBound bindings i ++ ((binding.bound i).reverse ++ bp) := by
      rw [forBound, List.flatMap_cons, List.reverse_append, List.append_assoc]
      rfl
    rw [length] at onward
    rw [cells, cells, List.length_append, long, ← List.range'_append_1, List.foldlM_append,
      ← List.append_assoc, here, values, Option.bind_eq_bind, Option.bind_some, onward, bound,
      List.append_assoc, List.all_cons, Bool.and_assoc]

/-- A round gives each variable its next value. -/
theorem forRound_forCells (bindings : List ForBinding) (i : Nat) :
    ∃ sequence, forRound (forCells bindings i) =
      some ⟨forCells bindings (i + 1), sequence, forBound bindings i,
        bindings.all fun binding => (binding.left i).isEmpty⟩ := by
  obtain ⟨sequence, steps⟩ := steps_forCells bindings i [] none [] true
  refine ⟨sequence, ?_⟩
  rw [List.append_nil, Bool.true_and] at steps
  rwa [forRound, List.range_eq_range']

end

/-! ### The number of rounds -/

namespace ForBinding

theorem lt_rounds_iff (binding : ForBinding) (i : Nat) :
    i < binding.rounds ↔ binding.left i ≠ [] := by
  have positive : 0 < binding.names.length := Nat.succ_pos _
  have others : binding.names.length = binding.others.length + 1 := rfl
  rw [rounds, left, ne_eq, List.drop_eq_nil_iff, not_le, Nat.lt_iff_add_one_le,
    Nat.le_div_iff_mul_le positive, Nat.succ_mul]
  omega

/-- The values of the rounds, one after the other. -/
theorem flatMap_drop_take (list : List TermRef) (k n : Nat) :
    ((List.range n).flatMap fun i => (list.drop (i * k)).take k) = list.take (n * k) := by
  induction n with
  | zero => simp
  | succ n ih =>
    rw [List.range_succ, List.flatMap_append, ih, List.flatMap_singleton, Nat.succ_mul,
      List.take_add]

/-- Enough rounds give every value once and in order. -/
theorem flatMap_value (binding : ForBinding) {n : Nat} (enough : binding.rounds ≤ n) :
    ((List.range n).flatMap fun i =>
      (List.range binding.names.length).flatMap fun j => binding.value i j) = binding.list := by
  have round : ∀ i, ((List.range binding.names.length).flatMap fun j => binding.value i j) =
      (binding.list.drop (i * binding.names.length)).take binding.names.length := by
    intro i
    have values := flatMap_drop_take (binding.list.drop (i * binding.names.length)) 1
      binding.names.length
    rw [Nat.mul_one] at values
    rw [← values]
    unfold value
    simp only [List.drop_drop, Nat.mul_one]
  have done : binding.left n = [] := by
    by_contra more
    exact absurd ((binding.lt_rounds_iff n).mpr more) (not_lt.mpr enough)
  simp only [round]
  rw [flatMap_drop_take, List.take_of_length_le (List.drop_eq_nil_iff.mp done)]

end ForBinding

/-- There is another round as long as some list has values. -/
theorem lt_forCount_iff (bindings : List ForBinding) (i : Nat) :
    i < forCount bindings ↔ ∃ binding ∈ bindings, binding.left i ≠ [] := by
  induction bindings with
  | nil => simp [forCount]
  | cons binding bindings ih =>
    have split : forCount (binding :: bindings) = max binding.rounds (forCount bindings) := rfl
    rw [split, lt_max_iff, ih, binding.lt_rounds_iff, List.exists_mem_cons_iff]

theorem rounds_le_forCount {bindings : List ForBinding} {binding : ForBinding}
    (member : binding ∈ bindings) : binding.rounds ≤ forCount bindings := by
  by_contra more
  have some' := (binding.lt_rounds_iff _).mp (not_le.mp more)
  exact absurd ((lt_forCount_iff bindings _).mpr ⟨binding, member, some'⟩) (lt_irrefl _)

/-! ### The loop -/

namespace Forms

open Routine

variable {strhash : Text → Nat} {File Outside : Type} (forms : Forms strhash File Outside)

/-- A name, if it is valid. -/
def validName (name : Text) : Routine strhash File Outside Text :=
  fun control => control.validated name (.ret name control)

/-- The name of a variable. -/
def varname (var : TermRef) : Routine strhash File Outside Text := do
  let name ← getstr forms.system var
  validName name

/-- The bindings of a `for`, evaluated one after the other. -/
def forBindings (outer : List BindingRef) : Tree → Routine strhash File Outside (List ForBinding)
  | .null => pure []
  | .nList .null defn => forBindings outer defn
  | .nList (.nAssign p q) defn => do
      let vars ← forms.glom p outer false
      let list ← forms.glom q outer true
      match vars with
      | [] => fail (lit "es:for") (lit "null variable name")
      | var :: vars =>
          let first ← forms.varname var
          let others ← vars.mapM forms.varname
          sigchk forms.system
          let bindings ← forBindings outer defn
          pure (⟨first, others, list⟩ :: bindings)
  | _ => abort

/-- What a `for` does, round by round: the body is run with the bindings of the round around it,
and an exception `break` ends the loop. -/
def forReference (defn body : Tree) (outer : List BindingRef) (flags : EvalFlags) :
    Routine strhash File Outside (List TermRef) := do
  let bindings ← forms.forBindings outer defn
  exceptionHandler forms.commands
    ((List.range (forCount bindings)).foldlM
      (fun _ i => do
        let binding ← publish (forBound bindings i) outer
        let result ← forms.walk body binding { flags with inchild := false }
        sigchk forms.system
        pure result)
      forms.system.ltrue)
    catchBreak

theorem mkbinding_eq {α : Type} (name : Text) (defn : α) (next : List (Text × α)) :
    mkbinding name defn next =
      (do
        let name ← validName name
        pure ((name, defn) :: next) : Routine strhash File Outside _) := by
  funext control
  simp only [mkbinding, validName, Bind.bind, Control.validated]
  cases validatevar name with
  | ok _ => rfl
  | error failure => cases failure <;> rfl

theorem loopingLoop_none (vars : List TermRef) (looping : List (Text × Option (List TermRef))) :
    forms.loopingLoop vars none looping =
      vars.mapM forms.varname >>= fun names =>
        pure ((names.map fun name => (name, none)).reverse ++ looping) := by
  induction vars generalizing looping with
  | nil => simp [loopingLoop]
  | cons var vars ih =>
    simp only [loopingLoop, mkbinding_eq, ih, List.mapM_cons, varname, bind_assoc, pure_bind,
      List.map_cons, List.reverse_cons, List.append_assoc, List.singleton_append]

theorem loopingBindings_eq (outer : List BindingRef) (defn : Tree)
    (looping : List (Text × Option (List TermRef))) :
    forms.loopingBindings outer defn looping =
      forms.forBindings outer defn >>= fun bindings =>
        pure ((forCells bindings 0).reverse ++ looping) := by
  induction defn generalizing looping with
  | null => simp [loopingBindings, forBindings, forCells]
  | nList head defn _ ih =>
    cases head with
    | null => exact ih looping
    | nAssign p q =>
      unfold loopingBindings forBindings
      simp only [bind_assoc]
      refine bind_congr fun vars => bind_congr fun list => ?_
      cases vars with
      | nil => rfl
      | cons var vars =>
        have cells : ∀ first others bindings,
            (forCells (⟨first, others, list⟩ :: bindings) 0).reverse ++ looping =
              (forCells bindings 0).reverse ++ ((others.map fun name => (name, none)).reverse ++
                (first, some list) :: looping) := by
          intro first others bindings
          simp [forCells, ForBinding.cells, ForBinding.left]
        simp only [List.isEmpty_cons, Bool.false_eq_true, if_false, loopingLoop, mkbinding_eq,
          loopingLoop_none, varname, ih, bind_assoc, pure_bind, cells]
    | _ => rfl
  | _ => rfl

/-- The rounds of the loop are those of the bindings it has been given. -/
theorem forRounds_forCells (outer : List BindingRef) (body : Tree) (flags : EvalFlags)
    (bindings : List ForBinding) (rounds i : Nat) (count : forCount bindings = i + rounds)
    (result : List TermRef) :
    forms.forRounds outer body flags (forCells bindings i) result =
      (List.range' i rounds).foldlM
        (fun _ i => do
          let binding ← publish (forBound bindings i) outer
          let result ← forms.walk body binding { flags with inchild := false }
          sigchk forms.system
          pure result)
        result := by
  obtain ⟨sequence, round⟩ := forRound_forCells bindings i
  rw [forRounds]
  split
  · rename_i none'
    rw [round] at none'
    cases none'
  · rename_i round' same
    cases round.symm.trans same
    have exhausted : (bindings.all fun binding => (binding.left i).isEmpty) = true ↔
        rounds = 0 := by
      have none_left := (lt_forCount_iff bindings i).not
      simp only [not_exists, not_and, not_not] at none_left
      simp only [List.all_eq_true, List.isEmpty_iff]
      rw [← none_left]
      omega
    cases rounds with
    | zero => rw [dif_pos (exhausted.mpr rfl)]; rfl
    | succ rounds =>
      rw [dif_neg (fun all => Nat.succ_ne_zero _ (exhausted.mp all)), List.range'_succ,
        List.foldlM_cons]
      simp only [bind_assoc, pure_bind]
      refine bind_congr fun bp => bind_congr fun result => bind_congr fun _ => ?_
      exact forRounds_forCells outer body flags bindings rounds (i + 1) (by omega) result

/-- A `for` iterates in parallel: it does what the reference does, whose rounds go on as long as
some list has values and which gives the variables of each binding all of its values, in order. -/
theorem forloop_iterates (defn body : Tree) (outer : List BindingRef) (flags : EvalFlags) :
    forms.forloop defn body outer flags = forms.forReference defn body outer flags ∧
      ∀ bindings : List ForBinding,
        (∀ i, i < forCount bindings ↔ ∃ binding ∈ bindings, binding.left i ≠ []) ∧
        ∀ binding ∈ bindings,
          ((List.range (forCount bindings)).flatMap fun i =>
            (List.range binding.names.length).flatMap fun j => binding.value i j) =
              binding.list := by
  refine ⟨?_, fun bindings => ⟨lt_forCount_iff bindings, fun binding member => ?_⟩⟩
  · unfold forloop forReference
    rw [loopingBindings_eq, bind_assoc]
    refine bind_congr fun bindings => ?_
    rw [pure_bind, List.append_nil, reversebindings, List.reverse_reverse,
      forRounds_forCells forms outer body flags bindings _ 0 (Nat.zero_add _).symm,
      List.range_eq_range']
  · exact binding.flatMap_value (rounds_le_forCount member)

end Forms

end Desh
