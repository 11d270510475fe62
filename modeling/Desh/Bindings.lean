/-
This file models the forms of `eval.c` that give values to variables: the
assignment, `let`, `local`, `for`, and the parameters of a lambda. What they
evaluate on the way, words and commands, is a parameter.

Nobody has the cells of a chain of bindings before the code it is bound for
gets it. Until then it is a list of names with what they stand for, innermost
first. The variables that are registered for the collector are left out.
-/

import Desh.Eval
import Desh.Primitives
import Desh.Subscript

namespace Desh

/-! ### Routines one after the other -/

namespace Routine

variable {strhash : Text → Nat} {File Outside : Type}

instance : LawfulMonad (Routine strhash File Outside) :=
  LawfulMonad.mk' _
    (fun routine => by
      funext control
      simp only [Functor.map]
      cases routine control <;> rfl)
    (fun _ _ => rfl)
    (fun first _ _ => by
      funext control
      simp only [Bind.bind]
      cases first control <;> rfl)

end Routine

/-! ### What the forms call -/

/-- The rest of the shell. `top` is `walk` from the label of that name on; a word is globbed when
the last argument of `glom` says so. -/
structure Forms (strhash : Text → Nat) (File Outside : Type) where
  commands : Commands strhash File Outside
  system : System File Outside
  glom : Tree → List BindingRef → Bool → Routine strhash File Outside (List TermRef)
  top : Tree → List BindingRef → EvalFlags → Routine strhash File Outside (List TermRef)

namespace Forms

open Routine

variable {strhash : Text → Nat} {File Outside : Type} {α : Type}

/-- `mkbinding`, of a chain that nobody else has yet. -/
def mkbinding (name : Text) (defn : α) (next : List (Text × α)) :
    Routine strhash File Outside (List (Text × α)) :=
  fun control => control.validated name (.ret ((name, defn) :: next) control)

/-- The cells of a chain, made for the code that gets it. -/
def publish (chain : List (Text × List TermRef)) (outer : List BindingRef) :
    Routine strhash File Outside (List BindingRef) :=
  fun control =>
    let heap := control.shell.heap
    .ret ((List.range' heap.bindings.length chain.length).reverse ++ outer)
      { control with
        shell := { control.shell with
          heap := { heap with
            bindings := heap.bindings ++ chain.reverse.map fun (name, defn) => ⟨name, defn⟩ } } }

/-- The value of the next variable, and the values that are left. -/
def nextValue (isLast : Bool) : List α → List α × List α
  | [] => ([], [])
  | value :: values =>
      if isLast || values.isEmpty then (value :: values, []) else ([value], values)

variable (forms : Forms strhash File Outside)

/-- `walk`. -/
def walk (tree : Tree) (binding : List BindingRef) (flags : EvalFlags) :
    Routine strhash File Outside (List TermRef) := do
  sigchk forms.system
  forms.top tree binding flags

/-! ### Assignments -/

/-- `vardef`. -/
def vardef (name : Text) (binding : List BindingRef) (defn : List TermRef) :
    Routine strhash File Outside Unit :=
  fun control =>
    control.validated name <|
      match control.shell.lookup name binding with
      | some b => .ret () { control with shell := control.shell.rebind b defn }
      | none => Control.vardef forms.commands.behave name defn control

/-- The loop of `assign`. -/
def assignLoop (binding : List BindingRef) :
    List TermRef → List TermRef → Routine strhash File Outside Unit
  | [], _ => pure ()
  | var :: vars, values => do
      let name ← getstr forms.system var
      let next := nextValue vars.isEmpty values
      forms.vardef name binding next.1
      assignLoop binding vars next.2

/-- `assign`. -/
def assign (varform valueform : Tree) (binding : List BindingRef) :
    Routine strhash File Outside (List TermRef) := do
  let vars ← forms.glom varform binding false
  if vars.isEmpty then fail (lit "es:assign") (lit "null variable name")
  else
    let values ← forms.glom valueform binding true
    forms.assignLoop binding vars values
    pure values

/-! ### `let` and `local` -/

/-- The inner loop of `letbindings`. -/
def letLoop : List TermRef → List TermRef → List (Text × List TermRef) →
    Routine strhash File Outside (List (Text × List TermRef))
  | [], _, binding => pure binding
  | var :: vars, values, binding => do
      let name ← getstr forms.system var
      let next := nextValue vars.isEmpty values
      let binding ← mkbinding name next.1 binding
      letLoop vars next.2 binding

/-- `letbindings`, with the new bindings alone. -/
def letbindings (context : List BindingRef) : Tree → List (Text × List TermRef) →
    Routine strhash File Outside (List (Text × List TermRef))
  | .null, binding => pure binding
  | .nList .null defn, binding => letbindings context defn binding
  | .nList (.nAssign p q) defn, binding => do
      let vars ← forms.glom p context false
      let values ← forms.glom q context true
      if vars.isEmpty then fail (lit "es:let") (lit "null variable name")
      else
        let binding ← forms.letLoop vars values binding
        letbindings context defn binding
  | _, _ => abort

/-- The case `nLet` of `walk`. -/
def walkLet (defn body : Tree) (binding : List BindingRef) (flags : EvalFlags) :
    Routine strhash File Outside (List TermRef) := do
  let chain ← forms.letbindings binding defn []
  let binding ← publish chain binding
  forms.top body binding flags

/-- `varpush`. -/
def varpush (name : Text) (defn : List TermRef) : Routine strhash File Outside Unit :=
  Control.varpush forms.commands.behave name defn

/-- `varpop`. -/
def varpop : Routine strhash File Outside Unit := Control.varpop forms.commands.behave

/-- `localbind`. -/
def localbind (lexical : List BindingRef) (body : Tree) (flags : EvalFlags) :
    List (Text × List TermRef) → Routine strhash File Outside (List TermRef)
  | [] => forms.walk body lexical flags
  | (name, defn) :: dynamic => do
      forms.varpush name defn
      let result ← localbind lexical body flags dynamic
      forms.varpop
      pure result

/-- `reversebindings`. -/
def reversebindings (binding : List (Text × α)) : List (Text × α) := binding.reverse

/-- `local`. -/
def «local» (defn body : Tree) (bindings : List BindingRef) (flags : EvalFlags) :
    Routine strhash File Outside (List TermRef) := do
  let dynamic ← forms.letbindings bindings defn []
  forms.localbind bindings body flags (reversebindings dynamic)

/-! ### Parameters -/

/-- The loop of `bindargs`. -/
def bindargsLoop : Tree → List TermRef → List (Text × List TermRef) →
    Routine strhash File Outside (List (Text × List TermRef))
  | .null, _, binding => pure binding
  | .nList (.nWord s) params, args, binding
  | .nList (.nQword s) params, args, binding => do
      let next := nextValue (params == .null) args
      let binding ← mkbinding s next.1 binding
      bindargsLoop params next.2 binding
  | _, _, _ => abort

/-- `bindargs`, with the new bindings alone. -/
def bindargs (params : Tree) (args : List TermRef) :
    Routine strhash File Outside (List (Text × List TermRef)) :=
  match params with
  | .null => mkbinding (lit "*") args []
  | params => bindargsLoop params args []

/-! ### `for` -/

/-- The inner loop over the variables of a binding. A variable that does not come first has
`&MULTIPLE`, which is `none` here. -/
def loopingLoop : List TermRef → Option (List TermRef) → List (Text × Option (List TermRef)) →
    Routine strhash File Outside (List (Text × Option (List TermRef)))
  | [], _, looping => pure looping
  | var :: vars, list, looping => do
      let name ← getstr forms.system var
      let looping ← mkbinding name list looping
      loopingLoop vars none looping

/-- The loop of `forloop` over its bindings. -/
def loopingBindings (outer : List BindingRef) : Tree → List (Text × Option (List TermRef)) →
    Routine strhash File Outside (List (Text × Option (List TermRef)))
  | .null, looping => pure looping
  | .nList .null defn, looping => loopingBindings outer defn looping
  | .nList (.nAssign p q) defn, looping => do
      let vars ← forms.glom p outer false
      let list ← forms.glom q outer true
      if vars.isEmpty then fail (lit "es:for") (lit "null variable name")
      else
        let looping ← forms.loopingLoop vars (some list) looping
        sigchk forms.system
        loopingBindings outer defn looping
  | _, _ => abort

end Forms

/-- A round of the loop: the cells of `looping`, the cell `sequence` points to, the bindings made
so far and whether all values were null. -/
structure ForRound where
  looping : List (Text × Option (List TermRef))
  sequence : Option Nat
  bp : List (Text × List TermRef)
  allnull : Bool

/-- The body of the loop over the cells of `looping`. -/
def ForRound.step (round : ForRound) (lp : Nat) : Option ForRound :=
  round.looping[lp]?.bind fun (name, defn) =>
    let sequence := if defn.isSome then some lp else round.sequence
    sequence.bind fun cell =>
      match round.looping[cell]? with
      | some (owner, some (term :: next)) =>
          some ⟨round.looping.set cell (owner, some next), sequence, (name, [term]) :: round.bp,
            false⟩
      | some (_, some []) => some { round with sequence, bp := (name, []) :: round.bp }
      | _ => none

/-- The loop over the cells of `looping`. -/
def forRound (looping : List (Text × Option (List TermRef))) : Option ForRound :=
  (List.range looping.length).foldlM ForRound.step ⟨looping, none, [], true⟩

/-- The values that are left. -/
def valuesLeft (looping : List (Text × Option (List TermRef))) : Nat :=
  (looping.map fun cell => (cell.2.getD []).length).sum

/-- A step over a cell takes a value or finds none. -/
theorem ForRound.step_valuesLeft {round next : ForRound} {lp : Nat}
    (steps : round.step lp = some next) :
    (valuesLeft next.looping = valuesLeft round.looping ∧ next.allnull = round.allnull) ∨
      valuesLeft next.looping < valuesLeft round.looping := by
  obtain ⟨⟨name, defn⟩, -, steps⟩ := Option.bind_eq_some_iff.mp steps
  obtain ⟨cell, -, steps⟩ := Option.bind_eq_some_iff.mp steps
  split at steps
  · rename_i owner term left found
    cases steps
    obtain ⟨inside, isCell⟩ := List.getElem?_eq_some_iff.mp found
    right
    have split := List.take_append_drop cell round.looping
    rw [← List.getElem_cons_drop inside, isCell] at split
    rw [List.set_eq_take_append_cons_drop, if_pos inside]
    conv_rhs => rw [← split]
    unfold valuesLeft
    simp
  · cases steps
    exact .inl ⟨rfl, rfl⟩
  · cases steps

theorem forRound_valuesLeft {looping : List (Text × Option (List TermRef))} {round : ForRound}
    (rounds : forRound looping = some round) (some' : round.allnull = false) :
    valuesLeft round.looping < valuesLeft looping := by
  have steps : ∀ (cells : List Nat) (before after : ForRound),
      cells.foldlM ForRound.step before = some after →
      (valuesLeft after.looping = valuesLeft before.looping ∧ after.allnull = before.allnull) ∨
        valuesLeft after.looping < valuesLeft before.looping := by
    intro cells
    induction cells with
    | nil =>
      intro before after same
      cases same
      exact .inl ⟨rfl, rfl⟩
    | cons lp cells ih =>
      intro before after same
      obtain ⟨next, first, others⟩ := Option.bind_eq_some_iff.mp
        ((List.foldlM_cons ..).symm.trans same)
      rcases ForRound.step_valuesLeft first with ⟨left, null⟩ | fewer <;>
        rcases ih next after others with ⟨left', null'⟩ | fewer'
      · exact .inl ⟨left'.trans left, null'.trans null⟩
      · exact .inr (left ▸ fewer')
      · exact .inr (left' ▸ fewer)
      · exact .inr (fewer'.trans fewer)
  rcases steps _ _ _ rounds with ⟨-, null⟩ | fewer
  · rw [null] at some'
    cases some'
  · exact fewer

namespace Forms

open Routine

variable {strhash : Text → Nat} {File Outside : Type} (forms : Forms strhash File Outside)

/-- The rounds of the loop of `forloop`. -/
def forRounds (outer : List BindingRef) (body : Tree) (flags : EvalFlags)
    (looping : List (Text × Option (List TermRef))) (result : List TermRef) :
    Routine strhash File Outside (List TermRef) :=
  match _rounds : forRound looping with
  | none => abort
  | some round =>
      if _allnull : round.allnull then pure result
      else do
        let bp ← publish round.bp outer
        let result ← forms.walk body bp { flags with inchild := false }
        sigchk forms.system
        forRounds outer body flags round.looping result
termination_by valuesLeft looping
decreasing_by exact forRound_valuesLeft _rounds (Bool.eq_false_iff.mpr _allnull)

/-- What ends a `for`: an exception `break`, with its values. -/
def catchBreak (e : Exception) : Routine strhash File Outside (List TermRef) := do
  if ← termeq e.term (lit "break") then pure e.next else throw e

/-- `forloop`. -/
def forloop (defn body : Tree) (binding : List BindingRef) (flags : EvalFlags) :
    Routine strhash File Outside (List TermRef) := do
  let looping ← forms.loopingBindings binding defn []
  exceptionHandler forms.commands
    (forms.forRounds binding body flags (reversebindings looping) forms.system.ltrue) catchBreak

end Forms

end Desh
