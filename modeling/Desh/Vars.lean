/-
This file models the variables of the shell (`var.c`) together with the terms
and lexical bindings their definitions share: terms are cells that `getclosure`
turns from strings into closures in place, bindings are cells that assignments
write to, and a definition is a list of references to terms.

A settor is a function of the user's, so it may do anything between the first
and the last statements of `varpush` and `varpop`; these are modelled as two
steps each. `vardef` does nothing before it calls the settor, and its step is
what it does afterwards. What a printed closure parses to is a parameter.
Printing is given fuel, since a closure that captures itself has no end.
-/

import Desh.Closure
import Desh.Dictionary
import Desh.Export

namespace Desh

/-! ### Terms and bindings -/

/-- `Term *`. -/
abbrev TermRef := Nat

/-- `Binding *`. -/
abbrev BindingRef := Nat

/-- `Term`: a string or a closure, never both. The chain of a closure's bindings, which nothing
changes, is the list of its cells, innermost first. -/
inductive TermCell where
  | str (s : Text)
  | closure (tree : Tree) (binding : List BindingRef)
  deriving DecidableEq

/-- `Binding`, without its link. -/
structure Binding where
  name : Text
  defn : List TermRef
  deriving DecidableEq

structure Heap where
  terms : List TermCell
  bindings : List Binding
  deriving DecidableEq

namespace Heap

/-- `hasbindings`: does a closure in a list capture anything? -/
def hasbindings (heap : Heap) (list : List TermRef) : Bool :=
  list.any fun t =>
    match heap.terms[t]? with
    | some (.closure _ (_ :: _)) => true
    | _ => false

/-- What `enclose` prints of a binding: its name and the strings of its terms. -/
def values (print : TermRef → Option Text) (heap : Heap) (b : BindingRef) :
    Option (Text × List Text) := do
  let cell ← heap.bindings[b]?
  let strings ← cell.defn.mapM print
  some (cell.name, strings)

/-- `getstr`: a closure is printed with what its bindings hold now. -/
def getstr : Nat → Heap → TermRef → Option Text
  | 0, _, _ => none
  | fuel + 1, heap, t =>
      match heap.terms[t]? with
      | some (.str s) => some s
      | some (.closure tree binding) => do
          let values ← binding.mapM (heap.values (getstr fuel heap))
          cconv tree values
      | none => none

/-- `str(ENV_FORMAT, key, defn)`. -/
def envstr (fuel : Nat) (heap : Heap) (key : Text) (defn : List TermRef) : Option Text := do
  let words ← defn.mapM (heap.getstr fuel)
  some (fconv key ++ lit "=" ++ wconv words)

end Heap

/-! ### Strings that become closures -/

/-- The strings `getclosure` takes for closures. -/
def closureText (s : Text) : Bool :=
  ((s.head? == some '{'.toUInt8 || s.head? == some '@'.toUInt8) &&
      s.getLast? == some '}'.toUInt8) ||
    (lit "$&").isPrefixOf s || (lit "%closure").isPrefixOf s

section

variable (parsestring : Text → Option Tree)

/-- The closure a string reads as, if `getclosure` makes one of it: not when the parser returns
nothing, nor when it or `extractbindings` raises an exception. -/
def readsClosure (s : Text) : Option (List (Text × List Value) × Tree) :=
  if closureText s then (parsestring s).bind fun tree => (extractbindings tree).toOption else none

/-- The term `extract` makes of a value. -/
def valueCell (tree : Tree) (binding : List BindingRef) : Value → TermCell
  | .str s => .str s
  | .nested => .closure tree binding

/-- The terms and bindings `extract` makes for a closure. -/
def Heap.mkbindings (tree : Tree) (binding : List BindingRef) :
    List (Text × List Value) → Heap → Heap
  | [], heap => heap
  | (name, values) :: next, heap =>
      mkbindings tree binding next
        { terms := heap.terms ++ values.map (valueCell tree binding)
          bindings :=
            heap.bindings ++ [⟨name, List.range' heap.terms.length values.length⟩] }

/-- `getclosure`: a string term that reads as a closure becomes that closure. -/
def Heap.getclosure (heap : Heap) (t : TermRef) : Heap :=
  match heap.terms[t]? with
  | some (.str s) =>
      match readsClosure parsestring s with
      | some (bindings, tree) =>
          let binding := List.range' heap.bindings.length bindings.length
          let heap := heap.mkbindings tree binding bindings
          { heap with terms := heap.terms.set t (.closure tree binding) }
      | none => heap
  | _ => heap

end

/-! ### Variables -/

/-- `Var`, its flags apart. -/
structure Var where
  defn : List TermRef
  env : Option Text
  hasbindings : Bool
  isinternal : Bool
  deriving DecidableEq

/-- `Push`: the variable's old definition and flags. -/
structure Push where
  name : Text
  defn : List TermRef
  hasbindings : Bool
  isinternal : Bool
  deriving DecidableEq

/-- A call of `varpush` or `varpop` that is waiting for a settor. -/
inductive Call where
  | varpush (name : Text)
  | varpop
  deriving DecidableEq

/-- The static variables of `var.c`, the push list and the heap. `env` is the vector of that name
up to its count; `loading` says that `initenv` has not returned yet. -/
structure Shell (strhash : Text → Nat) where
  heap : Heap
  vars : Dictionary strhash Var
  noexport : Option (Dictionary strhash Unit)
  env : List Text
  envmin : Nat
  sortenv : List Text
  isdirty : Bool
  rebound : Bool
  pushlist : List Push
  calls : List Call
  split : Split
  loading : Bool

/-- `specialvar`. -/
def specialvar (name : Text) : Bool := name == lit "*" || name == lit "0"

/-- `sortvector`, which compares bytes. -/
def sortvector (v : List Text) : List Text := v.insertionSort (· ≤ ·)

namespace Shell

variable {strhash : Text → Nat}

/-- `initvars`. -/
def initvars : Shell strhash where
  heap := ⟨[], []⟩
  vars := .mkdict
  noexport := none
  env := []
  envmin := 0
  sortenv := []
  isdirty := true
  rebound := true
  pushlist := []
  calls := []
  split := .initial
  loading := true

/-- `isexported`. -/
def isexported (shell : Shell strhash) (name : Text) : Bool :=
  !specialvar name &&
    match shell.noexport with
    | none => true
    | some noexport => (noexport.get name).isNone

/-- `mkvar`. -/
def mkvar (shell : Shell strhash) (defn : List TermRef) : Var :=
  { defn, env := none, hasbindings := shell.heap.hasbindings defn, isinternal := false }

/-- The statement of `vardef`, `varpush` and `varpop` that marks the environment dirty. -/
def markDirty (shell : Shell strhash) (name : Text) : Shell strhash :=
  if shell.isexported name then { shell with isdirty := true } else shell

/-- The binding `vardef` assigns to: the first one of that name. -/
def lookup (shell : Shell strhash) (name : Text) (binding : List BindingRef) : Option BindingRef :=
  binding.find? fun b => (shell.heap.bindings[b]?).any fun cell => cell.name == name

/-- The loop of `vardef`: assign to a lexical binding. -/
def rebind (shell : Shell strhash) (b : BindingRef) (defn : List TermRef) : Shell strhash :=
  { shell with
    heap := { shell.heap with
      bindings := shell.heap.bindings.modify b fun cell => { cell with defn } }
    rebound := true }

/-- The rest of `vardef`: define a dynamic variable; the settor has returned `defn`. -/
def define (shell : Shell strhash) (name : Text) (defn : List TermRef) : Shell strhash :=
  let shell := shell.markDirty name
  match shell.vars.get name, defn with
  | some _, [] => { shell with vars := shell.vars.put name none }
  | some var, _ :: _ =>
      { shell with
        vars := shell.vars.put name
          (some { var with
            defn
            env := none
            hasbindings := shell.heap.hasbindings defn
            isinternal := false }) }
  | none, [] => shell
  | none, _ :: _ => { shell with vars := shell.vars.put name (some (shell.mkvar defn)) }

/-- `vardef`; an invalid name raises an exception before anything is changed. -/
def vardef (shell : Shell strhash) (name : Text) (binding : List BindingRef)
    (defn : List TermRef) : Shell strhash :=
  match validatevar name with
  | .error _ => shell
  | .ok _ =>
      match shell.lookup name binding with
      | some b => shell.rebind b defn
      | none => shell.define name defn

/-- `varpush` up to the call of the settor. -/
def varpushBegin (shell : Shell strhash) (name : Text) : Shell strhash :=
  match validatevar name with
  | .error _ => shell
  | .ok _ =>
      let shell := shell.markDirty name
      { shell with calls := .varpush name :: shell.calls }

/-- `varpush` from where the settor has returned `defn`. -/
def varpushEnd (shell : Shell strhash) (name : Text) (defn : List TermRef) : Shell strhash :=
  match shell.vars.get name with
  | none =>
      { shell with
        vars := shell.vars.put name (some (shell.mkvar defn))
        pushlist := ⟨name, [], false, false⟩ :: shell.pushlist }
  | some var =>
      { shell with
        vars := shell.vars.put name
          (some { var with
            defn
            env := none
            hasbindings := shell.heap.hasbindings defn
            isinternal := false })
        pushlist := ⟨name, var.defn, var.hasbindings, var.isinternal⟩ :: shell.pushlist }

/-- `varpop` from where the settor has returned `defn`. -/
def varpopEnd (shell : Shell strhash) (push : Push) (defn : List TermRef) : Shell strhash :=
  let restored : Var :=
    { defn, env := none, hasbindings := push.hasbindings, isinternal := push.isinternal }
  let vars :=
    match shell.vars.get push.name, defn with
    | some _, [] => shell.vars.put push.name none
    | none, [] => shell.vars
    | _, _ :: _ => shell.vars.put push.name (some restored)
  { shell with vars, pushlist := shell.pushlist.tail }

/-- `setnoexport`. -/
def setnoexport (fuel : Nat) (shell : Shell strhash) (list : List TermRef) :
    Option (Shell strhash) := do
  let names ← list.mapM (shell.heap.getstr fuel)
  let noexport :=
    if list = [] then none
    else some (names.foldl (fun noexport name => noexport.put name (some ())) .mkdict)
  some { shell with isdirty := true, noexport }

/-- `hidevariables`. -/
def hidevariables (shell : Shell strhash) : Shell strhash :=
  { shell with vars := shell.vars.change fun _ var => { var with isinternal := true } }

/-- `VarScan`: a collection drops the strings of variables with bindings. -/
def varScan (shell : Shell strhash) : Shell strhash :=
  { shell with
    vars := shell.vars.change fun _ var =>
      { var with env := if var.hasbindings && shell.rebound then none else var.env } }

/-- `importvar`: a variable whose entry is `value` from its `=` on. With a settor it is made of
other steps: the new strings, what the settor does, and `vardef`. -/
def importvar (shell : Shell strhash) (name value : Text) : Shell strhash :=
  let imported := Desh.importvar value shell.split
  let defn := List.range' shell.heap.terms.length imported.1.length
  let shell := { shell with
    split := imported.2
    heap := { shell.heap with terms := shell.heap.terms ++ imported.1.map TermCell.str } }
  shell.vardef name [] defn

/-! ### The environment -/

/-- Does `mkenv0` pass a variable on to the environment? -/
def inEnv (shell : Shell strhash) (key : Text) (var : Var) : Bool :=
  !var.defn.isEmpty && !var.isinternal && shell.isexported key

/-- The string `mkenv0` uses: the variable's own, unless there is none or it may be stale. -/
def entryText (fuel : Nat) (shell : Shell strhash) (key : Text) (var : Var) : Option Text :=
  if var.env.isNone || (shell.rebound && var.hasbindings) then shell.heap.envstr fuel key var.defn
  else var.env

/-- `mkenv0`. -/
def mkenv0 (fuel : Nat) (shell : Shell strhash) (entry : Text × Var) : Option (Shell strhash) :=
  if shell.inEnv entry.1 entry.2 then do
    let text ← shell.entryText fuel entry.1 entry.2
    some { shell with
      vars := shell.vars.put entry.1 (some { entry.2 with env := some text })
      env := shell.env ++ [text] }
  else some shell

/-- `mkenv`. -/
def mkenv (fuel : Nat) (shell : Shell strhash) : Option (List Text × Shell strhash) :=
  if shell.isdirty || shell.rebound then do
    let shell := { shell with env := shell.env.take shell.envmin }
    let shell ← shell.vars.entries.foldlM (mkenv0 fuel) shell
    let sortenv := sortvector shell.env
    some (sortenv, { shell with isdirty := false, rebound := false, sortenv })
  else some (shell.sortenv, shell)

end Shell

/-! ### Runs -/

/-- What the rest of the shell can do to its variables, and a string `initenv` meets. -/
inductive Op where
  | mkstr (s : Text)
  | mkterm (tree : Tree) (binding : List BindingRef)
  | mkbinding (name : Text) (defn : List TermRef)
  | getclosure (t : TermRef)
  | vardef (name : Text) (binding : List BindingRef) (defn : List TermRef)
  | varpushBegin (name : Text)
  | varpushEnd (defn : List TermRef)
  | varpopBegin
  | varpopEnd (defn : List TermRef)
  | setnoexport (list : List TermRef)
  | hidevariables
  | inherit (envstr : Text)
  | importvar (name value : Text)
  | endInitenv
  | varScan
  | mkenv
  deriving DecidableEq

namespace Shell

variable {strhash : Text → Nat}

/-- One operation; `none` where the code has no such step, or its printing runs out of fuel. -/
def step (parsestring : Text → Option Tree) (fuel : Nat) (op : Op) (shell : Shell strhash) :
    Option (Shell strhash) :=
  match op with
  | .mkstr s =>
      some { shell with heap := { shell.heap with terms := shell.heap.terms ++ [.str s] } }
  | .mkterm tree binding =>
      some { shell with
        heap := { shell.heap with terms := shell.heap.terms ++ [.closure tree binding] } }
  | .mkbinding name defn =>
      match validatevar name with
      | .error _ => some shell
      | .ok _ =>
          some { shell with
            heap := { shell.heap with bindings := shell.heap.bindings ++ [⟨name, defn⟩] } }
  | .getclosure t => some { shell with heap := shell.heap.getclosure parsestring t }
  | .vardef name binding defn => some (shell.vardef name binding defn)
  | .varpushBegin name => some (shell.varpushBegin name)
  | .varpushEnd defn =>
      match shell.calls with
      | .varpush name :: calls => some { shell.varpushEnd name defn with calls }
      | _ => none
  | .varpopBegin =>
      match shell.pushlist with
      | push :: _ =>
          let shell := shell.markDirty push.name
          some { shell with calls := .varpop :: shell.calls }
      | [] => none
  | .varpopEnd defn =>
      match shell.calls, shell.pushlist with
      | .varpop :: calls, push :: _ => some { shell.varpopEnd push defn with calls }
      | _, _ => none
  | .setnoexport list => shell.setnoexport fuel list
  | .hidevariables => if shell.loading then some shell.hidevariables else none
  | .inherit envstr =>
      if shell.loading then some { shell with env := shell.env ++ [envstr] } else none
  | .importvar name value =>
      if shell.loading then some (shell.importvar name value) else none
  | .endInitenv =>
      if shell.loading then some { shell with envmin := shell.env.length, loading := false }
      else none
  | .varScan => some shell.varScan
  | .mkenv => (shell.mkenv fuel).map Prod.snd

end Shell

end Desh
