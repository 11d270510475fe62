/-
This file models `dump.c`, which prints the state of the shell as a program in C
that makes it again. Each object the variables reach becomes a constant with a
name of its own, declared behind the constants it points to.

Pointers are addresses in a memory that has cells for each type. The order in
which the arguments of a call are evaluated, which C leaves open, is a
parameter. The recursion is given fuel, since it has no end on a cycle.
-/

import Desh.Conv
import Desh.Print

namespace Desh

namespace Dump

/-! ### The memory -/

/-- `NodeKind`. -/
inductive NodeKind where
  | nAssign
  | nCall
  | nClosure
  | nConcat
  | nFor
  | nLambda
  | nLet
  | nList
  | nLocal
  | nMatch
  | nExtract
  | nPrim
  | nQword
  | nThunk
  | nVar
  | nVarsub
  | nWord
  | nRedir
  | nPipe
  deriving DecidableEq

abbrev Address := UInt64

/-- `Tree`: what `u[0]` and `u[1]` point to depends on the kind. -/
structure Tree where
  kind : NodeKind
  u0 : Option Address
  u1 : Option Address

/-- `Binding`. -/
structure Binding where
  name : Option Address
  defn : Option Address
  next : Option Address

/-- `Closure`. -/
structure Closure where
  binding : Option Address
  tree : Option Address

/-- `Term`. -/
structure Term where
  str : Option Address
  closure : Option Address

/-- `List`. -/
structure ListCell where
  term : Option Address
  next : Option Address

/-- What is at an address, read as an object of the type of the pointer. -/
structure Memory where
  string : Address → Option Text
  tree : Address → Option Tree
  binding : Address → Option Binding
  closure : Address → Option Closure
  term : Address → Option Term
  list : Address → Option ListCell

/-- The types of the pointers that are dumped. -/
inductive PointerType where
  | string
  | tree
  | binding
  | closure
  | term
  | list
  deriving DecidableEq

/-- A pointer. The null pointer has no address. -/
structure Pointer where
  type : PointerType
  address : Option Address
  deriving DecidableEq

/-! ### The program -/

/-- The types of the constants, with the kind of the node where it is a tree. -/
inductive ConstantType where
  | Tree_s (kind : NodeKind)
  | Tree_p (kind : NodeKind)
  | Tree_pp (kind : NodeKind)
  | Binding
  | Closure
  | Term
  | List
  deriving DecidableEq

/-- A declaration of a constant: a string, or an object with what stands for its fields. -/
inductive Declaration where
  | chars (name s : Text)
  | object (type : ConstantType) (name : Text) (fields : List Text)
  deriving DecidableEq

/-- What `runinitial` prints: declarations, the head of the array `defs`, and its elements. -/
inductive Line where
  | declaration (d : Declaration)
  | defs
  | element (name value : Text)
  deriving DecidableEq

/-! ### Names -/

def MAXVARNAME : Nat := 20

/-- `%ulx`. -/
def ulx (address : Address) : Text :=
  intconv { FormatFlags.none with long := true, unsigned := true } 16 false (lit "0x") address

/-- The name of a string at an address. -/
def stringName (string : Text) (address : Address) : Text :=
  let name := lit "S_" ++ fconv string
  if name.length > MAXVARNAME then lit "X_" ++ ulx address else name

/-- `nodename`; `none` is a panic. -/
def nodename : NodeKind → Option Text
  | .nAssign => some (lit "Assign")
  | .nCall => some (lit "Call")
  | .nClosure => some (lit "Closure")
  | .nConcat => some (lit "Concat")
  | .nFor => some (lit "For")
  | .nLambda => some (lit "Lambda")
  | .nLet => some (lit "Let")
  | .nList => some (lit "List")
  | .nLocal => some (lit "Local")
  | .nMatch => some (lit "Match")
  | .nExtract => some (lit "Extract")
  | .nPrim => some (lit "Prim")
  | .nQword => some (lit "Qword")
  | .nThunk => some (lit "Thunk")
  | .nVar => some (lit "Var")
  | .nVarsub => some (lit "Varsub")
  | .nWord => some (lit "Word")
  | .nRedir | .nPipe => none

/-! ### Dumping -/

/-- What has been printed, and the two dictionaries. Of `cvars` only the names matter. -/
structure State where
  output : List Line
  cvars : List Text
  strings : List (Text × Text)

/-- The dump of something. It does not end where the shell panics, a pointer leads nowhere, or the
fuel is spent. -/
abbrev Dumping := StateT State Option

/-- Read through a pointer. -/
def fetch {α : Type} (cell : Option α) : Dumping α := StateT.lift cell

/-- `print`. -/
def print (line : Line) : Dumping Unit :=
  modify fun state => { state with output := state.output ++ [line] }

/-- The null pointer is `NULL`. -/
def orNull (dump : Address → Dumping Text) : Option Address → Dumping Text
  | none => pure (lit "NULL")
  | some address => dump address

section

variable (memory : Memory) (schedule : Nat → List Nat)

/-- The arguments of a call, evaluated in the order of the schedule. -/
def arguments (jobs : List (Dumping Text)) : Dumping (List Text) := do
  let found ← (schedule jobs.length).mapM fun i => do
    let text ← jobs.getD i failure
    pure (i, text)
  pure ((List.range jobs.length).map fun i => (found.lookup i).getD [])

/-- `dumpstring`. -/
def dumpstring : Option Address → Dumping Text :=
  orNull fun address => do
    let string ← fetch (memory.string address)
    match (← get).strings.lookup string with
    | some name => pure name
    | none => do
        let name := stringName string address
        print (.declaration (.chars name string))
        modify fun state => { state with strings := state.strings ++ [(string, name)] }
        pure name

/-- What the functions for the other types do with the name of an object: if it is new, the object
is declared under what follows the `&`. -/
def declare (name : Text) (object : Dumping (ConstantType × List Text)) : Dumping Text := do
  if name ∈ (← get).cvars then pure name
  else do
    let (type, fields) ← object
    print (.declaration (.object type (name.drop 1) fields))
    modify fun state => { state with cvars := state.cvars ++ [name] }
    pure name

variable (dump : Pointer → Dumping Text)

/-- `dumptree`. -/
def dumptree : Option Address → Dumping Text :=
  orNull fun address =>
    declare (lit "&T_" ++ ulx address) do
      let tree ← fetch (memory.tree address)
      match tree.kind with
      | .nWord | .nQword | .nPrim => do
          let fields ← arguments schedule [dump ⟨.string, tree.u0⟩]
          pure (.Tree_s tree.kind, fields)
      | .nCall | .nThunk | .nVar => do
          let fields ← arguments schedule [dump ⟨.tree, tree.u0⟩]
          pure (.Tree_p tree.kind, fields)
      | .nAssign | .nConcat | .nClosure | .nFor | .nLambda | .nLet | .nList | .nLocal | .nVarsub
      | .nMatch | .nExtract => do
          let fields ← arguments schedule [dump ⟨.tree, tree.u0⟩, dump ⟨.tree, tree.u1⟩]
          pure (.Tree_pp tree.kind, fields)
      | .nRedir | .nPipe => failure

/-- `dumpbinding`. -/
def dumpbinding : Option Address → Dumping Text :=
  orNull fun address =>
    declare (lit "&B_" ++ ulx address) do
      let binding ← fetch (memory.binding address)
      let fields ← arguments schedule
        [dump ⟨.string, binding.name⟩, dump ⟨.list, binding.defn⟩, dump ⟨.binding, binding.next⟩]
      pure (.Binding, fields)

/-- `dumpclosure`. -/
def dumpclosure : Option Address → Dumping Text :=
  orNull fun address =>
    declare (lit "&C_" ++ ulx address) do
      let closure ← fetch (memory.closure address)
      let fields ← arguments schedule [dump ⟨.binding, closure.binding⟩, dump ⟨.tree, closure.tree⟩]
      pure (.Closure, fields)

/-- `dumpterm`. -/
def dumpterm : Option Address → Dumping Text :=
  orNull fun address =>
    declare (lit "&E_" ++ ulx address) do
      let term ← fetch (memory.term address)
      let fields ← arguments schedule [dump ⟨.string, term.str⟩, dump ⟨.closure, term.closure⟩]
      pure (.Term, fields)

/-- `dumplist`. -/
def dumplist : Option Address → Dumping Text :=
  orNull fun address =>
    declare (lit "&L_" ++ ulx address) do
      let list ← fetch (memory.list address)
      let fields ← arguments schedule [dump ⟨.term, list.term⟩, dump ⟨.list, list.next⟩]
      pure (.List, fields)

end

/-- The functions that call each other. -/
def dump (memory : Memory) (schedule : Nat → List Nat) : Nat → Pointer → Dumping Text
  | 0, pointer => orNull (fun _ => failure) pointer.address
  | _ + 1, ⟨.string, address⟩ => dumpstring memory address
  | fuel + 1, ⟨.tree, address⟩ => dumptree memory schedule (dump memory schedule fuel) address
  | fuel + 1, ⟨.binding, address⟩ => dumpbinding memory schedule (dump memory schedule fuel) address
  | fuel + 1, ⟨.closure, address⟩ => dumpclosure memory schedule (dump memory schedule fuel) address
  | fuel + 1, ⟨.term, address⟩ => dumpterm memory schedule (dump memory schedule fuel) address
  | fuel + 1, ⟨.list, address⟩ => dumplist memory schedule (dump memory schedule fuel) address

/-! ### The variables -/

/-- A variable: its name and its value. -/
structure Var where
  key : Address
  defn : Option Address

/-- What a list of names is printed for. -/
inductive Pass where
  | functions
  | settors
  | variables
  deriving DecidableEq

/-- Does a pass print the variable of that name? -/
def Pass.takes (key : Text) : Pass → Bool
  | .functions => (lit "fn-").isPrefixOf key
  | .settors => (lit "set-").isPrefixOf key
  | .variables => !(lit "fn-").isPrefixOf key && !(lit "set-").isPrefixOf key

section

variable (memory : Memory) (schedule : Nat → List Nat) (fuel : Nat)

/-- `dumpvar`. -/
def dumpvar (var : Var) : Dumping Unit := do
  let _ ← dump memory schedule fuel ⟨.string, some var.key⟩
  let _ ← dump memory schedule fuel ⟨.list, var.defn⟩
  pure ()

/-- `dumpdef`. -/
def dumpdef (var : Var) : Dumping Unit := do
  match ← arguments schedule
      [dump memory schedule fuel ⟨.string, some var.key⟩,
        dump memory schedule fuel ⟨.list, var.defn⟩] with
  | [name, value] => print (.element name value)
  | _ => failure

/-- `dumpfunctions`, `dumpsettors` or `dumpvariables`. -/
def dumpPass (pass : Pass) (var : Var) : Dumping Unit := do
  let key ← fetch (memory.string var.key)
  if pass.takes key then dumpdef memory schedule fuel var else pure ()

def dumpfunctions : Var → Dumping Unit := dumpPass memory schedule fuel .functions

def dumpsettors : Var → Dumping Unit := dumpPass memory schedule fuel .settors

def dumpvariables : Var → Dumping Unit := dumpPass memory schedule fuel .variables

/-- `runinitial`, once `initial.es` has been run: what it prints of the variables, in the order of
the dictionary. -/
def runinitial (vars : List Var) : Option (List Line) :=
  let printed : Dumping Unit := do
    vars.forM (dumpvar memory schedule fuel)
    print .defs
    vars.forM (dumpfunctions memory schedule fuel)
    vars.forM (dumpsettors memory schedule fuel)
    vars.forM (dumpvariables memory schedule fuel)
  (printed.run ⟨[], [], []⟩).map fun (_, state) => state.output

end

/-! ### The text -/

/-- `allprintable`. -/
def allprintable (s : Text) : Bool :=
  s.all fun c => isprint c && c != '"'.toUInt8 && c != '\\'.toUInt8

/-- An element of an array of characters. -/
def element (c : UInt8) : Text :=
  if c = 7 then lit "'\\a'"
  else if c = 8 then lit "'\\b'"
  else if c = 12 then lit "'\\f'"
  else if c = 10 then lit "'\\n'"
  else if c = 13 then lit "'\\r'"
  else if c = 9 then lit "'\\t'"
  else if c = '\''.toUInt8 then lit "'\\''"
  else if c = '\\'.toUInt8 then lit "'\\\\'"
  else if isprint c then lit "'" ++ [c] ++ lit "'"
  else dconv .none c.toUInt64

/-- What stands behind the name of a string. -/
def initializer (s : Text) : Text :=
  if allprintable s then lit "\"" ++ s ++ lit "\""
  else lit "\x7b " ++ s.flatMap (fun c => element c ++ lit ", ") ++ lit "'\\0', \x7d"

/-- The declaration of a constant, as it is printed. -/
def Declaration.text : Declaration → Option Text
  | .chars name s =>
      some (lit "static const char " ++ name ++ lit "[] = " ++ initializer s ++ lit ";\n")
  | .object (.Tree_s kind) name [s] => (nodename kind).map fun node =>
      lit "static const Tree_s " ++ name ++ lit " = \x7b n" ++ node ++
        lit ", \x7b \x7b (char *) " ++ s ++ lit " \x7d \x7d \x7d;\n"
  | .object (.Tree_p kind) name [p] => (nodename kind).map fun node =>
      lit "static const Tree_p " ++ name ++ lit " = \x7b n" ++ node ++
        lit ", \x7b \x7b (Tree *) " ++ p ++ lit " \x7d \x7d \x7d;\n"
  | .object (.Tree_pp kind) name [p, q] => (nodename kind).map fun node =>
      lit "static const Tree_pp " ++ name ++ lit " = \x7b n" ++ node ++
        lit ", \x7b \x7b (Tree *) " ++ p ++ lit " \x7d, \x7b (Tree *) " ++ q ++
          lit " \x7d \x7d \x7d;\n"
  | .object .Binding name [string, defn, next] =>
      some (lit "static const Binding " ++ name ++ lit " = \x7b (char *) " ++ string ++
        lit ", (List *) " ++ defn ++ lit ", (Binding *) " ++ next ++ lit " \x7d;\n")
  | .object .Closure name [binding, tree] =>
      some (lit "static const Closure " ++ name ++ lit " = \x7b (Binding *) " ++ binding ++
        lit ", (Tree *) " ++ tree ++ lit " \x7d;\n")
  | .object .Term name [str, closure] =>
      some (lit "static const Term " ++ name ++ lit " = \x7b (char *) " ++ str ++
        lit ", (Closure *) " ++ closure ++ lit " \x7d;\n")
  | .object .List name [term, next] =>
      some (lit "static const List " ++ name ++ lit " = \x7b (Term *) " ++ term ++
        lit ", (List *) " ++ next ++ lit " \x7d;\n")
  | .object .. => none

/-- A line as it is printed. -/
def Line.text : Line → Option Text
  | .declaration d => d.text
  | .defs => some
      (lit "\nstatic const struct \x7b const char *name; const List *value; \x7d defs[] = \x7b\n")
  | .element name value =>
      some (lit "\t\x7b " ++ name ++ lit ", (const List *) " ++ value ++ lit " \x7d,\n")

end Dump

end Desh
