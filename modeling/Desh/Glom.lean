/-
This file models `glom.cpp`, which turns a parse tree of words into a list of
terms, and the pass of `glob.cpp` that expands tildes. `glom2` also returns for
every term which of its characters are quoted, in one of three forms.

The rest of the interpreter is a parameter: what variables and commands
evaluate to, how the terms they share with the rest of the shell are printed,
and the exceptions. A term made here from text is that text.
-/

import Desh.Tree
import Desh.Agree

namespace Desh

/-! ### The rest of the interpreter -/

/-- What `glom.cpp` and `glob.cpp` call. `Shared` are the terms that come from elsewhere; how they
and closures are printed depends on the state. -/
structure Interpreter (State Binding Shared Exception : Type) where
  varlookup : Text → Binding → EStateM Exception State (List Shared)
  walk : Tree → Binding → EStateM Exception State (List Shared)
  /-- `eval` of the first list with a string appended, if there is one. -/
  evalAppend : List Shared → Option Text → EStateM Exception State (List Shared)
  sharedStr : Shared → State → Text
  sharedIsClosure : Shared → State → Bool
  closureStr : Tree → Binding → State → Text
  /-- The binding `NULL`. -/
  nullBinding : Binding
  /-- `fail`: who fails, and why. -/
  fail : Text → Text → Exception
  /-- A failed assertion, or a list that ends too early. -/
  abort : Exception

/-- A term: text, a closure of a tree, or a term shared with the rest of the shell. -/
inductive Term (Binding Shared : Type) where
  | str (s : Text)
  | closure (tree : Tree) (binding : Binding)
  | shared (term : Shared)

/-- What is quoted of a word: everything, nothing, or what `marks` has a `q` for. -/
inductive Mask where
  | QUOTED
  | UNQUOTED
  | marks (q : Text)
  deriving DecidableEq

variable {State Binding Shared Exception : Type}

namespace Interpreter

variable (interpreter : Interpreter State Binding Shared Exception)

/-- `getstr`. -/
def getstr (term : Term Binding Shared) (state : State) : Text :=
  match term with
  | .str s => s
  | .closure tree binding => interpreter.closureStr tree binding state
  | .shared term => interpreter.sharedStr term state

/-! ### Concatenation -/

/-- `termcat`. -/
def termcat (t1 t2 : Term Binding Shared) (state : State) : Term Binding Shared :=
  .str (interpreter.getstr t1 state ++ interpreter.getstr t2 state)

/-- `concat`. -/
def concat (list1 list2 : List (Term Binding Shared)) (state : State) :
    List (Term Binding Shared) :=
  list1.flatMap fun t1 => list2.map fun t2 => interpreter.termcat t1 t2 state

/-- The characters a mask stands for on a word. -/
def qcatMarks (q : Mask) (t : Term Binding Shared) (state : State) : Text :=
  match q with
  | .QUOTED => List.replicate (interpreter.getstr t state).length 'q'.toUInt8
  | .UNQUOTED => List.replicate (interpreter.getstr t state).length 'r'.toUInt8
  | .marks q => q

/-- `qcat`. -/
def qcat (q1 q2 : Mask) (t1 t2 : Term Binding Shared) (state : State) : Mask :=
  match q1, q2 with
  | .QUOTED, .QUOTED => .QUOTED
  | .UNQUOTED, .UNQUOTED => .UNQUOTED
  | q1, q2 => .marks (interpreter.qcatMarks q1 t1 state ++ interpreter.qcatMarks q2 t2 state)

/-- The inner loop of `qconcat`: `none` where the quote list ends before the list does. -/
def qconcatRow (t1 : Term Binding Shared) (q1 : Mask) (state : State) :
    List (Term Binding Shared) → List Mask → Option (List (Term Binding Shared) × List Mask)
  | [], _ => some ([], [])
  | _ :: _, [] => none
  | t2 :: list2, q2 :: ql2 =>
      (qconcatRow t1 q1 state list2 ql2).map fun (list, quote) =>
        (interpreter.termcat t1 t2 state :: list, interpreter.qcat q1 q2 t1 t2 state :: quote)

/-- `qconcat`. -/
def qconcat (list2 : List (Term Binding Shared)) (ql2 : List Mask) (state : State) :
    List (Term Binding Shared) → List Mask → Option (List (Term Binding Shared) × List Mask)
  | [], _ => some ([], [])
  | _ :: _, [] => none
  | t1 :: list1, q1 :: ql1 =>
      (interpreter.qconcatRow t1 q1 state list2 ql2).bind fun (list, quote) =>
        (qconcat list2 ql2 state list1 ql1).map fun (rest, restQuote) =>
          (list ++ rest, quote ++ restQuote)

end Interpreter

/-! ### Subscripts -/

def isspace (c : UInt8) : Bool := c == ' '.toUInt8 || (9 ≤ c && c ≤ 13)

/-- The value of a run of digits. -/
def digitsValue (digits : Text) : Int :=
  digits.foldl (fun n c => n * 10 + ((c - '0'.toUInt8).toNat : Int)) 0

/-- `atoi`: the `long` of `strtol`, cut down to an `int`. -/
def atoi (s : Text) : Int :=
  let s := s.dropWhile isspace
  let (sign, s) : Int × Text :=
    match s with
    | c :: rest =>
        if c = '-'.toUInt8 then (-1, rest) else if c = '+'.toUInt8 then (1, rest) else (1, s)
    | [] => (1, s)
  let n := sign * digitsValue (s.takeWhile isdigit)
  (max (-2 ^ 63) (min (2 ^ 63 - 1) n)).bmod (2 ^ 32)

section

variable {α : Type}

/-- What `subscript` collects for the range from `lo` to `hi`, given the counter and the rest of
the list it is at, and where that leaves them. -/
def subscriptRange (list : List α) (lo hi counter : Nat) (current : List α) :
    List α × Nat × List α :=
  if list.length < lo then ([], counter, current)
  else
    let (counter, current) := if lo < counter then (1, list) else (counter, current)
    let current := current.drop (lo - counter)
    (current.take (hi + 1 - lo), max lo (hi + 1), current.drop (hi + 1 - lo))

/-- The loop of `subscript`: it fails with the bad subscript. -/
def subscriptLoop (list : List α) : List Text → Nat → List α → Except Text (List α)
  | [], _, _ => .ok []
  | sub :: subs, counter, current =>
      if atoi sub < 1 then .error sub
      else
        match subs with
        | dots :: subs' =>
            if dots = lit "..." then
              match subs' with
              | [] => .ok (subscriptRange list (atoi sub).toNat list.length counter current).1
              | sub2 :: subs'' =>
                  if atoi sub2 < 1 then .error sub2
                  else
                    let (taken, counter, current) := subscriptRange list (atoi sub).toNat
                      (min (atoi sub2).toNat list.length) counter current
                    (subscriptLoop list subs'' counter current).map (taken ++ ·)
            else
              let (taken, counter, current) :=
                subscriptRange list (atoi sub).toNat (atoi sub).toNat counter current
              (subscriptLoop list (dots :: subs') counter current).map (taken ++ ·)
        | [] => .ok (subscriptRange list (atoi sub).toNat (atoi sub).toNat counter current).1

/-- `subscript`: subscripts that start with `...` start at 1. -/
def subscript (list : List α) (subs : List Text) : Except Text (List α) :=
  match subs with
  | dots :: rest =>
      if dots = lit "..." then
        match rest with
        | [] => .ok (subscriptRange list 1 list.length 1 list).1
        | sub2 :: rest' =>
            if atoi sub2 < 1 then .error sub2
            else
              let (taken, counter, current) :=
                subscriptRange list 1 (min (atoi sub2).toNat list.length) 1 list
              (subscriptLoop list rest' counter current).map (taken ++ ·)
      else subscriptLoop list (dots :: rest) 1 list
  | [] => .ok []

end

/-! ### The glommers -/

/-- The number of a node kind. -/
def Tree.kind : Tree → Nat
  | .nAssign .. => 0
  | .nCall .. => 1
  | .nClosure .. => 2
  | .nConcat .. => 3
  | .nFor .. => 4
  | .nLambda .. => 5
  | .nLet .. => 6
  | .nList .. => 7
  | .nLocal .. => 8
  | .nMatch .. => 9
  | .nExtract .. => 10
  | .nPrim .. => 11
  | .nQword .. => 12
  | .nThunk .. => 13
  | .nVar .. => 14
  | .nVarsub .. => 15
  | .nWord .. => 16
  | .nRedir .. | .placeholder | .null => 17
  | .nPipe .. => 18

/-- The text of `%d`. -/
def decimalDigits (n : Nat) : Text := (Nat.toDigits 10 n).map Char.toUInt8

namespace Interpreter

variable (interpreter : Interpreter State Binding Shared Exception)

/-- `fail` of the glommers. -/
def glomFail (message : Text) : Exception := interpreter.fail (lit "desh:glom") message

/-- The failure of `subscript`. -/
def subscriptFail (bad : Text) : Exception :=
  interpreter.fail (lit "es:subscript") (lit "bad subscript: " ++ bad)

/-- The loop of the case `nVar`: the values of each named variable. -/
def lookupAll (binding : Binding) :
    List (Term Binding Shared) → EStateM Exception State (List (Term Binding Shared))
  | [] => pure []
  | var :: rest => do
      let name ← observing (interpreter.getstr var)
      let list ← interpreter.varlookup name binding
      let others ← lookupAll binding rest
      return list.map Term.shared ++ others

/-- `glom1`. -/
def glom1 : Tree → Binding → EStateM Exception State (List (Term Binding Shared))
  | .null, _ => pure []
  | .nQword s, _ => pure [.str s]
  | .nWord s, _ => pure [.str s]
  | .nThunk p, binding => pure [.closure (.nThunk p) binding]
  | .nLambda p q, binding => pure [.closure (.nLambda p q) binding]
  | .nPrim s, _ => pure [.closure (.nPrim s) interpreter.nullBinding]
  | .nVar p, binding => do
      let var ← glom1 p binding
      interpreter.lookupAll binding var
  | .nVarsub p q, binding => do
      match ← glom1 p binding with
      | [] => throw (interpreter.glomFail (lit "null variable name in subscript"))
      | [term] =>
          let name ← observing (interpreter.getstr term)
          let list ← interpreter.varlookup name binding
          let sub ← glom1 q binding
          let subs ← observing fun state => sub.map fun term => interpreter.getstr term state
          match subscript (list.map Term.shared) subs with
          | .ok list => pure list
          | .error bad => throw (interpreter.subscriptFail bad)
      | _ => throw (interpreter.glomFail (lit "multi-word variable name in subscript"))
  | .nCall p, binding => do
      let list ← interpreter.walk p binding
      return list.map Term.shared
  | .nList p q, binding => do
      let list ← glom1 p binding
      let rest ← glom1 q binding
      return list ++ rest
  | .nConcat p q, binding => do
      let l ← glom1 p binding
      let r ← glom1 q binding
      observing (interpreter.concat l r)
  | tree, _ =>
      throw (interpreter.glomFail (lit "glom1: bad node kind " ++ decimalDigits tree.kind))

/-- The end of the loop of `glom2`, which walks the new terms and their quote flags in step: it
aborts where one list is longer than the other. -/
def inStep (result : List (Term Binding Shared) × List Mask) :
    EStateM Exception State (List (Term Binding Shared) × List Mask) :=
  if result.1.isEmpty then pure ([], [])
  else if result.1.length = result.2.length then pure result
  else throw interpreter.abort

/-- `glom2`: the terms and the quote list. -/
def glom2 : Tree → Binding → EStateM Exception State (List (Term Binding Shared) × List Mask)
  | .null, _ => pure ([], [])
  | .nWord s, _ => interpreter.inStep ([.str s], [.UNQUOTED])
  | .nList p q, binding => do
      let first ← glom2 p binding
      let (list, quote) ← interpreter.inStep first
      let (rest, restQuote) ← glom2 q binding
      return (list ++ rest, quote ++ restQuote)
  | .nConcat p q, binding => do
      let (l, ql) ← glom2 p binding
      let (r, qr) ← glom2 q binding
      match ← observing fun state => interpreter.qconcat r qr state l ql with
      | some result => interpreter.inStep result
      | none => throw interpreter.abort
  | tree, binding => do
      let list ← interpreter.glom1 tree binding
      interpreter.inStep (list, list.map fun _ => .QUOTED)

/-! ### Tilde expansion -/

end Interpreter

/-- `hastilde`. -/
def hastilde (s : Text) (q : Mask) : Bool :=
  s.head? == some '~'.toUInt8 &&
    match q with
    | .QUOTED => false
    | .UNQUOTED => true
    | .marks q => q.head? == some 'r'.toUInt8

/-- `haswild`. -/
def haswild (s : Text) (q : Mask) : Bool :=
  let wild (c : UInt8) : Bool := c == '*'.toUInt8 || c == '?'.toUInt8 || c == '['.toUInt8
  match q with
  | .QUOTED => false
  | .UNQUOTED => s.any wild
  | .marks q => (s.zip q).any fun (c, r) => wild c && r == 'r'.toUInt8

/-- The quote flags of the expanded word: the characters of the home directory are quoted, those
from `slash` on as they were. -/
def expandhomeMask (q : Mask) (homelen pathlen slash : Nat) : Mask :=
  match q with
  | .QUOTED => .QUOTED
  | .UNQUOTED =>
      .marks (List.replicate homelen 'q'.toUInt8 ++ List.replicate (pathlen - slash) 'r'.toUInt8)
  | .marks q =>
      if 'r'.toUInt8 ∉ q then .QUOTED
      else .marks (List.replicate homelen 'q'.toUInt8 ++ (q.drop slash).take (pathlen - slash))

namespace Interpreter

variable (interpreter : Interpreter State Binding Shared Exception)

/-- `expandhome`: the expanded string, and its quote flags. -/
def expandhome (s : Text) (q : Mask) : EStateM Exception State (Text × Mask) := do
  let fn ← interpreter.varlookup (lit "fn-%home") interpreter.nullBinding
  if fn.isEmpty then return (s, q)
  else
    let slash := 1 + (s.tail.takeWhile fun c => c != '/'.toUInt8).length
    let list ← interpreter.evalAppend fn
      (if 1 < slash then some ((s.drop 1).take (slash - 1)) else none)
    match list with
    | [] => return (s, q)
    | [term] =>
        let home ← observing (interpreter.sharedStr term)
        if slash < s.length then
          return (home ++ s.drop slash, expandhomeMask q home.length s.length slash)
        else return (home, .QUOTED)
    | _ =>
        throw (interpreter.fail (lit "es:expandhome") (lit "%home returned more than one value"))

/-- `isclosure`. -/
def isclosure (term : Term Binding Shared) (state : State) : Bool :=
  match term with
  | .str _ => false
  | .closure .. => true
  | .shared term => interpreter.sharedIsClosure term state

/-- The assertions of the loop of `glob`, which ties a mask to the string it is for. -/
def globAsserts (term : Term Binding Shared) (q : Mask) (state : State) : Bool :=
  !interpreter.isclosure term state &&
    match q with
    | .marks q => q.length == (interpreter.getstr term state).length
    | _ => true

/-- The loop of `glob`: the list and its quote list with the tildes expanded, and whether there is
anything to match. -/
def globTildes : List (Term Binding Shared) → List Mask →
    EStateM Exception State ((List (Term Binding Shared) × List Mask) × Bool)
  | [], _ => pure (([], []), false)
  | _ :: _, [] => throw interpreter.abort
  | term :: terms, q :: quote => do
      if q = .QUOTED then
        let ((terms, quote), doglobbing) ← globTildes terms quote
        return ((term :: terms, q :: quote), doglobbing)
      else
        if ← observing (interpreter.globAsserts term q) then
          let s ← observing (interpreter.getstr term)
          if hastilde s q then
            let (s, q) ← interpreter.expandhome s q
            let ((terms, quote), doglobbing) ← globTildes terms quote
            return ((.str s :: terms, q :: quote), haswild s q || doglobbing)
          else
            let ((terms, quote), doglobbing) ← globTildes terms quote
            return ((term :: terms, q :: quote), haswild s q || doglobbing)
        else throw interpreter.abort

end Interpreter

end Desh
