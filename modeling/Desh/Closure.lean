/-
This file models how `closure.c` turns the parse tree of a printed closure back
into a closure: `extract` collects the assignments of one `%closure(...)` prefix
and `extractbindings` the prefixes. A value that stands for the closure itself
(`$&nestedbinding`) is kept as such, since the closure does not exist yet.
-/

import Desh.Conv
import Desh.Glom

namespace Desh

open Desh.Tree

/-! ### Names of variables -/

/-- How a C function can end without a result: a failed assertion (or a null pointer followed),
or an exception raised by `fail`. -/
inductive Failure where
  | assertion
  | fail (source message : Text)
  deriving DecidableEq

/-- `iscounting`: is it a counter number, an integer above zero? -/
def iscounting (name : Text) : Bool :=
  let s := name.dropWhile fun c => c == '0'.toUInt8
  !s.isEmpty && s.all isdigit

/-- `validatevar`. -/
def validatevar (var : Text) : Except Failure Unit :=
  if var = [] then .error (.fail (lit "desh:var") (lit "zero-length variable name"))
  else if iscounting var then
    .error (.fail (lit "desh:var") (lit "illegal variable name: " ++ sconv false var))
  else .ok ()

/-! ### Bindings of a printed closure -/

/-- A value read by `extract`: a string, or the closure that is being built. -/
inductive Value where
  | str (s : Text)
  | nested
  deriving DecidableEq

/-- The elements of a list tree, `none` where `revtree` fails its assertion. -/
def listOf : Tree → Option (List Tree)
  | null => some []
  | nList p q => (listOf q).map (p :: ·)
  | _ => none

def parseFail (message : Text) : Failure := .fail (lit "$&parse") message

/-- The inner loop of `extract`, over the reversed words of one assignment. The count before
`$&nestedbinding` says how many closures up the one meant is; no `extract` runs inside another,
so there is only one. -/
def extractWords : List Tree → List Value → Except Failure (List Value)
  | [], list => .ok list
  | nWord s :: defn, list => extractWords defn (.str s :: list)
  | nQword s :: defn, list => extractWords defn (.str s :: list)
  | nPrim prim :: defn, list =>
      if prim = lit "nestedbinding" then
        match defn with
        | nWord s :: defn =>
            if atoi s < 0 then .error (parseFail (lit "improper use of $&nestedbinding"))
            else if atoi s = 0 then extractWords defn (.nested :: list)
            else .error (parseFail (lit "bad count in $&nestedbinding: " ++ decimal (atoi s)))
        | null :: _ => .error .assertion
        | _ => .error (parseFail (lit "improper use of $&nestedbinding"))
      else .error (parseFail (lit "bad unquoted primitive in %closure: $&" ++ prim))
  | _ :: _, _ => .error .assertion

/-- The body of the outer loop of `extract`: one assignment. -/
def extractBinding (defn : Tree) : Except Failure (Text × List Value) :=
  match defn with
  | nAssign (nWord name) value | nAssign (nQword name) value =>
      match listOf value with
      | some words => do
          let list ← extractWords words.reverse []
          validatevar name
          .ok (name, list)
      | none => .error .assertion
  | _ => .error .assertion

/-- `extract`: add the assignments of one prefix to the bindings, each in front. -/
def extract : Tree → List (Text × List Value) → Except Failure (List (Text × List Value))
  | null, bindings => .ok bindings
  | nList null next, bindings => extract next bindings
  | nList defn next, bindings => do
      let binding ← extractBinding defn
      extract next (binding :: bindings)
  | _, _ => .error .assertion

/-- A list of one element stands for the element. -/
def unlist : Tree → Tree
  | nList p null => p
  | tree => tree

/-- The loop of `extractbindings` over the prefixes. -/
def extractPrefixes : Tree → List (Text × List Value) →
    Except Failure (List (Text × List Value) × Tree)
  | null, _ => .error .assertion
  | nClosure p (nList q null), bindings => do
      let bindings ← extract p bindings
      extractPrefixes q bindings
  | nClosure p q, bindings => do
      let bindings ← extract p bindings
      extractPrefixes q bindings
  | tree, bindings => .ok (bindings, tree)

/-- `extractbindings`: the bindings, innermost first, and the tree of the closure. -/
def extractbindings (tree : Tree) : Except Failure (List (Text × List Value) × Tree) :=
  extractPrefixes (unlist tree) []

end Desh
