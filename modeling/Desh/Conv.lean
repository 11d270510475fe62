/-
This file models the conversions of `conv.c` that print what the shell exports:
trees (`%T`), closures (`%C`), lists (`%#L`) and names (`%F`). A conversion that
fails an assertion, meets a node it does not know or follows a pointer that is
not a tree's returns `none`.
-/

import Desh.Quote
import Desh.Tree

namespace Desh

open Desh.Tree

/-! ### Trees -/

/-- `treecount`: the number of nodes in a flattened tree list. -/
def treecount : Tree → Nat
  | null => 0
  | nList p q => treecount p + treecount q
  | _ => 1

/-- Is a command called without braces around it? -/
def isThunkOrPrim : Tree → Bool
  | nThunk _ | nPrim _ => true
  | _ => false

mutual

/-- `Tconv`: print a tree, grouped (`%#T`) or not (`%T`). -/
def tconv (group : Bool) : Tree → Option Text
  | null => some (if group then lit "()" else [])
  | nWord s => some s
  | nQword s => some (sconv true s)
  | nPrim s => some (lit "$&" ++ s)
  | nAssign p q => do
      let name ← tconv true p
      let value ← tconv false q
      some (name ++ lit "=" ++ value)
  | nConcat p q => do
      let left ← tconv true p
      let right ← tconv true q
      some (left ++ lit "^" ++ right)
  | nMatch p q => do
      let subject ← tconv true p
      let patterns ← tconv false q
      some (lit "~ " ++ subject ++ lit " " ++ patterns)
  | nExtract p q => do
      let subject ← tconv true p
      let patterns ← tconv false q
      some (lit "~~ " ++ subject ++ lit " " ++ patterns)
  | nThunk p => do
      let body ← tconv false p
      some (lit "\x7b" ++ body ++ lit "\x7d")
  | nVarsub p q => do
      let name ← tconv true p
      let subscripts ← tconv false q
      some (lit "$" ++ name ++ lit "(" ++ subscripts ++ lit ")")
  | nLocal p q => do
      let bindings ← bindingsConv [] p
      let body ← tconv false q
      some (lit "local(" ++ bindings ++ lit ")" ++ body)
  | nLet p q => do
      let bindings ← bindingsConv [] p
      let body ← tconv false q
      some (lit "let(" ++ bindings ++ lit ")" ++ body)
  | nFor p q => do
      let bindings ← bindingsConv [] p
      let body ← tconv false q
      some (lit "for(" ++ bindings ++ lit ")" ++ body)
  | nClosure p q => do
      let bindings ← bindingsConv [] p
      let body ← tconv false q
      some (lit "%closure(" ++ bindings ++ lit ")" ++ body)
  | nCall p => do
      let command ← tconv false p
      some (lit "<=" ++ if isThunkOrPrim p then command else lit "\x7b" ++ command ++ lit "\x7d")
  | nVar null => some (lit "$" ++ if group then lit "()" else [])
  | nVar (nWord s) => some (lit "$" ++ s)
  | nVar (nQword s) => some (lit "$" ++ sconv true s)
  | nVar p => do
      let name ← tconv true p
      some (lit "$(" ++ name ++ lit ")")
  | nLambda p q => do
      let params ← tconv false p
      let body ← tconv false q
      some (lit "@ " ++ (if p = null then lit "* " else params) ++ lit "\x7b" ++ body ++ lit "\x7d")
  | nList p q => do
      let count := treecount (nList p q)
      let first ← tconv false p
      if group && count == 0 then some (lit "()")
      else if group && count == 1 then do
        let rest ← tconv false q
        some (first ++ rest)
      else do
        let rest ← match q with
          | null => some []
          | nList p q => do
              let rest ← tconv false (nList p q)
              some (lit " " ++ rest)
          | _ => none
        some (if group then lit "(" ++ first ++ rest ++ lit ")" else first ++ rest)
  | nRedir _ _ | nPipe _ _ | placeholder => none

/-- The loop of `binding`: the assignments of a binding statement. -/
def bindingsConv (sep : Text) : Tree → Option Text
  | null => some []
  | nList (nAssign p q) next => do
      let name ← tconv true p
      let value ← tconv false q
      let rest ← bindingsConv (lit ";") next
      some (sep ++ name ++ lit "=" ++ value ++ rest)
  | _ => none

end

/-! ### Closures and lists -/

/-- `Lconv` with `%#L` and a blank: a list of strings, each quoted where it has to be. -/
def lconv : List Text → Text
  | [] => []
  | [s] => sconv false s
  | s :: next :: list => sconv false s ++ lit " " ++ lconv (next :: list)

/-- `enclose`: the bindings of a closure, innermost first, are printed outermost first. -/
def enclose : List (Text × List Text) → Text → Text
  | [], _ => []
  | (name, defn) :: next, sep =>
      enclose next (lit ";") ++ sconv false name ++ lit "=" ++ lconv defn ++ sep

/-- `Cconv`: a closure, from its tree and the strings its bindings hold. -/
def cconv (tree : Tree) (binding : List (Text × List Text)) : Option Text :=
  (tconv false tree).map fun body =>
    if binding = [] then body else lit "%closure(" ++ enclose binding [] ++ lit ")" ++ body

/-! ### Names -/

/-- The two digits of `%02x`. -/
def hexDigits (c : UInt8) : Text :=
  [Nat.digitChar (c.toNat / 16), Nat.digitChar (c.toNat % 16)].map Char.toUInt8

/-- The loop of `Fconv`; the first byte of a name may not be a digit. -/
def fconvLoop (first : Bool) : Text → Text
  | [] => []
  | c :: s =>
      (if (if first then isalpha c else isalnum c) || (c == 95 && s.head? != some 95) then [c]
        else lit "__" ++ hexDigits c) ++ fconvLoop false s

/-- `Fconv`: a name, protected for the environment. -/
def fconv (name : Text) : Text := fconvLoop true name

end Desh
