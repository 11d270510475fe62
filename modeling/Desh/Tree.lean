/-
This file models the parse trees of the shell (`tree.c`) and the functions the
grammar's actions build them with (`syntax.c`).

A null tree pointer is the constructor `null`. The builders are destructive in
the source, but each consumes the trees it is given, so they are functions
here. A builder that can fail an assertion, or follow a null pointer, returns
`none` there.
-/

import Desh.Text

namespace Desh

/-! ### Trees -/

/-- `Tree`. `placeholder` is the static node of that name, whose kind is `nRedir`. -/
inductive Tree where
  | null
  | nWord (s : Text)
  | nQword (s : Text)
  | nPrim (s : Text)
  | nCall (p : Tree)
  | nThunk (p : Tree)
  | nVar (p : Tree)
  | nAssign (p q : Tree)
  | nConcat (p q : Tree)
  | nClosure (p q : Tree)
  | nFor (p q : Tree)
  | nLambda (p q : Tree)
  | nLet (p q : Tree)
  | nList (p q : Tree)
  | nLocal (p q : Tree)
  | nVarsub (p q : Tree)
  | nMatch (p q : Tree)
  | nExtract (p q : Tree)
  | nRedir (p q : Tree)
  | nPipe (i j : Int)
  | placeholder
  deriving DecidableEq

namespace Tree

/-- The list tree of a list of trees. -/
def ofList : List Tree → Tree
  | [] => null
  | t :: rest => nList t (ofList rest)

@[simp] theorem ofList_nil : ofList [] = null := rfl

@[simp] theorem ofList_cons (t : Tree) (rest : List Tree) :
    ofList (t :: rest) = nList t (ofList rest) := rfl

end Tree

open Desh.Tree

/-! ### List builders -/

/-- `treecons`: a new list cell; the tail has to be a list. -/
def treecons (car cdr : Tree) : Option Tree :=
  match cdr with
  | null | nList _ _ => some (nList car cdr)
  | _ => none

/-- `treecons2`: a new list cell, or the tail alone when the head is null. -/
def treecons2 (car cdr : Tree) : Option Tree :=
  match cdr with
  | null | nList _ _ => some (if car = null then cdr else nList car cdr)
  | _ => none

/-- `treeappend`: append to the end of a chain of list and redirection cells. -/
def treeappend (head tail : Tree) : Option Tree :=
  match head with
  | null => some tail
  | nList car cdr => (treeappend cdr tail).map (nList car)
  | nRedir car cdr => (treeappend cdr tail).map (nRedir car)
  | _ => none

/-- `treeconsend`: append one element. -/
def treeconsend (head tail : Tree) : Option Tree :=
  (treecons tail null).bind (treeappend head)

/-- `treeconsend2`: append one element, or nothing when it is null. -/
def treeconsend2 (head tail : Tree) : Option Tree :=
  if tail = null then
    match head with
    | null | nList _ _ | nRedir _ _ | placeholder => some head
    | _ => none
  else treeconsend head tail

/-! ### Rewriting -/

/-- `thunkify`: wrap a tree in a thunk unless it is one already. A list cell's head is read
without a null test. -/
def thunkify (tree : Tree) : Option Tree :=
  match tree with
  | nThunk _ => some tree
  | nList null _ => none
  | nList (nThunk _) null => some tree
  | _ => some (nThunk tree)

/-- `firstis`: is the first word of a literal command the given one? -/
def firstis (t : Tree) (s : Text) : Bool :=
  match t with
  | nList (nWord first) _ => first == s
  | _ => false

/-- `prefix`: prefix a tree with a word. -/
def prefixed (s : Text) (t : Tree) : Option Tree :=
  treecons (nWord s) t

/-- `flatten`: the call that joins the values of a tree to one word. -/
def flatten (t : Tree) (sep : Text) : Tree :=
  nCall (ofList [nWord (lit "%flatten"), nQword sep, t])

/-- `backquote`: the call that runs a command and splits its output. -/
def backquote (ifs body : Tree) : Tree :=
  nCall (ofList [nWord (lit "%backquote"), flatten ifs [], body])

/-- `fnassign`: a function definition is an assignment. -/
def fnassign (name defn : Tree) : Tree :=
  nAssign (nConcat (nWord (lit "fn-")) name) defn

/-- `mklambda`. -/
def mklambda (params body : Tree) : Tree :=
  nLambda params body

/-- The cells after the first of a command that `firstis` accepted. -/
def cdrOf : Tree → Tree
  | nList _ cdr => cdr
  | _ => null

/-- `mkseq`: put two commands in a sequence, merging sequences of the same operator. -/
def mkseq (op : Text) (t1 t2 : Tree) : Option Tree :=
  if op = lit "%seq" ∧ t1 = null then some t2
  else if op = lit "%seq" ∧ t2 = null then some t1
  else do
    let sametail := firstis t2 op
    let tail ← if sametail then some (cdrOf t2) else (thunkify t2).bind fun t => treecons t null
    if firstis t1 op then treeappend t1 tail
    else
      let t1 ← thunkify t1
      if sametail then (treecons t1 tail).map (nList (nWord op))
      else (treecons t1 tail).bind (prefixed op)

/-- A descriptor number as a word prints it. -/
def decimal (n : Int) : Text := lit (toString n)

/-- `mkpipe`: assemble a pipe from its commands and the two descriptor numbers. -/
def mkpipe (t1 : Tree) (outfd infd : Int) (t2 : Tree) : Option Tree := do
  let pipetail := firstis t2 (lit "%pipe")
  let last ← if pipetail then some (cdrOf t2) else (thunkify t2).bind fun t => treecons t null
  let tail ← (prefixed (decimal infd) last).bind (prefixed (decimal outfd))
  if firstis t1 (lit "%pipe") then treeappend t1 tail
  else
    let t1 ← thunkify t1
    if pipetail then (treecons t1 tail).map (nList (nWord (lit "%pipe")))
    else (treecons t1 tail).bind (prefixed (lit "%pipe"))

/-! ### Redirections -/

/-- `mkredircmd`: the command word and descriptor of a redirection. -/
def mkredircmd (cmd : Text) (fd : Int) : Tree :=
  ofList [nWord cmd, nWord (decimal fd)]

/-- `mkclose`. -/
def mkclose (fd : Int) : Tree :=
  ofList [nWord (lit "%close"), nWord (decimal fd), placeholder]

/-- `mkdup`. -/
def mkdup (fd0 fd1 : Int) : Tree :=
  ofList [nWord (lit "%dup"), nWord (decimal fd0), nWord (decimal fd1), placeholder]

end Desh
