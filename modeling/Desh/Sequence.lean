/-
This file models how commands that are joined by `%seq`, `%and` or `%or` are
evaluated: the words of a command by `walk`, the list they come to by `eval`,
and the joined commands one by one, by the primitive `$&seq` and by the
functions of `initial.es`.

What other commands do is a parameter. The limit on the depth of `eval` and the
signals polled for are left out.
-/

import Desh.Eval
import Desh.Glob
import Desh.Glom

namespace Desh

open Desh.Tree

/-! ### Computations that may not end -/

/-- A computation with a state and exceptions. It may not end. -/
abbrev Run (State Exception : Type) := ExceptT Exception (StateT State Option)

/-- A computation that ends. -/
def Run.lift {State Exception α : Type} (x : EStateM Exception State α) : Run State Exception α :=
  ExceptT.mk fun state =>
    match x state with
    | .ok value state => some (.ok value, state)
    | .error exception state => some (.error exception, state)

/-! ### The shell -/

/-- The operators that join commands. -/
inductive Connective where
  | seq
  | and
  | or
  deriving DecidableEq

/-- The name of the function, as which the parser writes the operator. -/
def Connective.word : Connective → Text
  | seq => lit "%seq"
  | and => lit "%and"
  | or => lit "%or"

/-- The flags of `eval` when none is set. -/
def EvalFlags.none : EvalFlags := ⟨false, false⟩

/-- What the evaluation of joined commands calls. The functions `%seq`, `%and` and `%or` are those
of `initial.es`. -/
structure Runner (State Binding Shared Exception : Type) extends
    Interpreter State Binding Shared Exception where
  glob1 : Text → Mask → EStateM Exception State (List Text)
  ltrue : List Shared
  lfalse : List Shared
  istrue : List Shared → State → Bool
  /-- The shell exits with the status of a list, which ends everything as an exception does that
  nobody catches. -/
  exit : List Shared → Exception
  /-- `walk` of a tree that is not a command of words. -/
  walkOther : Tree → Binding → EvalFlags → Run State Exception (List Shared)
  /-- `eval` up to its label `done`, of a list that starts neither with the name of a `Connective`
  nor with a block of the tree. -/
  evalOther : List (Term Binding Shared) → Binding → EvalFlags →
    Run State Exception (List Shared)
  istrue_ltrue : ∀ state, istrue ltrue state = true
  istrue_lfalse : ∀ state, istrue lfalse state = false

namespace Runner

variable {State Binding Shared Exception : Type} (shell : Runner State Binding Shared Exception)

/-- `glob`: tildes are expanded, then wildcards if there are any. -/
def glob (list : List (Term Binding Shared)) (quote : List Mask) :
    EStateM Exception State (List (Term Binding Shared)) := do
  let ((list, quote), doglobbing) ← shell.globTildes list quote
  if doglobbing then
    glob0 (fun term => observing (shell.getstr term)) .str shell.glob1 (list.zip quote)
  else pure list

/-- `glom`, with globbing. -/
def glom (tree : Tree) (binding : Binding) :
    EStateM Exception State (List (Term Binding Shared)) := do
  let (list, quote) ← shell.glom2 tree binding
  shell.glob list quote

/-- `istrue`, in the current state. -/
def tests (list : List Shared) : Run State Exception Bool := .lift (observing (shell.istrue list))

/-- The label `done` of `eval`. -/
def finish (flags : EvalFlags) (list : List Shared) : Run State Exception (List Shared) := do
  if flags.exitonfalse then
    if ← shell.tests list then pure list else throw (shell.exit list)
  else pure list

end Runner

namespace Sequence

variable {State Binding Shared Exception : Type} (shell : Runner State Binding Shared Exception)

mutual

/-- `walk`. -/
def walk (tree : Tree) (binding : Binding) (flags : EvalFlags) :
    Run State Exception (List Shared) :=
  match tree with
  | null => pure shell.ltrue
  | nConcat _ _ | nList _ _ | nQword _ | nVar _ | nVarsub _ _ | nWord _ | nThunk _ | nLambda _ _
  | nCall _ | nPrim _ => do
      let list ← .lift (shell.glom tree binding)
      -- The calls are put as in `iterateFrom`.
      by apply eval; exacts [list, binding, flags]
  | _ => shell.walkOther tree binding flags
partial_fixpoint

/-- `eval`. -/
def eval (list : List (Term Binding Shared)) (binding : Binding) (flags : EvalFlags) :
    Run State Exception (List Shared) :=
  match list with
  | [] => pure shell.ltrue
  | .closure (nThunk p) context :: _ => do
      let list ← by apply walk; exacts [p, context, flags]
      shell.finish flags list
  | .str name :: next => do
      let list ← (
        if name = Connective.seq.word then by apply primSeq; exacts [next, flags]
        else if name = Connective.and.word then by apply fnAnd; exacts [next, flags]
        else if name = Connective.or.word then by apply fnOr; exacts [next, flags]
        else shell.evalOther list binding flags)
      shell.finish flags list
  | list => do
      let list ← shell.evalOther list binding flags
      shell.finish flags list
partial_fixpoint

/-- `PRIM(seq)`. -/
def primSeq (list : List (Term Binding Shared)) (flags : EvalFlags) :
    Run State Exception (List Shared) :=
  match list with
  | [] => pure shell.ltrue
  | [term] => by apply eval; exacts [[term], shell.nullBinding, flags]
  | term :: next => do
      let _ ← by apply eval; exacts [[term], shell.nullBinding, { flags with inchild := false }]
      by apply primSeq; exacts [next, flags]
partial_fixpoint

/-- `fn-%and`. -/
def fnAnd (list : List (Term Binding Shared)) (flags : EvalFlags) :
    Run State Exception (List Shared) := do
  let result ← by apply eval; exacts [list.take 1, shell.nullBinding, .none]
  if list.tail = [] then shell.finish flags result
  else if ← shell.tests result then
    by apply eval; exacts [.str Connective.and.word :: list.tail, shell.nullBinding, flags]
  else shell.finish flags result
partial_fixpoint

/-- `fn-%or`. -/
def fnOr (list : List (Term Binding Shared)) (flags : EvalFlags) :
    Run State Exception (List Shared) := do
  if list = [] then shell.finish flags shell.lfalse
  else
    let result ← by apply eval; exacts [list.take 1, shell.nullBinding, .none]
    if list.tail = [] then shell.finish flags result
    else if ← shell.tests result then shell.finish flags result
    else by apply eval; exacts [.str Connective.or.word :: list.tail, shell.nullBinding, flags]
partial_fixpoint

end

end Sequence

end Desh
