/-
This file says what order redirections are to be applied in: a simple command
with redirections before, between and behind its words stands for one call for
each redirection, nested in the order they are written, around the command. A
redirection from or to a block binds a variable, by whose value the command
gets at the pipe.
-/

import Desh.Shape

namespace Desh

open Desh.Tree

/-! ### What is written -/

/-- A word or a redirection of a simple command. -/
inductive CommandPart where
  | first (first : Derivation .first)
  | word (word : Derivation .word)
  | redir (redir : Derivation .redir)

namespace Derivation

/-- Is it a simple command, with any redirections in front of it? It may be empty. -/
def isSimple : {symbol : Nonterminal} → Derivation symbol → Bool
  | _, cmdRedir _ cmd => isSimple cmd
  | _, cmdSimple _ | _, cmdEmpty => true
  | _, _ => false

/-- The words and the redirections of a simple command from left to right. -/
def commandParts : {symbol : Nonterminal} → Derivation symbol → List CommandPart
  | _, cmdRedir redir cmd => .redir redir :: commandParts cmd
  | _, cmdSimple simple => commandParts simple
  | _, simpleFirst first => [.first first]
  | _, simpleWord simple word => commandParts simple ++ [.word word]
  | _, simpleRedir simple redir => commandParts simple ++ [.redir redir]
  | _, _ => []

/-- The block that a word is. -/
def block : {symbol : Nonterminal} → Derivation symbol → Option (Derivation .body)
  | _, wordSword sword => block sword
  | _, swordComword comword => block comword
  | _, comwordBody body => some body
  | _, _ => none

end Derivation

/-- The function that runs a block with a pipe. -/
def Operator.device : Operator → Option Text
  | «open» => some (lit "%readfrom")
  | create => some (lit "%writeto")
  | _ => none

/-- The block a redirection reads from or writes to, as in `<{}` and `>{}`. -/
def Derivation.process : Derivation .redir → Option (Derivation .body)
  | .redirWord operator _ word => if operator.device = none then none else word.block
  | .redirDup _ => none

/-- A word or a redirection as it is read: the tree of the word, or of the file of the
redirection. -/
inductive Written where
  | word (t : Tree)
  | redir (redir : Derivation .redir) (file : Tree)

/-- A part is read: the actions for the words in it are run. -/
def readPart : CommandPart → Parse Written
  | .first first => do
      let t ← action id first
      pure (.word t)
  | .word word => do
      let t ← action id word
      pure (.word t)
  | .redir (.redirDup dup) => pure (.redir (.redirDup dup) null)
  | .redir (.redirWord operator fd word) => do
      let file ← action id word
      let _ ← mkredir (mkredircmd operator.command fd) file
      pure (.redir (.redirWord operator fd word) file)

/-- The parts are read from left to right. -/
def readParts : List CommandPart → Parse (List Written)
  | [] => pure []
  | part :: parts => do
      let written ← readPart part
      let others ← readParts parts
      pure (written :: others)

namespace Written

/-- The words among what is written. An empty list adds no word. -/
def words : List Written → List Tree
  | [] => []
  | .word t :: written => if t = null then words written else t :: words written
  | .redir _ _ :: written => words written

/-- The redirections among what is written, with their files. -/
def redirs : List Written → List (Derivation .redir × Tree)
  | [] => []
  | .word _ :: written => redirs written
  | .redir derivation file :: written => (derivation, file) :: redirs written

end Written

/-! ### What it stands for -/

/-- The call a redirection stands for, without the command at its end. `var` is the variable that
names a pipe. -/
structure RedirCall where
  name : Text
  args : List Tree
  var : Option Text

namespace RedirCall

/-- The call around a command. -/
def tree (call : RedirCall) (cmd : Tree) : Tree := ofList (nWord call.name :: call.args ++ [cmd])

/-- The word by which the command gets at the pipe. -/
def words (call : RedirCall) : List Tree := (call.var.map fun var => nVar (nWord var)).toList

/-- The call of a redirection with a file, and with a variable for its pipe if it has one. -/
def ofRedir (redir : Derivation .redir) (file : Tree) (var : Text) : RedirCall :=
  match redir with
  | .redirDup (.close fd) => ⟨lit "%close", [nWord (decimal fd)], none⟩
  | .redirDup (.dup fd0 fd1) => ⟨lit "%dup", [nWord (decimal fd0), nWord (decimal fd1)], none⟩
  | .redirWord operator fd word =>
      match operator.device, word.block with
      | some device, some _ => ⟨device, [nWord var, file], some var⟩
      | _, _ =>
          if operator = .heredoc ∨ operator = .here then
            ⟨lit "%here", [nWord (decimal fd), file], none⟩
          else ⟨operator.command,
            [nWord (decimal fd), nCall (ofList [nWord (lit "%one"), file])], none⟩

/-- A redirection and its file stand for a call. -/
def Stands (redir : Derivation .redir × Tree) (call : RedirCall) : Prop :=
  ∃ var, call = ofRedir redir.1 redir.2 var

end RedirCall

/-- A tree is a command inside calls, of which the first is outermost. -/
inductive Nests : List RedirCall → Tree → Tree → Prop where
  | nil (t : Tree) : Nests [] t t
  | cons {call : RedirCall} {calls : List RedirCall} {t inner cmd : Tree}
      (nests : Nests calls t inner) (made : thunkify inner = some cmd) :
      Nests (call :: calls) t (call.tree cmd)

/-- The redirections are applied in the order they are written, around the words that are written
and the words for their pipes. -/
def AppliedInOrder (written : List Written) (tree : Tree) : Prop :=
  ∃ (calls : List RedirCall) (words : List Tree),
    List.Forall₂ RedirCall.Stands (Written.redirs written) calls ∧
    (calls.filterMap RedirCall.var).Nodup ∧ Nests calls (ofList words) tree ∧
    (Written.words written).Sublist words ∧
    words.Perm (Written.words written ++ calls.flatMap RedirCall.words)

/-! ### When it holds -/

namespace Derivation

/-- The redirections of a simple command. -/
def allRedirs {symbol : Nonterminal} (derivation : Derivation symbol) : List (Derivation .redir) :=
  derivation.commandParts.filterMap fun part =>
    match part with
    | .redir redir => some redir
    | _ => none

/-- Is each redirection from or to a block in front of the command the last redirection? -/
def frontLast : {symbol : Nonterminal} → Derivation symbol → Prop
  | _, cmdRedir redir cmd => (redir.process ≠ none → cmd.allRedirs = []) ∧ frontLast cmd
  | _, _ => True

/-- No redirection from or to a block stands in front of the command with others behind it, or has
a block that consists of one more block. -/
def Placed {symbol : Nonterminal} (derivation : Derivation symbol) : Prop :=
  (∀ redir ∈ derivation.allRedirs, ∀ body, redir.process = some body → body.form ≠ .loneThunk) ∧
    derivation.frontLast

end Derivation

end Desh
