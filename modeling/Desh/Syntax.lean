/-
This file models the redirections and relations of `syntax.c` and the semantic
actions of the grammar. `redirect` consumes a chain of redirection cells in
front of a command; the node `errornode`, by whose address the grammar tells
that a here document was refused, is `none` where the address is compared.

The value of a derivation is the tree its actions return, and the actions run
in the order of the reductions: the symbols of a production from left to right,
then its own action.
-/

import Desh.Heredoc

namespace Desh

open Desh.Tree

/-! ### Redirections -/

/-- The number of redirection cells in front of a tree. -/
def redirections : Tree → Nat
  | nRedir _ t => redirections t + 1
  | _ => 0

/-- The first loop of `redirect` and of `redirappend`: the words in front of a redirection are
appended to the tree. -/
def unwrap : Tree → Tree → Option (Tree × Tree)
  | null, _ | placeholder, _ => none
  | nRedir word r, t => (treeappend t word).bind (unwrap r)
  | r, t => some (r, t)

/-- The second loop of `redirect`: does the command have a placeholder? -/
def hasPlaceholder : Tree → Bool
  | nList placeholder _ => true
  | nList _ rest => hasPlaceholder rest
  | _ => false

/-- Put a tree in the place of the placeholder. -/
def fillPlaceholder (t : Tree) : Tree → Tree
  | nList placeholder rest => nList t rest
  | nList car rest => nList car (fillPlaceholder t rest)
  | other => other

/-- `errornode`, a static node. -/
def errornode : Tree := nAssign null null

/-- `redirect`, for a number of redirections in front of the tree. -/
def redirectMany : Nat → Tree → Parse (Option Tree)
  | n + 1, nRedir r t => do
      let (r, t) ← Parse.check (unwrap r t)
      if hasPlaceholder r = false then Parse.assertion
      else
        let queued ← if firstis r (lit "%heredoc") then queueheredoc r else pure (some r)
        match queued with
        | none => pure none
        | some r =>
            let inner ← redirectMany n t
            let inner ← Parse.check (thunkify (inner.getD errornode))
            pure (some (fillPlaceholder inner r))
  | _, t => pure (some t)

/-- `redirect`: rewrite the redirections in front of a tree to the commands they stand for. -/
def redirect (t : Tree) : Parse (Option Tree) := redirectMany (redirections t) t

/-- `mkredir`: the command of a redirection, with a placeholder for the command it applies to. A
thunk in the place of the file is run with a pipe, whose name becomes a word in front. -/
def mkredir (cmd file : Tree) : Parse Tree :=
  match file with
  | nThunk body => do
      let op ←
        if firstis cmd (lit "%open") then pure (lit "%readfrom")
        else if firstis cmd (lit "%create") then pure (lit "%writeto")
        else do
          Parse.yyerror (lit "bad /dev/fd redirection")
          pure []
      let var : Tree ← fun parser =>
        .returns (nWord (lit "_devfd" ++ decimal parser.id)) { parser with id := parser.id + 1 }
      pure (nRedir (ofList [nVar var]) (ofList [nWord op, var, nThunk body, placeholder]))
  | file =>
      let file :=
        if firstis cmd (lit "%heredoc") ∨ firstis cmd (lit "%here") then file
        else nCall (ofList [nWord (lit "%one"), file])
      Parse.check (treeappend cmd (ofList [file, placeholder]))

/-- The second half of `redirappend`: a redirection is put behind the redirections in front. -/
def insertRedir (r : Tree) : Tree → Option Tree
  | nRedir before t => (insertRedir r t).map (nRedir before)
  | null => some (nRedir r null)
  | nList car cdr => some (nRedir r (nList car cdr))
  | _ => none

/-- `redirappend`. -/
def redirappend (tree r : Tree) : Option Tree :=
  (unwrap r tree).bind fun (r, tree) =>
    match r with
    | nList _ _ => insertRedir r tree
    | _ => none

/-! ### Relations -/

/-- What the comparison of a relation may give. -/
def Relation.matches : Relation → Tree
  | Less => nWord (lit "-1")
  | LessEqual => ofList [nWord (lit "-1"), nWord (lit "0")]
  | Greater => nWord (lit "1")
  | GreaterEqual => ofList [nWord (lit "1"), nWord (lit "0")]
  | Equal => nWord (lit "0")
  | NotEqual => ofList [nWord (lit "-1"), nWord (lit "1")]

/-- `relop`: the match a relation stands for. -/
def relop (left right : Tree) (rel : Relation) : Tree :=
  nMatch (nCall (ofList [nWord (lit "%cmp"), left, right])) rel.matches

/-! ### Semantic actions -/

section Actions

variable (spelling : Text → Text)

/-- The action of `end`. -/
def endLine (endfile : Bool) : Parse Unit := do
  if (← readheredocs spelling endfile) then pure () else Parse.yyabort

/-- The actions that call `redirect`. -/
def redirected (t : Tree) : Parse Tree := do
  match ← redirect t with
  | some t => pure t
  | none => Parse.yyabort

/-- The action of `nList` around a thunk under a prefix. -/
def prefixThunk (op : Text) (t : Tree) : Parse Tree := do
  let t ← Parse.check (thunkify t)
  pure (ofList [nWord op, t])

open Derivation in
/-- The semantic actions of a derivation. -/
def action : {symbol : Nonterminal} → Derivation symbol → Parse Tree
  | _, esNl line => do
      let line ← action line
      endLine spelling false
      pure line
  | _, esEndfile line => do
      let line ← action line
      endLine spelling true
      pure line
  | _, lineCmd cmd => action cmd
  | _, lineCmdsa cmdsa line => do
      let cmdsa ← action cmdsa
      let line ← action line
      Parse.check (mkseq (lit "%seq") cmdsa line)
  | _, bodyCmd cmd => action cmd
  | _, bodyCmdsan cmdsan body => do
      let cmdsan ← action cmdsan
      let body ← action body
      Parse.check (mkseq (lit "%seq") cmdsan body)
  | _, cmdsaSemicolon cmd => action cmd
  | _, cmdsaBackground cmd => do
      let cmd ← action cmd
      prefixThunk (lit "%background") cmd
  | _, cmdsanCmdsa cmdsa => action cmdsa
  | _, cmdsanNl cmd => do
      let cmd ← action cmd
      endLine spelling false
      pure cmd
  | _, cmdEmpty => pure null
  | _, cmdSimple simple => do
      let simple ← action simple
      redirected simple
  | _, cmdRedir redir cmd => do
      let redir ← action redir
      let cmd ← action cmd
      redirected (nRedir redir cmd)
  | _, cmdAssign first assign => do
      let first ← action first
      let assign ← action assign
      pure (nAssign first assign)
  | _, cmdFn fn => action fn
  | _, cmdBinder binder _ bindings _ cmd => do
      let bindings ← action bindings
      let cmd ← action cmd
      pure (binder.mk bindings cmd)
  | _, cmdAndand left _ right => do
      let left ← action left
      let right ← action right
      Parse.check (mkseq (lit "%and") left right)
  | _, cmdOror left _ right => do
      let left ← action left
      let right ← action right
      Parse.check (mkseq (lit "%or") left right)
  | _, cmdPipe left outfd infd _ right => do
      let left ← action left
      let right ← action right
      Parse.check (mkpipe left outfd infd right)
  | _, cmdNot _ cmd => do
      let cmd ← action cmd
      prefixThunk (lit "%not") cmd
  | _, cmdMatch word words => do
      let word ← action word
      let words ← action words
      pure (nMatch word words)
  | _, cmdExtract word words => do
      let word ← action word
      let words ← action words
      pure (nExtract word words)
  | _, cmdRelop rel first word => do
      let first ← action first
      let word ← action word
      pure (relop first word rel)
  | _, simpleFirst first => do
      let first ← action first
      Parse.check (treecons2 first null)
  | _, simpleWord simple word => do
      let simple ← action simple
      let word ← action word
      Parse.check (treeconsend2 simple word)
  | _, simpleRedir simple redir => do
      let simple ← action simple
      let redir ← action redir
      Parse.check (redirappend simple redir)
  | _, redirDup dup => pure dup.tree
  | _, redirWord operator fd word => do
      let word ← action word
      mkredir (mkredircmd operator.command fd) word
  | _, bindingsBinding binding => do
      let binding ← action binding
      Parse.check (treecons2 binding null)
  | _, bindingsSemicolon bindings binding | _, bindingsNl bindings binding => do
      let bindings ← action bindings
      let binding ← action binding
      Parse.check (treeconsend2 bindings binding)
  | _, bindingEmpty => pure null
  | _, bindingFn fn => action fn
  | _, bindingAssign word assign => do
      let word ← action word
      let assign ← action assign
      pure (nAssign word assign)
  | _, assignWords _ _ words => action words
  | _, fnBody word params body => do
      let word ← action word
      let params ← action params
      let body ← action body
      pure (fnassign word (mklambda params body))
  | _, fnWord word => do
      let word ← action word
      pure (fnassign word null)
  | _, firstComword comword => action comword
  | _, firstCaret first _ sword => do
      let first ← action first
      let sword ← action sword
      pure (nConcat first sword)
  | _, swordComword comword => action comword
  | _, swordKeyword keyword => pure (nWord keyword.word)
  | _, wordSword sword => action sword
  | _, wordCaret word _ sword => do
      let word ← action word
      let sword ← action sword
      pure (nConcat word sword)
  | _, comwordParam param => action param
  | _, comwordNlwords nlwords => action nlwords
  | _, comwordBody body => do
      let body ← action body
      Parse.check (thunkify body)
  | _, comwordLambda params body => do
      let params ← action params
      let body ← action body
      pure (mklambda params body)
  | _, comwordVar sword => do
      let sword ← action sword
      pure (nVar sword)
  | _, comwordVarsub sword words => do
      let sword ← action sword
      let words ← action words
      pure (nVarsub sword words)
  | _, comwordCall sword => do
      let sword ← action sword
      pure (nCall sword)
  | _, comwordCount sword => do
      let sword ← action sword
      pure (nCall (ofList [nWord (lit "%count"), nVar sword]))
  | _, comwordFlat sword => do
      let sword ← action sword
      pure (flatten (nVar sword) (lit " "))
  | _, comwordPrim str => pure (nPrim str)
  | _, comwordBackquote sword => do
      let sword ← action sword
      pure (backquote (nVar (nWord (lit "ifs"))) sword)
  | _, comwordBackback word sword => do
      let word ← action word
      let sword ← action sword
      pure (backquote word sword)
  | _, paramWord str _ => pure (nWord str)
  | _, paramQword str => pure (nQword str)
  | _, paramsNil | _, wordsNil | _, nlwordsNil => pure null
  | _, paramsParam params param => do
      let params ← action params
      let param ← action param
      Parse.check (treeconsend params param)
  | _, wordsWord words word => do
      let words ← action words
      let word ← action word
      Parse.check (treeconsend words word)
  | _, nlwordsWord nlwords word => do
      let nlwords ← action nlwords
      let word ← action word
      Parse.check (treeconsend nlwords word)
  | _, nlwordsNl nlwords => action nlwords

end Actions

end Desh
