/-
This file models the grammar of the shell, `parse.y`, as the family of its
derivation trees: one constructor for each production, under the name of the
nonterminal and of what sets the production apart. The nonterminals `nl`,
`nlcaret` and `optcaret` have no value, so that how often (or whether) their
token stands there is an argument of the production they occur in; `binder`,
`keyword` and the relations are enumerations.

The generated parser picks one derivation of the tokens it reads, by the
precedences the grammar declares. Nothing here depends on which one it picks:
what is said of the parser is said of every derivation.
-/

import Desh.Token
import Mathlib.Data.List.TakeWhile

namespace Desh

open Desh.Tree

/-! ### Tokens with a value -/

/-- `binder`. -/
inductive Binder where
  | nLocal | nLet | nFor | nClosure
  deriving DecidableEq

def Binder.token : Binder → Token
  | nLocal => .LOCAL
  | nLet => .LET
  | nFor => .FOR
  | nClosure => .CLOSURE

/-- The node a binder builds. -/
def Binder.mk : Binder → Tree → Tree → Tree
  | nLocal => Tree.nLocal
  | nLet => Tree.nLet
  | nFor => Tree.nFor
  | nClosure => Tree.nClosure

/-- `keyword`: the keywords that may stand for themselves in a word. -/
inductive Keyword where
  | bang | tilde | extract | local | let | for | fn | closure
  deriving DecidableEq

def Keyword.token : Keyword → Token
  | bang => .char '!'.toUInt8
  | tilde => .char '~'.toUInt8
  | extract => .EXTRACT
  | «local» => .LOCAL
  | «let» => .LET
  | «for» => .FOR
  | fn => .FN
  | closure => .CLOSURE

/-- The word a keyword stands for. -/
def Keyword.word : Keyword → Text
  | bang => lit "!"
  | tilde => lit "~"
  | extract => lit "~~"
  | «local» => lit "local"
  | «let» => lit "let"
  | «for» => lit "for"
  | fn => lit "fn"
  | closure => lit "%closure"

/-- `Relation`. -/
inductive Relation where
  | Less | LessEqual | Greater | GreaterEqual | Equal | NotEqual
  deriving DecidableEq

def Relation.token : Relation → Token
  | Less => .LT
  | LessEqual => .LE
  | Greater => .GT
  | GreaterEqual => .GE
  | Equal => .EQ
  | NotEqual => .NE

/-- The redirection operators of the analyzer. -/
inductive Operator where
  | open | openWrite | openAppend | openCreate | create | append | heredoc | here
  deriving DecidableEq

/-- The command a redirection operator stands for. -/
def Operator.command : Operator → Text
  | «open» => lit "%open"
  | openWrite => lit "%open-write"
  | openAppend => lit "%open-append"
  | openCreate => lit "%open-create"
  | create => lit "%create"
  | append => lit "%append"
  | heredoc => lit "%heredoc"
  | here => lit "%here"

/-- The value of a `DUP` token. -/
inductive Dup where
  | close (fd : Int)
  | dup (fd0 fd1 : Int)
  deriving DecidableEq

def Dup.tree : Dup → Tree
  | close fd => mkclose fd
  | dup fd0 fd1 => mkdup fd0 fd1

/-! ### What the analyzer gives -/

/-- A token the grammar can shift: a plain word has no dollar sign, and the value of a
redirection, a duplication or a pipe is one its production knows. -/
def Token.Typed : Token → Prop
  | .WORD str => '$'.toUInt8 ∉ str
  | .DUP tree => ∃ dup : Dup, tree = dup.tree
  | .REDIR tree => ∃ (operator : Operator) (fd : Int), tree = mkredircmd operator.command fd
  | .PIPE tree => ∃ outfd infd : Int, tree = nPipe outfd infd
  | _ => True

theorem keyword_typed (buf : Text) (next : Option UInt8) :
    ∀ token ∈ keyword buf next, token.Typed := by
  unfold keyword
  split <;> repeat' apply mem_ite Token.Typed
  all_goals first | trivial | nofun

theorem lexWord_typed (lexer : Lexer) (dollar : Bool) (c : UInt8) (rest : Text)
    (start : c ≠ '$'.toUInt8) : (lexWord lexer dollar c rest).1.Typed := by
  unfold lexWord
  dsimp only
  split
  · rename_i token found
    exact keyword_typed _ _ token found
  · intro member
    rcases List.mem_cons.mp member with same | member
    · exact start same.symm
    · have inside := List.mem_takeWhile_imp member
      split at inside
      · exact absurd inside (by decide)
      · split at inside <;> exact absurd inside (by decide)

theorem lexRedirection_typed (lexer : Lexer) (operator : Operator) (fd : Int) (input : Text) :
    (lexRedirection lexer operator.command fd input).1.Typed := by
  unfold lexRedirection
  split
  · trivial
  · refine fst_ite Token.Typed ?_ ⟨operator, _, rfl⟩
    change ∃ dup : Dup, _ = dup.tree
    split
    · exact ⟨.close _, rfl⟩
    · exact ⟨.dup _ _, rfl⟩

theorem lexLess_typed (lexer : Lexer) (input : Text) : (lexLess lexer input).1.Typed := by
  unfold lexLess
  split
  · refine fst_ite Token.Typed ?_
      (fst_ite Token.Typed ?_ (fst_ite Token.Typed trivial (lexRedirection_typed _ .open _ _)))
    · split
      · exact fst_ite Token.Typed (lexRedirection_typed _ .openAppend _ _)
          (lexRedirection_typed _ .openWrite _ _)
      · exact lexRedirection_typed _ .openWrite _ _
    · split
      · exact fst_ite Token.Typed (lexRedirection_typed _ .here _ _)
          (lexRedirection_typed _ .heredoc _ _)
      · exact lexRedirection_typed _ .heredoc _ _
  · exact lexRedirection_typed _ .open _ _

theorem lexGreater_typed (lexer : Lexer) (input : Text) : (lexGreater lexer input).1.Typed := by
  unfold lexGreater
  split
  · refine fst_ite Token.Typed ?_ (fst_ite Token.Typed (lexRedirection_typed _ .openCreate _ _)
      (lexRedirection_typed _ .create _ _))
    split
    · exact fst_ite Token.Typed (lexRedirection_typed _ .openAppend _ _)
        (lexRedirection_typed _ .append _ _)
    · exact lexRedirection_typed _ .append _ _
  · exact lexRedirection_typed _ .create _ _

theorem lexPipe_typed (lexer : Lexer) (input : Text) : (lexPipe lexer input).1.Typed := by
  refine fst_ite Token.Typed trivial ?_
  split
  · trivial
  · exact fst_ite Token.Typed trivial ⟨_, _, rfl⟩

theorem lexQuote_typed (lexer : Lexer) (quote : UInt8) (input : Text) :
    (lexQuote lexer quote input).1.Typed := by
  unfold lexQuote
  split <;> trivial

theorem lexEscape_typed (lexer : Lexer) (c : UInt8) (input : Text) :
    (lexEscape lexer c input).1.Typed := by
  unfold lexEscape
  repeat' apply fst_ite Token.Typed
  all_goals trivial

theorem lexComment_typed (lexer : Lexer) (input : Text) : (lexComment lexer input).1.Typed := by
  unfold lexComment
  split
  · trivial
  · exact fst_ite Token.Typed trivial trivial

theorem lexSpecial_typed (lexer : Lexer) (c : UInt8) (input : Text) :
    (lexSpecial lexer c input).1.Typed := by
  unfold lexSpecial
  repeat' first
    | exact lexQuote_typed _ _ _
    | exact lexComment_typed _ _
    | exact lexPipe_typed _ _
    | exact lexLess_typed _ _
    | exact lexGreater_typed _ _
    | apply fst_ite Token.Typed
    | trivial
  · split
    · trivial
    · exact lexEscape_typed _ _ _
  · change (if lexer.w = .realWord then Token.SUB else Token.char c).Typed
    split <;> trivial

/-- The analyzer gives only tokens the grammar can shift. -/
theorem yylex_typed (lexer : Lexer) : (yylex lexer).1.Typed := by
  unfold yylex
  refine fst_ite Token.Typed trivial ?_
  dsimp only
  split
  · trivial
  · rename_i c rest _
    refine fst_ite Token.Typed trivial (fst_ite Token.Typed trivial ?_)
    by_cases start : c = '$'.toUInt8
    · have special : (!(if lexer.dollar then dollarNonWord c else nonWord c)) = false := by
        rw [start]
        split <;> decide
      rw [special]
      exact lexSpecial_typed _ _ _
    · exact fst_ite Token.Typed (lexWord_typed _ _ _ _ start) (lexSpecial_typed _ _ _)

/-! ### Derivations -/

/-- The nonterminals that have a value. -/
inductive Nonterminal where
  | es | line | body | cmdsa | cmdsan | cmd | simple | redir | bindings | binding | assign | fn
  | first | sword | word | comword | param | params | words | nlwords
  deriving DecidableEq

/-- The derivation trees of the grammar. The analyzer gives no plain word a dollar sign. -/
inductive Derivation : Nonterminal → Type where
  | esNl (line : Derivation .line) : Derivation .es
  | esEndfile (line : Derivation .line) : Derivation .es
  | lineCmd (cmd : Derivation .cmd) : Derivation .line
  | lineCmdsa (cmdsa : Derivation .cmdsa) (line : Derivation .line) : Derivation .line
  | bodyCmd (cmd : Derivation .cmd) : Derivation .body
  | bodyCmdsan (cmdsan : Derivation .cmdsan) (body : Derivation .body) : Derivation .body
  | cmdsaSemicolon (cmd : Derivation .cmd) : Derivation .cmdsa
  | cmdsaBackground (cmd : Derivation .cmd) : Derivation .cmdsa
  | cmdsanCmdsa (cmdsa : Derivation .cmdsa) : Derivation .cmdsan
  | cmdsanNl (cmd : Derivation .cmd) : Derivation .cmdsan
  | cmdEmpty : Derivation .cmd
  | cmdSimple (simple : Derivation .simple) : Derivation .cmd
  | cmdRedir (redir : Derivation .redir) (cmd : Derivation .cmd) : Derivation .cmd
  | cmdAssign (first : Derivation .first) (assign : Derivation .assign) : Derivation .cmd
  | cmdFn (fn : Derivation .fn) : Derivation .cmd
  | cmdBinder (binder : Binder) (nl : Nat) (bindings : Derivation .bindings) (nl' : Nat)
      (cmd : Derivation .cmd) : Derivation .cmd
  | cmdAndand (left : Derivation .cmd) (nl : Nat) (right : Derivation .cmd) : Derivation .cmd
  | cmdOror (left : Derivation .cmd) (nl : Nat) (right : Derivation .cmd) : Derivation .cmd
  | cmdPipe (left : Derivation .cmd) (outfd infd : Int) (nl : Nat) (right : Derivation .cmd) :
      Derivation .cmd
  | cmdNot (optcaret : Bool) (cmd : Derivation .cmd) : Derivation .cmd
  | cmdMatch (word : Derivation .word) (words : Derivation .words) : Derivation .cmd
  | cmdExtract (word : Derivation .word) (words : Derivation .words) : Derivation .cmd
  | cmdRelop (rel : Relation) (first : Derivation .first) (word : Derivation .word) :
      Derivation .cmd
  | simpleFirst (first : Derivation .first) : Derivation .simple
  | simpleWord (simple : Derivation .simple) (word : Derivation .word) : Derivation .simple
  | simpleRedir (simple : Derivation .simple) (redir : Derivation .redir) : Derivation .simple
  | redirDup (dup : Dup) : Derivation .redir
  | redirWord (operator : Operator) (fd : Int) (word : Derivation .word) : Derivation .redir
  | bindingsBinding (binding : Derivation .binding) : Derivation .bindings
  | bindingsSemicolon (bindings : Derivation .bindings) (binding : Derivation .binding) :
      Derivation .bindings
  | bindingsNl (bindings : Derivation .bindings) (binding : Derivation .binding) :
      Derivation .bindings
  | bindingEmpty : Derivation .binding
  | bindingFn (fn : Derivation .fn) : Derivation .binding
  | bindingAssign (word : Derivation .word) (assign : Derivation .assign) : Derivation .binding
  | assignWords (optcaret optcaret' : Bool) (words : Derivation .words) : Derivation .assign
  | fnBody (word : Derivation .word) (params : Derivation .params) (body : Derivation .body) :
      Derivation .fn
  | fnWord (word : Derivation .word) : Derivation .fn
  | firstComword (comword : Derivation .comword) : Derivation .first
  | firstCaret (first : Derivation .first) (nl : Nat) (sword : Derivation .sword) :
      Derivation .first
  | swordComword (comword : Derivation .comword) : Derivation .sword
  | swordKeyword (keyword : Keyword) : Derivation .sword
  | wordSword (sword : Derivation .sword) : Derivation .word
  | wordCaret (word : Derivation .word) (nl : Nat) (sword : Derivation .sword) : Derivation .word
  | comwordParam (param : Derivation .param) : Derivation .comword
  | comwordNlwords (nlwords : Derivation .nlwords) : Derivation .comword
  | comwordBody (body : Derivation .body) : Derivation .comword
  | comwordLambda (params : Derivation .params) (body : Derivation .body) : Derivation .comword
  | comwordVar (sword : Derivation .sword) : Derivation .comword
  | comwordVarsub (sword : Derivation .sword) (words : Derivation .words) : Derivation .comword
  | comwordCall (sword : Derivation .sword) : Derivation .comword
  | comwordCount (sword : Derivation .sword) : Derivation .comword
  | comwordFlat (sword : Derivation .sword) : Derivation .comword
  | comwordPrim (str : Text) : Derivation .comword
  | comwordBackquote (sword : Derivation .sword) : Derivation .comword
  | comwordBackback (word : Derivation .word) (sword : Derivation .sword) : Derivation .comword
  | paramWord (str : Text) (plain : '$'.toUInt8 ∉ str) : Derivation .param
  | paramQword (str : Text) : Derivation .param
  | paramsNil : Derivation .params
  | paramsParam (params : Derivation .params) (param : Derivation .param) : Derivation .params
  | wordsNil : Derivation .words
  | wordsWord (words : Derivation .words) (word : Derivation .word) : Derivation .words
  | nlwordsNil : Derivation .nlwords
  | nlwordsWord (nlwords : Derivation .nlwords) (word : Derivation .word) : Derivation .nlwords
  | nlwordsNl (nlwords : Derivation .nlwords) : Derivation .nlwords

/-! ### What is read -/

/-- What the parser does with its input: it shifts a token, or reads the here documents that
follow a newline. -/
inductive Item where
  | shift (token : Token)
  | reads
  deriving DecidableEq

/-- The token of a character. -/
def punctuation (c : Char) : Item := .shift (.char c.toUInt8)

/-- `nl`: a number of newlines. -/
def newlines (count : Nat) : List Item := List.replicate count (.shift .NL)

/-- `optcaret`. -/
def caret (present : Bool) : List Item := if present then [punctuation '^'] else []

namespace Derivation

/-- What the parser reads for a derivation, in order. -/
def items : {symbol : Nonterminal} → Derivation symbol → List Item
  | _, esNl line => line.items ++ [.shift .NL, .reads]
  | _, esEndfile line => line.items ++ [.shift .ENDFILE]
  | _, lineCmd cmd => cmd.items
  | _, lineCmdsa cmdsa line => cmdsa.items ++ line.items
  | _, bodyCmd cmd => cmd.items
  | _, bodyCmdsan cmdsan body => cmdsan.items ++ body.items
  | _, cmdsaSemicolon cmd => cmd.items ++ [punctuation ';']
  | _, cmdsaBackground cmd => cmd.items ++ [punctuation '&']
  | _, cmdsanCmdsa cmdsa => cmdsa.items
  | _, cmdsanNl cmd => cmd.items ++ [.shift .NL, .reads]
  | _, cmdEmpty => []
  | _, cmdSimple simple => simple.items
  | _, cmdRedir redir cmd => redir.items ++ cmd.items
  | _, cmdAssign first assign => first.items ++ assign.items
  | _, cmdFn fn => fn.items
  | _, cmdBinder binder nl bindings nl' cmd =>
      .shift binder.token :: newlines nl ++ punctuation '(' :: bindings.items ++
        punctuation ')' :: newlines nl' ++ cmd.items
  | _, cmdAndand left nl right => left.items ++ .shift .ANDAND :: newlines nl ++ right.items
  | _, cmdOror left nl right => left.items ++ .shift .OROR :: newlines nl ++ right.items
  | _, cmdPipe left outfd infd nl right =>
      left.items ++ .shift (.PIPE (nPipe outfd infd)) :: newlines nl ++ right.items
  | _, cmdNot optcaret cmd => punctuation '!' :: caret optcaret ++ cmd.items
  | _, cmdMatch word words => punctuation '~' :: word.items ++ words.items
  | _, cmdExtract word words => .shift .EXTRACT :: word.items ++ words.items
  | _, cmdRelop rel first word => first.items ++ .shift rel.token :: word.items
  | _, simpleFirst first => first.items
  | _, simpleWord simple word => simple.items ++ word.items
  | _, simpleRedir simple redir => simple.items ++ redir.items
  | _, redirDup dup => [.shift (.DUP dup.tree)]
  | _, redirWord operator fd word =>
      .shift (.REDIR (mkredircmd operator.command fd)) :: word.items
  | _, bindingsBinding binding => binding.items
  | _, bindingsSemicolon bindings binding => bindings.items ++ punctuation ';' :: binding.items
  | _, bindingsNl bindings binding => bindings.items ++ .shift .NL :: binding.items
  | _, bindingEmpty => []
  | _, bindingFn fn => fn.items
  | _, bindingAssign word assign => word.items ++ assign.items
  | _, assignWords optcaret optcaret' words =>
      caret optcaret ++ punctuation '=' :: caret optcaret' ++ words.items
  | _, fnBody word params body =>
      .shift .FN :: word.items ++ params.items ++ punctuation '{' :: body.items ++
        [punctuation '}']
  | _, fnWord word => .shift .FN :: word.items
  | _, firstComword comword => comword.items
  | _, firstCaret first nl sword => first.items ++ punctuation '^' :: newlines nl ++ sword.items
  | _, swordComword comword => comword.items
  | _, swordKeyword keyword => [.shift keyword.token]
  | _, wordSword sword => sword.items
  | _, wordCaret word nl sword => word.items ++ punctuation '^' :: newlines nl ++ sword.items
  | _, comwordParam param => param.items
  | _, comwordNlwords nlwords => punctuation '(' :: nlwords.items ++ [punctuation ')']
  | _, comwordBody body => punctuation '{' :: body.items ++ [punctuation '}']
  | _, comwordLambda params body =>
      punctuation '@' :: params.items ++ punctuation '{' :: body.items ++ [punctuation '}']
  | _, comwordVar sword => punctuation '$' :: sword.items
  | _, comwordVarsub sword words =>
      punctuation '$' :: sword.items ++ .shift .SUB :: words.items ++ [punctuation ')']
  | _, comwordCall sword => .shift .CALL :: sword.items
  | _, comwordCount sword => .shift .COUNT :: sword.items
  | _, comwordFlat sword => .shift .FLAT :: sword.items
  | _, comwordPrim str => [.shift .PRIM, .shift (.WORD str)]
  | _, comwordBackquote sword => .shift (.char 96) :: sword.items
  | _, comwordBackback word sword => .shift .BACKBACK :: word.items ++ sword.items
  | _, paramWord str _ => [.shift (.WORD str)]
  | _, paramQword str => [.shift (.QWORD str)]
  | _, paramsNil => []
  | _, paramsParam params param => params.items ++ param.items
  | _, wordsNil => []
  | _, wordsWord words word => words.items ++ word.items
  | _, nlwordsNil => []
  | _, nlwordsWord nlwords word => nlwords.items ++ word.items
  | _, nlwordsNl nlwords => nlwords.items ++ [.shift .NL]

end Derivation

end Desh
