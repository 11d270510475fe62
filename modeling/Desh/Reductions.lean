/-
This file says what the semantic actions of a derivation do, without their
trees. A tree matters to the actions only by its form: whether it is null, a
thunk, a list of commands, or another node. The form of the tree a derivation
builds can be read off the derivation (`form`), and so can the events its
reductions bring about, in their order (`events`): a here document is queued or
refused, a line ends, an assertion fails.

The actions and the events agree (`action_simulates`): performing the events
leaves the same here documents and ends in the same way.
-/

import Desh.Syntax

namespace Desh

open Desh.Tree

/-! ### Forms of trees -/

/-- What matters about the tree of a symbol. The tree of a word is null, one literal word, a
thunk or another `value`; the tree of a command is null, a list that holds one thunk and nothing
else, another `list`, or a `node` that is no list. -/
inductive Form where
  | null
  | literal (eof : Tree)
  | thunk
  | value
  | loneThunk
  | list
  | node
  deriving DecidableEq

namespace Form

/-- Is it the form of a command? -/
def IsCmd : Form → Prop
  | null | loneThunk | list | node => True
  | literal _ | thunk | value => False

/-- The form of a list with one more element. -/
def extend : Form → Form → Form
  | items, null => items
  | null, thunk => loneThunk
  | _, _ => list

/-- The form of two commands in a row. -/
def sequence : Form → Form → Form
  | null, second => second
  | first, null => first
  | _, _ => list

/-- The trees of a form. -/
def Fits : Form → Tree → Prop
  | null, t => t = Tree.null
  | literal eof, t => t = eof ∧ ∃ s, eof = nWord s ∨ eof = nQword s
  | thunk, t => ∃ body, t = nThunk body
  | value, t =>
      match t with
      | Tree.null | Tree.placeholder | nRedir _ _ | nThunk _ | nWord _ | nQword _ => False
      | _ => True
  | loneThunk, t => ∃ body, t = ofList [nThunk body]
  | list, t => ∃ head rest, t = ofList (head :: rest) ∧ head ≠ Tree.null ∧
      ∀ body, head :: rest ≠ [nThunk body]
  | node, t =>
      match t with
      | Tree.null | Tree.placeholder | nRedir _ _ | nThunk _ | nList _ _ => False
      | _ => True

end Form

/-! ### Redirections -/

/-- What a redirection does to the here documents: nothing, it queues the document of a literal
marker, its marker is missing, or its marker is refused. -/
inductive Marking where
  | plain
  | literal (eof : Tree)
  | missing
  | refused
  deriving DecidableEq

/-- What happens at a reduction. -/
inductive Event where
  | braced
  | missing
  | refused
  | queued (eof : Tree)
  | newline
  | endfile
  deriving DecidableEq

namespace Marking

/-- The marking of a here document's word. -/
def ofWord : Form → Marking
  | .null => missing
  | .literal eof => literal eof
  | .thunk => plain
  | _ => refused

/-- The events of an outermost redirection. -/
def events : Marking → List Event
  | plain => []
  | literal eof => [.queued eof]
  | missing => [.missing]
  | refused => [.refused]

/-- The events of the redirections inside another one: a refused marker ends them. -/
def innerEvents : List Marking → List Event
  | [] => []
  | plain :: markings => innerEvents markings
  | literal eof :: markings => .queued eof :: innerEvents markings
  | missing :: _ => [.missing]
  | refused :: _ => []

/-- The events of the redirections of a simple command. -/
def simpleEvents : List Marking → List Event
  | [] => []
  | first :: others => first.events ++ innerEvents others

end Marking

/-- An account of the redirections of a line: the events it gives the word of a redirection, a
complete simple command, and a redirection in front of a command. -/
structure Account where
  atWord : Operator → Form → List Event
  atSimple : List Marking → List Event
  atRedir : Form → Form → Marking → List Event

/-- The account of the reductions: `redirect` is called when a command is complete. -/
def reduced : Account where
  atWord _ _ := []
  atSimple := Marking.simpleEvents
  atRedir redir cmd marking :=
    if redir = .thunk ∧ cmd = .node then [.braced] else marking.events

namespace Derivation

/-! ### The form of a derivation's tree -/

/-- Has a simple command a redirection? -/
def isRedirected : {symbol : Nonterminal} → Derivation symbol → Bool
  | _, simpleWord simple _ => isRedirected simple
  | _, simpleRedir _ _ => true
  | _, _ => false

/-- The form of the tree of a derivation. A redirection is given the form of its word, and a
simple command that of its words. -/
def form : {symbol : Nonterminal} → Derivation symbol → Form
  | _, esNl line | _, esEndfile line => form line
  | _, lineCmd cmd => form cmd
  | _, lineCmdsa cmdsa line => (form cmdsa).sequence (form line)
  | _, bodyCmd cmd => form cmd
  | _, bodyCmdsan cmdsan body => (form cmdsan).sequence (form body)
  | _, cmdsaSemicolon cmd => form cmd
  | _, cmdsanCmdsa cmdsa => form cmdsa
  | _, cmdsanNl cmd => form cmd
  | _, cmdEmpty => .null
  | _, cmdSimple simple => if isRedirected simple then .list else form simple
  | _, cmdsaBackground _ | _, cmdRedir _ _ | _, cmdAndand _ _ _ | _, cmdOror _ _ _
  | _, cmdPipe _ _ _ _ _ | _, cmdNot _ _ => .list
  | _, cmdAssign _ _ | _, cmdFn _ | _, cmdBinder _ _ _ _ _ | _, cmdMatch _ _
  | _, cmdExtract _ _ | _, cmdRelop _ _ _ | _, fnBody _ _ _ | _, fnWord _ => .node
  | _, simpleFirst first => Form.null.extend (form first)
  | _, simpleWord simple word => (form simple).extend (form word)
  | _, simpleRedir simple redir => if form redir = .thunk then .list else form simple
  | _, redirWord _ _ word => form word
  | _, firstComword comword => form comword
  | _, swordComword comword => form comword
  | _, swordKeyword keyword => .literal (nWord keyword.word)
  | _, wordSword sword => form sword
  | _, comwordParam param => form param
  | _, comwordNlwords nlwords => form nlwords
  | _, comwordBody body => if form body = .loneThunk then .value else .thunk
  | _, paramWord str _ => .literal (nWord str)
  | _, paramQword str => .literal (nQword str)
  | _, nlwordsNil => .null
  | _, nlwordsNl nlwords => form nlwords
  | _, _ => .value

/-! ### The events of a derivation -/

/-- The marking of a redirection. -/
def marking : {symbol : Nonterminal} → Derivation symbol → Marking
  | _, redirWord .heredoc _ word => Marking.ofWord word.form
  | _, _ => .plain

/-- The markings of the redirections of a simple command, in order of appearance. -/
def markings : {symbol : Nonterminal} → Derivation symbol → List Marking
  | _, simpleWord simple _ => markings simple
  | _, simpleRedir simple redir => markings simple ++ [redir.marking]
  | _, _ => []

/-- The events a derivation is given, in order: those of its symbols from left to right, those of
the end of a line, and what an account adds. -/
def collect (account : Account) : {symbol : Nonterminal} → Derivation symbol → List Event
  | _, esNl line => collect account line ++ [.newline]
  | _, esEndfile line => collect account line ++ [.endfile]
  | _, lineCmd cmd => collect account cmd
  | _, lineCmdsa cmdsa line => collect account cmdsa ++ collect account line
  | _, bodyCmd cmd => collect account cmd
  | _, bodyCmdsan cmdsan body => collect account cmdsan ++ collect account body
  | _, cmdsaSemicolon cmd => collect account cmd
  | _, cmdsaBackground cmd => collect account cmd
  | _, cmdsanCmdsa cmdsa => collect account cmdsa
  | _, cmdsanNl cmd => collect account cmd ++ [.newline]
  | _, cmdSimple simple => collect account simple ++ account.atSimple simple.markings
  | _, cmdRedir redir cmd =>
      collect account redir ++ collect account cmd ++
        account.atRedir redir.form cmd.form redir.marking
  | _, cmdAssign first assign => collect account first ++ collect account assign
  | _, cmdFn fn => collect account fn
  | _, cmdBinder _ _ bindings _ cmd => collect account bindings ++ collect account cmd
  | _, cmdAndand left _ right => collect account left ++ collect account right
  | _, cmdOror left _ right => collect account left ++ collect account right
  | _, cmdPipe left _ _ _ right => collect account left ++ collect account right
  | _, cmdNot _ cmd => collect account cmd
  | _, cmdMatch word words => collect account word ++ collect account words
  | _, cmdExtract word words => collect account word ++ collect account words
  | _, cmdRelop _ first word => collect account first ++ collect account word
  | _, simpleFirst first => collect account first
  | _, simpleWord simple word => collect account simple ++ collect account word
  | _, simpleRedir simple redir => collect account simple ++ collect account redir
  | _, redirWord operator _ word => account.atWord operator word.form ++ collect account word
  | _, bindingsBinding binding => collect account binding
  | _, bindingsSemicolon bindings binding => collect account bindings ++ collect account binding
  | _, bindingsNl bindings binding => collect account bindings ++ collect account binding
  | _, bindingFn fn => collect account fn
  | _, bindingAssign word assign => collect account word ++ collect account assign
  | _, assignWords _ _ words => collect account words
  | _, fnBody word params body =>
      collect account word ++ collect account params ++ collect account body
  | _, fnWord word => collect account word
  | _, firstComword comword => collect account comword
  | _, firstCaret first _ sword => collect account first ++ collect account sword
  | _, swordComword comword => collect account comword
  | _, wordSword sword => collect account sword
  | _, wordCaret word _ sword => collect account word ++ collect account sword
  | _, comwordParam param => collect account param
  | _, comwordNlwords nlwords => collect account nlwords
  | _, comwordBody body => collect account body
  | _, comwordLambda params body => collect account params ++ collect account body
  | _, comwordVar sword => collect account sword
  | _, comwordVarsub sword words => collect account sword ++ collect account words
  | _, comwordCall sword => collect account sword
  | _, comwordCount sword => collect account sword
  | _, comwordFlat sword => collect account sword
  | _, comwordBackquote sword => collect account sword
  | _, comwordBackback word sword => collect account word ++ collect account sword
  | _, paramsParam params param => collect account params ++ collect account param
  | _, wordsWord words word => collect account words ++ collect account word
  | _, nlwordsWord nlwords word => collect account nlwords ++ collect account word
  | _, nlwordsNl nlwords => collect account nlwords
  | _, _ => []

/-- The events the reductions of a derivation bring about, in order. -/
abbrev events {symbol : Nonterminal} (derivation : Derivation symbol) : List Event :=
  collect reduced derivation

end Derivation

/-! ### Performing events -/

section Performing

variable (spelling : Text → Text)

/-- What an event does to the here documents. -/
def Event.perform : Event → Parse Unit
  | braced | missing => Parse.assertion
  | refused => Parse.yyabort
  | queued eof => fun parser =>
      let documents := { parser.documents with hereq := eof :: parser.documents.hereq }
      .returns () { parser with documents }
  | newline => endLine spelling false
  | endfile => endLine spelling true

/-- Perform events in order. -/
def performs : List Event → Parse Unit
  | [] => pure ()
  | event :: events => do
      event.perform spelling
      performs events

end Performing

/-- Two ends that are alike: both return, with the same here documents and a value that fits, or
both end in the same other way. -/
inductive Alike {Value : Type} (fits : Value → Prop) : Parsed Value → Parsed Unit → Prop where
  | returns {value : Value} {parser other : Parser} (fit : fits value)
      (same : parser.documents = other.documents) :
      Alike fits (.returns value parser) (.returns () other)
  | yyabort {parser other : Parser} : Alike fits (.yyabort parser) (.yyabort other)
  | assertion : Alike fits .assertion .assertion

/-- An action does to the here documents what the events do, and its value fits. -/
def Simulates (spelling : Text → Text) {Value : Type} (fits : Value → Prop) (action : Parse Value)
    (events : List Event) : Prop :=
  ∀ parser other : Parser, parser.documents = other.documents →
    Alike fits (action parser) (performs spelling events other)

/-! ### Rules of simulation -/

namespace Simulates

variable {spelling : Text → Text} {Value Result : Type}

theorem performs_append (events others : List Event) (parser : Parser) :
    performs spelling (events ++ others) parser =
      (performs spelling events >>= fun _ => performs spelling others) parser := by
  induction events generalizing parser with
  | nil => rfl
  | cons event events ih =>
    rw [List.cons_append, performs, performs, Parse.bind_apply, Parse.bind_apply,
      Parse.bind_apply]
    cases event.perform spelling parser with
    | returns _ after => exact ih after
    | yyabort _ => rfl
    | assertion => rfl

protected theorem pure {fits : Value → Prop} {value : Value} (fit : fits value) :
    Simulates spelling fits (pure value) [] :=
  fun _ _ same => .returns fit same

protected theorem bind {fits : Value → Prop} {fits' : Result → Prop} {action : Parse Value}
    {next : Value → Parse Result} {events others : List Event}
    (first : Simulates spelling fits action events)
    (second : ∀ value, fits value → Simulates spelling fits' (next value) others) :
    Simulates spelling fits' (action >>= next) (events ++ others) := by
  intro parser other same
  have alike := first parser other same
  rw [performs_append, Parse.bind_apply, Parse.bind_apply]
  generalize action parser = left at alike
  generalize performs spelling events other = right at alike
  cases alike with
  | returns fit same => exact second _ fit _ _ same
  | yyabort => exact .yyabort
  | assertion => exact .assertion

theorem reassociate {fits : Value → Prop} {action : Parse Value} {events others more : List Event}
    (simulates : Simulates spelling fits action (events ++ (others ++ more))) :
    Simulates spelling fits action (events ++ others ++ more) := by
  rwa [List.append_assoc]

/-- An action without events of its own after one with events. -/
theorem andThen {fits : Value → Prop} {fits' : Result → Prop} {action : Parse Value}
    {next : Value → Parse Result} {events : List Event}
    (first : Simulates spelling fits action events)
    (second : ∀ value, fits value → Simulates spelling fits' (next value) []) :
    Simulates spelling fits' (action >>= next) events := by
  have both := first.bind second
  rwa [List.append_nil] at both

/-- An action without events in front. -/
theorem silently {fits : Value → Prop} {fits' : Result → Prop} {action : Parse Value}
    {next : Value → Parse Result} {events : List Event}
    (first : Simulates spelling fits action [])
    (second : ∀ value, fits value → Simulates spelling fits' (next value) events) :
    Simulates spelling fits' (action >>= next) events :=
  first.bind second

theorem mono {fits fits' : Value → Prop} {action : Parse Value} {events : List Event}
    (simulates : Simulates spelling fits action events)
    (weaker : ∀ value, fits value → fits' value) :
    Simulates spelling fits' action events := by
  intro parser other same
  have alike := simulates parser other same
  generalize action parser = left at alike
  generalize performs spelling events other = right at alike
  cases alike with
  | returns fit same => exact .returns (weaker _ fit) same
  | yyabort => exact .yyabort
  | assertion => exact .assertion

theorem check {fits : Value → Prop} {value : Option Value}
    (built : ∃ tree, value = some tree ∧ fits tree) :
    Simulates spelling fits (Parse.check value) [] := by
  obtain ⟨tree, rfl, fit⟩ := built
  exact Simulates.pure fit

/-- One event at the end. -/
theorem event {fits : Value → Prop} {action : Parse Value} {event : Event}
    (single : ∀ parser other : Parser, parser.documents = other.documents →
      Alike fits (action parser) (event.perform spelling other)) :
    Simulates spelling fits action [event] := by
  intro parser other same
  have alike := single parser other same
  rw [performs, Parse.bind_apply]
  generalize action parser = left at alike
  generalize event.perform spelling other = right at alike
  cases alike with
  | returns fit same => exact .returns fit same
  | yyabort => exact .yyabort
  | assertion => exact .assertion

end Simulates

end Desh
