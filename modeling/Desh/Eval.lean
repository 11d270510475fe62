/-
This file models the loop of `eval` (`eval.c`), which runs a command list. In
each round the head of the list is a closure that is called, or a name that is
looked up; where a lookup gives words for the head, the list is rewritten and
the loop starts again. The functions that `eval` calls are a parameter.

The file proves what a chain of rounds does to the arguments of the command:
each lookup replaces the head of the list alone, but the words of a closure of
kind `nList` are followed by their own tail.
-/

import Desh.Vars

namespace Desh

/-! ### What `eval` calls -/

/-- The flags of `eval`. -/
structure EvalFlags where
  inchild : Bool
  exitonfalse : Bool
  deriving DecidableEq

/-- The functions that `eval` calls. A chain of bindings is the list of its cells. -/
structure Services (State Term Binding Exception : Type) where
  getclosure : Term → EStateM Exception State (Option (Tree × List Binding))
  getstr : Term → State → Text
  varlookup2 : Text → Text → List Binding → EStateM Exception State (List Term)
  glom : Tree → List Binding → EStateM Exception State (List Term)
  pathsearch : Term → EStateM Exception State (List Term)
  isabsolute : Text → Bool
  /-- The text of the error, if there is one. -/
  checkexecutable : Text → EStateM Exception State (Option Text)
  prim : Text → List Term → List Binding → EvalFlags → EStateM Exception State (List Term)
  walk : Tree → List Binding → EvalFlags → EStateM Exception State (List Term)
  bindargs : Tree → List Term → List Binding → EStateM Exception State (List Binding)
  /-- `varpush` of `0`, to the name of the function. -/
  varpush : Text → EStateM Exception State Unit
  varpop : EStateM Exception State Unit
  forkexec : Text → List Term → Bool → EStateM Exception State (List Term)
  /-- The values of an exception `return`. -/
  returned : Exception → Option (List Term)
  ltrue : List Term
  istrue : List Term → State → Bool
  exit : List Term → EStateM Exception State (List Term)
  /-- `++evaldepth`, and the failure beyond `maxevaldepth`. -/
  deepen : EStateM Exception State Unit
  /-- `--evaldepth`. -/
  leave : EStateM Exception State Unit
  /-- `fail`: who fails, and why. -/
  fail : Text → Text → Exception
  panic : Text → Exception
  /-- A failed assertion, or a null pointer followed. -/
  abort : Exception

/-! ### A round of the loop -/

/-- What a command list is a call of. -/
inductive Callee (Binding : Type) where
  | prim (s : Text)
  | thunk (tree : Tree) (context : List Binding)
  | lambda (params body : Tree) (context : List Binding)
  | program (file : Text)
  deriving DecidableEq

/-- What a round of the loop comes to: the list is empty, its head is the callee, the loop starts
again with another list (and the words that took the place of the head, and the name of the
function), or the null pointer is followed that `glom` has returned. -/
inductive Round (Term Binding : Type) where
  | empty
  | invoke (callee : Callee Binding)
  | restart (words list : List Term) (funcname : Option Text)
  | fault
  deriving DecidableEq

namespace Services

variable {State Term Binding Exception : Type}
variable (services : Services State Term Binding Exception)

/-- The `switch` on the kind of a closure. -/
def callClosure (tree : Tree) (context : List Binding) (funcname : Option Text) :
    EStateM Exception State (Round Term Binding) :=
  match tree with
  | .nPrim s => if context.isEmpty then pure (.invoke (.prim s)) else throw services.abort
  | .nThunk p => pure (.invoke (.thunk p context))
  | .nLambda p q => pure (.invoke (.lambda p q context))
  | .nList p q => do
      -- the list that is appended is the rest of the words, not of the command
      match ← services.glom (.nList p q) context with
      | [] => pure .fault
      | term :: next => pure (.restart (term :: next) (term :: next ++ next) funcname)
  | .null => throw services.abort
  | tree =>
      throw (services.panic (lit "eval: bad closure node kind " ++ decimalDigits tree.kind))

/-- What follows `pathsearch`: the path of a program, or words for the head of the list. -/
def searched (fn next : List Term) (funcname : Option Text) :
    EStateM Exception State (Round Term Binding) :=
  match fn with
  | [term] => do
      match ← services.getclosure term with
      | none => do
          let name ← observing (services.getstr term)
          pure (.invoke (.program name))
      | some _ => pure (.restart fn (fn ++ next) funcname)
  | _ => pure (.restart fn (fn ++ next) funcname)

/-- The lookup of a name. -/
def callName (term : Term) (next : List Term) (binding : List Binding) (funcname : Option Text) :
    EStateM Exception State (Round Term Binding) := do
  let name ← observing (services.getstr term)
  let fn ← services.varlookup2 (lit "fn-") name binding
  if !fn.isEmpty then pure (.restart fn (fn ++ next) (some name))
  else if services.isabsolute name then
    match ← services.checkexecutable name with
    | some error => throw (services.fail (lit "$&whatis") (name ++ lit ": " ++ error))
    | none => pure (.invoke (.program name))
  else do
    let fn ← services.pathsearch term
    services.searched fn next funcname

/-- A round of the loop of `eval`, from `restart` on. -/
def round (binding : List Binding) (list : List Term) (funcname : Option Text) :
    EStateM Exception State (Round Term Binding) :=
  match list with
  | [] => pure .empty
  | term :: next => do
      match ← services.getclosure term with
      | some (tree, context) => services.callClosure tree context funcname
      | none => services.callName term next binding funcname

/-! ### The loop -/

/-- The call of a lambda, whose exception `return` ends it. -/
def callLambda (params body : Tree) (context : List Binding) (arguments : List Term)
    (funcname : Option Text) (flags : EvalFlags) : EStateM Exception State (List Term) :=
  tryCatch
    (do
      let context ← services.bindargs params arguments context
      match funcname with
      | none => services.walk body context flags
      | some name => do
          services.varpush name
          let list ← services.walk body context flags
          services.varpop
          return list)
    fun e =>
      match services.returned e with
      | some list => pure list
      | none => throw e

/-- The call a list has come to. -/
def invoke (callee : Callee Binding) (list : List Term) (binding : List Binding)
    (funcname : Option Text) (flags : EvalFlags) : EStateM Exception State (List Term) :=
  match callee with
  | .prim s => services.prim s list.tail binding flags
  | .thunk p context => services.walk p context flags
  | .lambda p q context => services.callLambda p q context list.tail funcname flags
  | .program file => services.forkexec file list flags.inchild

/-- `eval` from the label `done` on. -/
def finish (flags : EvalFlags) (list : List Term) : EStateM Exception State (List Term) := do
  services.leave
  let success ← observing (services.istrue list)
  if flags.exitonfalse && !success then services.exit list else pure list

/-- The loop of `eval`, for a number of rounds: `none` where it has not ended by then. -/
def evalLoop (binding : List Binding) (flags : EvalFlags) :
    Nat → List Term → Option Text → EStateM Exception State (Option (List Term))
  | 0, _, _ => pure none
  | rounds + 1, list, funcname => do
      match ← services.round binding list funcname with
      | .empty => do
          services.leave
          return some services.ltrue
      | .invoke callee => do
          let list ← services.invoke callee list binding funcname flags
          let list ← services.finish flags list
          return some list
      | .restart _ list funcname => evalLoop binding flags rounds list funcname
      | .fault => throw services.abort

/-- `eval`. -/
def eval (rounds : Nat) (list : List Term) (binding : List Binding) (flags : EvalFlags) :
    EStateM Exception State (Option (List Term)) := do
  services.deepen
  services.evalLoop binding flags rounds list none

end Services

/-! ### Chains of restarts -/

/-- The command list with the words of each restart in the place of its head. -/
def substituted {Term : Type} (words : List (List Term)) (list : List Term) : List Term :=
  words.foldl (fun list fn => fn ++ list.tail) list

theorem substituted_append {Term : Type} (words : List (List Term)) (fn list : List Term) :
    substituted (words ++ [fn]) list = fn ++ (substituted words list).tail :=
  List.foldl_append ..

namespace Services

variable {State Term Binding Exception : Type}

/-- The lists the loop comes to from a command list: the words that each restart so far has
brought, the list, the name of the function and the state. -/
inductive Reached (services : Services State Term Binding Exception) (binding : List Binding)
    (list₀ : List Term) (state₀ : State) :
    List (List Term) → List Term → Option Text → State → Prop
  | start : Reached services binding list₀ state₀ [] list₀ none state₀
  | restart {words : List (List Term)} {fn list next : List Term} {funcname name : Option Text}
      {state later : State}
      (reached : Reached services binding list₀ state₀ words list funcname state)
      (round : services.round binding list funcname state = .ok (.restart fn next name) later) :
      Reached services binding list₀ state₀ (words ++ [fn]) next name later

/-- The head of the list is a closure of kind `nList`, and `glom` gives these words for it. -/
def GlomsHead (services : Services State Term Binding Exception) (list : List Term) (state : State)
    (words : List Term) : Prop :=
  ∃ term next p q context made later,
    list = term :: next ∧ services.getclosure term state = .ok (some (.nList p q, context)) made ∧
      services.glom (.nList p q) context made = .ok words later

/-- Every list the loop comes to, the one a callee is reached with among them, is the command list
with the words of each restart in the place of its head, and no null pointer is followed on the
way. -/
def KeepsArguments (services : Services State Term Binding Exception) (binding : List Binding)
    (list₀ : List Term) (state₀ : State) : Prop :=
  ∀ words list funcname state,
    services.Reached binding list₀ state₀ words list funcname state →
      list = substituted words list₀ ∧
        ∀ later, services.round binding list funcname state ≠ .ok .fault later

/-- Where a closure of kind `nList` is the head of a list the loop comes to, its words are one word
and the arguments over again. -/
def GlomsAlike (services : Services State Term Binding Exception) (binding : List Binding)
    (list₀ : List Term) (state₀ : State) : Prop :=
  ∀ words list funcname state,
    services.Reached binding list₀ state₀ words list funcname state →
      ∀ fn, services.GlomsHead list state fn → ∃ word, fn = word :: list.tail

/-! ### What a round does to the list -/

end Services

/-- The words a round brings, if it does, take the place of the head of the list alone. -/
def Round.Replaces {Term Binding : Type} (next : List Term) : Round Term Binding → Prop
  | .restart words list _ => list = words ++ next
  | .fault => False
  | _ => True

/-- What a round with a closure of kind `nList` comes to. -/
def Round.glommed {Term Binding : Type} (words : List Term) (funcname : Option Text) :
    Round Term Binding :=
  match words with
  | [] => .fault
  | term :: next => .restart (term :: next) (term :: next ++ next) funcname

namespace Services

section Rounds

variable {State Term Binding Exception : Type} {services : Services State Term Binding Exception}
  {binding : List Binding} {list next : List Term} {funcname : Option Text} {state later : State}
  {result : Round Term Binding}

theorem bind_eq_ok {α β : Type} {first : EStateM Exception State α}
    {second : α → EStateM Exception State β} {value : β}
    (returned : (first >>= second) state = .ok value later) :
    ∃ given made, first state = .ok given made ∧ second given made = .ok value later := by
  change EStateM.bind first second state = _ at returned
  unfold EStateM.bind at returned
  split at returned
  · exact ⟨_, _, ‹_›, returned⟩
  · cases returned

theorem bind_of_ok {α β : Type} {first : EStateM Exception State α}
    {second : α → EStateM Exception State β} {given : α}
    (returned : first state = .ok given later) :
    (first >>= second) state = second given later := by
  change EStateM.bind first second state = _
  unfold EStateM.bind
  rw [returned]

theorem searched_replaces {fn : List Term}
    (returned : services.searched fn next funcname state = .ok result later) :
    result.Replaces next := by
  unfold searched at returned
  split at returned
  · obtain ⟨closure, made, -, rest⟩ := bind_eq_ok returned
    cases closure with
    | none =>
      obtain ⟨path, _, -, invoked⟩ := bind_eq_ok rest
      cases invoked
      exact trivial
    | some _ =>
      cases rest
      exact rfl
  · cases returned
    exact rfl

theorem callName_replaces {term : Term}
    (returned : services.callName term next binding funcname state = .ok result later) :
    result.Replaces next := by
  unfold callName at returned
  obtain ⟨name, called, -, looked⟩ := bind_eq_ok returned
  obtain ⟨fn, found, -, rest⟩ := bind_eq_ok looked
  split at rest
  · cases rest
    exact rfl
  · split at rest
    · obtain ⟨error, checked, -, ended⟩ := bind_eq_ok rest
      cases error with
      | none =>
        cases ended
        exact trivial
      | some _ => cases ended
    · obtain ⟨path, _, -, ended⟩ := bind_eq_ok rest
      exact searched_replaces ended

/-- A closure is invoked, or it is of kind `nList`. -/
theorem callClosure_cases {tree : Tree} {context : List Binding}
    (returned : services.callClosure tree context funcname state = .ok result later) :
    result.Replaces next ∨
      ∃ p q fn, tree = .nList p q ∧ services.glom (.nList p q) context state = .ok fn later ∧
        result = .glommed fn funcname := by
  unfold callClosure at returned
  split at returned
  · split at returned
    · cases returned
      exact .inl trivial
    · cases returned
  · cases returned
    exact .inl trivial
  · cases returned
    exact .inl trivial
  · obtain ⟨fn, made, glommed, rest⟩ := bind_eq_ok returned
    cases fn <;> cases rest <;> exact .inr ⟨_, _, _, rfl, glommed, rfl⟩
  · cases returned
  · cases returned

/-- A round replaces the head of the list alone, but where the head is a closure of kind
`nList`. -/
theorem round_cases (returned : services.round binding list funcname state = .ok result later) :
    result.Replaces list.tail ∨
      ∃ fn, services.GlomsHead list state fn ∧ result = .glommed fn funcname := by
  unfold round at returned
  split at returned
  · cases returned
    exact .inl trivial
  · rename_i term next
    obtain ⟨closure, made, got, rest⟩ := bind_eq_ok returned
    match closure, got, rest with
    | none, _, rest => exact .inl (callName_replaces rest)
    | some (tree, context), got, rest =>
      obtain replaced | ⟨p, q, fn, rfl, glommed, same⟩ := callClosure_cases rest
      · exact .inl replaced
      · exact .inr ⟨fn, ⟨term, next, p, q, context, made, later, rfl, got, glommed⟩, same⟩

theorem GlomsHead.round {fn : List Term} (head : services.GlomsHead list state fn)
    (binding : List Binding) (funcname : Option Text) :
    ∃ later, services.round binding list funcname state = .ok (.glommed fn funcname) later := by
  obtain ⟨term, next, p, q, context, made, later, rfl, got, glommed⟩ := head
  refine ⟨later, ?_⟩
  rw [Services.round, bind_of_ok got]
  show services.callClosure (.nList p q) context funcname made = _
  rw [callClosure, bind_of_ok glommed]
  cases fn <;> rfl

end Rounds

/-! ### What a chain of restarts does to the list -/

section Chains

variable {State Term Binding Exception : Type} {services : Services State Term Binding Exception}
  {binding : List Binding} {list₀ : List Term} {state₀ : State}

/-- As long as the words of every `nList` are followed by the arguments, the arguments stay. -/
theorem GlomsAlike.reached (alike : services.GlomsAlike binding list₀ state₀)
    {words : List (List Term)} {list : List Term} {funcname : Option Text} {state : State}
    (reached : services.Reached binding list₀ state₀ words list funcname state) :
    list = substituted words list₀ := by
  induction reached with
  | start => rfl
  | restart before round same =>
    rename_i words fn list next funcname name state later
    rw [substituted_append, ← same]
    obtain replaced | ⟨glommed, head, result⟩ := round_cases round
    · exact replaced
    · obtain ⟨word, rfl⟩ := alike _ _ _ _ before _ head
      cases result
      rfl

/-- The loop keeps the arguments of the command exactly where the words of every closure of kind
`nList` are one word and the arguments over again. -/
theorem keepsArguments_iff :
    services.KeepsArguments binding list₀ state₀ ↔ services.GlomsAlike binding list₀ state₀ := by
  constructor
  · intro keeps words list funcname state reached fn head
    obtain ⟨later, round⟩ := head.round binding funcname
    cases fn with
    | nil => exact absurd round ((keeps _ _ _ _ reached).2 later)
    | cons word rest =>
      have same := (keeps _ _ _ _ (reached.restart round)).1
      rw [substituted_append, ← (keeps _ _ _ _ reached).1] at same
      exact ⟨word, congrArg (word :: ·) (List.append_cancel_left same)⟩
  · intro alike words list funcname state reached
    refine ⟨alike.reached reached, fun later round => ?_⟩
    obtain replaced | ⟨fn, head, result⟩ := round_cases round
    · exact replaced
    · obtain ⟨word, rfl⟩ := alike _ _ _ _ reached _ head
      cases result

end Chains

/-- The tree of `quotedText`, a command of two words. -/
def quotedTree : Tree :=
  .ofList [.nLambda .null (.ofList [.nWord (lit "echo")]), .nThunk (.ofList [.nWord (lit "b")])]

/-- A string that `getclosure` takes for a closure. -/
def quotedText : Text := lit "@ \x7becho\x7d \x7bb\x7d"

/-- Functions that read this string as the parser does. A list tree stands for the closures of its
elements, and nothing else is ever looked up. -/
def quotedCall : Services Unit TermCell BindingRef Unit where
  getclosure
    | .closure tree binding => pure (some (tree, binding))
    | .str s =>
        let parsed := readsClosure (fun s => if s = quotedText then some quotedTree else none) s
        pure (parsed.map fun (_, tree) => (tree, []))
  getstr _ _ := []
  varlookup2 _ _ _ := pure []
  glom tree binding := pure (((listOf tree).getD []).map fun tree => .closure tree binding)
  pathsearch _ := throw ()
  isabsolute _ := false
  checkexecutable _ := pure none
  prim _ _ _ _ := pure []
  walk _ _ _ := pure []
  bindargs _ _ binding := pure binding
  varpush _ := pure ()
  varpop := pure ()
  forkexec _ _ _ := pure []
  returned _ := none
  ltrue := []
  istrue _ _ := true
  exit _ := throw ()
  deepen := pure ()
  leave := pure ()
  fail _ _ := ()
  panic _ := ()
  abort := ()

/-- The closures of `quotedTree`. -/
def quotedWords : List TermCell :=
  [.closure (.nLambda .null (.ofList [.nWord (lit "echo")])) [],
    .closure (.nThunk (.ofList [.nWord (lit "b")])) []]

/-- The command `'@ {echo} {b}' x y` calls the lambda with the thunk twice, and without its
arguments. -/
theorem quotedCall_loses_arguments :
    quotedCall.Reached [] [.str quotedText, .str (lit "x"), .str (lit "y")] ()
        [quotedWords] (quotedWords ++ quotedWords.tail) none () ∧
      quotedCall.round [] (quotedWords ++ quotedWords.tail) none () =
        .ok (.invoke (.lambda .null (.ofList [.nWord (lit "echo")]) [])) () ∧
      quotedWords ++ quotedWords.tail ≠
        substituted [quotedWords] [.str quotedText, .str (lit "x"), .str (lit "y")] ∧
      ¬quotedCall.KeepsArguments [] [.str quotedText, .str (lit "x"), .str (lit "y")] () := by
  have reached : quotedCall.Reached [] [.str quotedText, .str (lit "x"), .str (lit "y")] ()
      [quotedWords] (quotedWords ++ quotedWords.tail) none () := .restart .start rfl
  have lost : quotedWords ++ quotedWords.tail ≠
      substituted [quotedWords] [.str quotedText, .str (lit "x"), .str (lit "y")] := by
    decide +kernel
  exact ⟨reached, rfl, lost, fun keeps => lost (keeps _ _ _ _ reached).1⟩

/-! ### What the loop comes to -/

section Loop

variable {State Term Binding Exception : Type} {services : Services State Term Binding Exception}
  {binding : List Binding} {list₀ : List Term} {state₀ : State} {flags : EvalFlags}

/-- A run of the loop that ends comes to an empty list, or to the call of a list that is reached by
restarts. -/
theorem evalLoop_reached {rounds : Nat} {words : List (List Term)} {list value : List Term}
    {funcname : Option Text} {state later : State}
    (reached : services.Reached binding list₀ state₀ words list funcname state)
    (returned :
      services.evalLoop binding flags rounds list funcname state = .ok (some value) later) :
    (∃ words list funcname state,
      services.Reached binding list₀ state₀ words list funcname state ∧
        ∃ made, services.round binding list funcname state = .ok .empty made ∧
          value = services.ltrue) ∨
      ∃ words list funcname state callee made result ended,
        services.Reached binding list₀ state₀ words list funcname state ∧
          services.round binding list funcname state = .ok (.invoke callee) made ∧
          services.invoke callee list binding funcname flags made = .ok result ended ∧
          services.finish flags result ended = .ok value later := by
  induction rounds generalizing words list funcname state with
  | zero => cases returned
  | succ rounds ih =>
    obtain ⟨result, made, round, rest⟩ := bind_eq_ok returned
    cases result with
    | empty =>
      obtain ⟨_, left, -, ended⟩ := bind_eq_ok rest
      cases ended
      exact .inl ⟨words, list, funcname, state, reached, made, round, rfl⟩
    | invoke callee =>
      obtain ⟨result, ended, invoked, last⟩ := bind_eq_ok rest
      obtain ⟨_, _, finished, same⟩ := bind_eq_ok last
      cases same
      exact .inr ⟨words, list, funcname, state, callee, made, result, ended, reached, round,
        invoked, finished⟩
    | restart fn next name => exact ih (reached.restart round) rest
    | fault => cases rest

/-- A command whose arguments are kept, and which `eval` brings to an end, is an empty list or the
call of its callee with the words of the restarts and the arguments. -/
theorem evalLoop_keeps (keeps : services.KeepsArguments binding list₀ state₀) {rounds : Nat}
    {value : List Term} {later : State}
    (returned : services.evalLoop binding flags rounds list₀ none state₀ = .ok (some value) later) :
    value = services.ltrue ∨
      ∃ words callee funcname made result ended,
        services.invoke callee (substituted words list₀) binding funcname flags made =
            .ok result ended ∧
          services.finish flags result ended = .ok value later := by
  obtain ⟨words, list, funcname, state, reached, made, round, same⟩ |
      ⟨words, list, funcname, state, callee, made, result, ended, reached, round, invoked,
        finished⟩ :=
    evalLoop_reached .start returned
  · exact .inl same
  · refine .inr ⟨words, callee, funcname, made, result, ended, ?_, finished⟩
    rw [← (keeps _ _ _ _ reached).1]
    exact invoked

end Loop

end Services

end Desh
