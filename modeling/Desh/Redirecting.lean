/-
This file proves what the actions do with one redirection and with a chain of
them: `mkredir` makes it a call with a placeholder (`makes_redir`), and
`redirect` nests the calls of a chain (`redirected_nests`). A parse that ends
without an error had none before, so that no here document was refused and no
operator was given a block it cannot take (`onward_action`).
-/

import Desh.Written

namespace Desh

open Desh.Tree

/-! ### The state goes onward -/

/-- The counter does not go back, and an error that was reported stays. -/
def Onward {Value : Type} (action : Parse Value) : Prop :=
  ∀ parser value after, action parser = .returns value after →
    parser.id ≤ after.id ∧ (after.error = none → parser.error = none)

namespace Onward

variable {Value Result : Type}

protected theorem pure (value : Value) : Onward (pure value) := by
  rintro parser _ _ ⟨⟩
  exact ⟨le_rfl, id⟩

protected theorem bind {first : Parse Value} {next : Value → Parse Result} (onward : Onward first)
    (onward' : ∀ value, Onward (next value)) : Onward (first >>= next) := by
  intro parser result after returned
  obtain ⟨value, middle, first, second⟩ := returns_of_bind returned
  obtain ⟨id, error⟩ := onward _ _ _ first
  obtain ⟨id', error'⟩ := onward' _ _ _ _ second
  exact ⟨id.trans id', fun none => error (error' none)⟩

theorem check (value : Option Value) : Onward (Parse.check value) := by
  cases value with
  | none => nofun
  | some value => exact .pure value

theorem yyerror (message : Text) : Onward (Parse.yyerror message) := by
  rintro parser _ _ ⟨⟩
  refine ⟨le_rfl, fun none => ?_⟩
  cases first : parser.error with
  | none => rfl
  | some other =>
    dsimp only at none
    rw [first] at none
    cases none

theorem readheredocs (spelling : Text → Text) (endfile : Bool) :
    Onward (Desh.readheredocs spelling endfile) := by
  intro parser value after returned
  unfold Desh.readheredocs at returned
  split at returned
  · split at returned
    · obtain ⟨-, rfl⟩ := Parsed.returns.inj returned
      exact ⟨le_rfl, id⟩
    · exact ((yyerror _).bind fun _ => .pure false) _ _ _ returned
  · dsimp only at returned
    split at returned
    · obtain ⟨-, rfl⟩ := Parsed.returns.inj returned
      exact ⟨le_rfl, id⟩
    · exact ((yyerror _).bind fun _ => .pure false) _ _ _ returned
    · cases returned

theorem endLine (spelling : Text → Text) (endfile : Bool) :
    Onward (Desh.endLine spelling endfile) := by
  refine (readheredocs spelling endfile).bind fun read => ?_
  cases read with
  | true => exact .pure ()
  | false => nofun

theorem queueheredoc (t : Tree) : Onward (Desh.queueheredoc t) := by
  unfold Desh.queueheredoc
  split
  · rename_i s fd eof rest
    split
    · nofun
    · cases eof with
      | null => nofun
      | nWord _ | nQword _ =>
        rintro parser _ _ ⟨⟩
        exact ⟨le_rfl, id⟩
      | _ => exact (yyerror _).bind fun _ => .pure none
  · nofun

theorem redirectMany (n : Nat) (t : Tree) : Onward (Desh.redirectMany n t) := by
  induction n generalizing t with
  | zero => exact .pure (some t)
  | succ n ih =>
    have rest : ∀ t queued, Onward (redirectQueued n t queued) := by
      rintro t (_ | r)
      · exact .pure none
      · exact (ih t).bind fun inner => (check _).bind fun inner => .pure _
    cases t with
    | nRedir r t =>
      refine (check _).bind fun unwrapped => ?_
      dsimp only
      split
      · nofun
      · split
        · refine (queueheredoc _).bind fun queued => ?_
          cases queued with
          | none => exact rest unwrapped.2 none
          | some r => exact rest unwrapped.2 (some r)
        · exact rest unwrapped.2 (some unwrapped.1)
    | _ => exact .pure _

theorem redirected (t : Tree) : Onward (Desh.redirected t) := by
  refine (redirectMany _ t).bind fun t => ?_
  cases t with
  | none => nofun
  | some t => exact .pure t

theorem mkredir (cmd file : Tree) : Onward (Desh.mkredir cmd file) := by
  unfold Desh.mkredir
  split
  · have named : ∀ op body, Onward (do
        let var ← fun parser =>
          .returns (nWord (lit "_devfd" ++ decimal parser.id)) { parser with id := parser.id + 1 }
        pure (nRedir (ofList [nVar var]) (ofList [nWord op, var, nThunk body, placeholder])) :
          Parse Tree) := fun op body => Onward.bind (by
      rintro parser _ _ ⟨⟩
      exact ⟨Nat.le_succ _, id⟩) fun var => .pure _
    dsimp only
    split
    · exact named _ _
    · split
      · exact named _ _
      · exact (yyerror _).bind fun _ => named _ _
  · exact check _

end Onward

/-- The actions of the grammar go onward. -/
theorem onward_action (spelling : Text → Text) {symbol : Nonterminal}
    (derivation : Derivation symbol) : Onward (action spelling derivation) := by
  induction derivation with
  | lineCmd _ ih | bodyCmd _ ih | cmdsaSemicolon _ ih | cmdsanCmdsa _ ih | cmdFn _ ih
  | bindingFn _ ih | assignWords _ _ _ ih | firstComword _ ih | swordComword _ ih
  | wordSword _ ih | comwordParam _ ih | comwordNlwords _ ih | nlwordsNl _ ih => exact ih
  | cmdEmpty | redirDup _ | bindingEmpty | swordKeyword _ | comwordPrim _ | paramWord _ _
  | paramQword _ | paramsNil | wordsNil | nlwordsNil => exact .pure _
  | esNl _ ih | esEndfile _ ih | cmdsanNl _ ih =>
    exact ih.bind fun _ => (Onward.endLine spelling _).bind fun _ => .pure _
  | cmdsaBackground _ ih | cmdNot _ _ ih =>
    exact ih.bind fun _ => (Onward.check _).bind fun _ => .pure _
  | cmdSimple _ ih => exact ih.bind fun _ => .redirected _
  | redirWord _ _ _ ih => exact ih.bind fun _ => .mkredir _ _
  | simpleFirst _ ih | bindingsBinding _ ih | comwordBody _ ih =>
    exact ih.bind fun _ => .check _
  | fnWord _ ih | comwordVar _ ih | comwordCall _ ih | comwordCount _ ih | comwordFlat _ ih
  | comwordBackquote _ ih => exact ih.bind fun _ => .pure _
  | cmdRedir _ _ ih ih' => exact ih.bind fun _ => ih'.bind fun _ => .redirected _
  | lineCmdsa _ _ ih ih' | bodyCmdsan _ _ ih ih' | cmdAndand _ _ _ ih ih'
  | cmdOror _ _ _ ih ih' | cmdPipe _ _ _ _ _ ih ih' | simpleWord _ _ ih ih'
  | simpleRedir _ _ ih ih' | bindingsSemicolon _ _ ih ih' | bindingsNl _ _ ih ih'
  | paramsParam _ _ ih ih' | wordsWord _ _ ih ih' | nlwordsWord _ _ ih ih' =>
    exact ih.bind fun _ => ih'.bind fun _ => .check _
  | cmdAssign _ _ ih ih' | cmdBinder _ _ _ _ _ ih ih' | cmdMatch _ _ ih ih'
  | cmdExtract _ _ ih ih' | cmdRelop _ _ _ ih ih' | bindingAssign _ _ ih ih'
  | firstCaret _ _ _ ih ih' | wordCaret _ _ _ ih ih' | comwordLambda _ _ ih ih'
  | comwordVarsub _ _ ih ih' | comwordBackback _ _ ih ih' =>
    exact ih.bind fun _ => ih'.bind fun _ => .pure _
  | fnBody _ _ _ ih ih' ih'' =>
    exact ih.bind fun _ => ih'.bind fun _ => ih''.bind fun _ => .pure _

/-! ### Calls -/

namespace RedirCall

/-- The command of a redirection as `mkredir` makes it, with a placeholder. -/
def command (call : RedirCall) : Tree := ofList (nWord call.name :: call.args ++ [placeholder])

/-- The tree of a redirection: the word for its pipe is in front. -/
def queued (call : RedirCall) : Tree :=
  match call.var with
  | none => call.command
  | some var => nRedir (ofList [nVar (nWord var)]) call.command

/-- The call after the here document is queued. -/
def applied (call : RedirCall) : RedirCall :=
  if call.name = lit "%heredoc" then { call with name := lit "%here" } else call

/-- A call that `redirect` can fill. -/
structure WellFormed (call : RedirCall) : Prop where
  bare : placeholder ∉ call.args
  marker : call.name = lit "%heredoc" → ∃ fd eof, call.args = [fd, eof]

@[simp] theorem applied_args (call : RedirCall) : call.applied.args = call.args := by
  unfold applied
  split <;> rfl

@[simp] theorem applied_var (call : RedirCall) : call.applied.var = call.var := by
  unfold applied
  split <;> rfl

@[simp] theorem applied_words (call : RedirCall) : call.applied.words = call.words := by
  rw [words, words, applied_var]

theorem tree_injective {call call' : RedirCall} {cmd cmd' : Tree}
    (same : call.tree cmd = call'.tree cmd') :
    call.name = call'.name ∧ call.args = call'.args ∧ cmd = cmd' := by
  obtain ⟨name, rest⟩ := List.cons.inj (ofList_injective same)
  obtain ⟨args, last⟩ := List.append_inj' rest rfl
  exact ⟨Tree.nWord.inj name, args, (List.cons.inj last).1⟩

end RedirCall

theorem thunkify_cases {t cmd : Tree} (made : thunkify t = some cmd) (bare : ∀ p, t ≠ nThunk p) :
    cmd = nThunk t ∨ cmd = t := by
  unfold thunkify at made
  split at made
  · exact absurd rfl (bare _)
  · cases made
  · exact .inr (Option.some.inj made).symm
  · exact .inl (Option.some.inj made).symm

/-- A thunk is made of one list only. -/
theorem thunkify_injective {l m : List Tree} {cmd : Tree} (made : thunkify (ofList l) = some cmd)
    (made' : thunkify (ofList m) = some cmd) : ofList l = ofList m := by
  have bare : ∀ l p, ofList l ≠ nThunk p := by rintro (_ | _) _ ⟨⟩
  rcases thunkify_cases made (bare l) with rfl | rfl
  · rcases thunkify_cases made' (bare m) with same | same
    · exact Tree.nThunk.inj same
    · exact absurd same.symm (bare m _)
  · rcases thunkify_cases made' (bare m) with same | same
    · exact absurd same (bare l _)
    · exact same

/-! ### Redirecting -/

theorem fillPlaceholder_append (t : Tree) {args : List Tree} (bare : placeholder ∉ args) :
    fillPlaceholder t (ofList (args ++ [placeholder])) = ofList (args ++ [t]) := by
  induction args with
  | nil => rfl
  | cons head args ih =>
    rw [List.mem_cons, not_or] at bare
    rw [List.cons_append, ofList_cons, fillPlaceholder, ih bare.2]
    · rfl
    · exact fun same => bare.1 same.symm

namespace RedirCall

theorem fill_command {call : RedirCall} (wellFormed : call.WellFormed) (cmd : Tree) :
    fillPlaceholder cmd call.command = call.tree cmd := by
  refine @fillPlaceholder_append cmd (nWord call.name :: call.args) ?_
  rw [List.mem_cons, not_or]
  exact ⟨nofun, wellFormed.bare⟩

variable {parser after : Parser}

/-- What is done once the command of the redirection is queued. -/
theorem redirectQueued_returns {call : RedirCall} (wellFormed : call.WellFormed) {n : Nat}
    {t : Tree} {result : Option Tree}
    (returned : redirectQueued n t (some call.command) parser = .returns result after) :
    ∃ inner middle cmd, redirectMany n t middle = .returns inner after ∧
      thunkify (inner.getD errornode) = some cmd ∧ result = some (call.tree cmd) := by
  obtain ⟨inner, middle, isInner, rest⟩ := returns_of_bind returned
  obtain ⟨cmd, last, made, done⟩ := returns_of_bind rest
  obtain rfl := eq_of_pure done
  have thunk := eq_of_check made
  rw [thunk] at made
  cases made
  cases done
  exact ⟨inner, parser, cmd, isInner, thunk, by rw [fill_command wellFormed]⟩

/-- One redirection. -/
theorem redirectMany_returns {call : RedirCall} (wellFormed : call.WellFormed) {n : Nat} {t : Tree}
    {result : Option Tree}
    (returned : redirectMany (n + 1) (nRedir call.command t) parser = .returns result after)
    (accepted : after.error = none) :
    ∃ inner middle cmd, redirectMany n t middle = .returns inner after ∧
      thunkify (inner.getD errornode) = some cmd ∧ result = some (call.applied.tree cmd) := by
  obtain ⟨name, args, var⟩ := call
  rw [command, redirectMany_command] at returned
  by_cases marker : name = lit "%heredoc"
  · obtain ⟨fd, eof, rfl⟩ := wellFormed.marker marker
    subst marker
    obtain ⟨queued, middle, isQueued, rest⟩ := returns_of_bind returned
    change queueheredoc (ofList [nWord (lit "%heredoc"), fd, eof, placeholder]) parser =
      .returns queued middle at isQueued
    have literal : (∃ s, eof = nWord s ∨ eof = nQword s) → _ := fun word =>
      isQueued.symm.trans (queueheredoc_literal fd word parser)
    have here : queued = some (RedirCall.command ⟨lit "%here", [fd, eof], var⟩) := by
      cases eof with
      | nWord s => exact (Parsed.returns.inj (literal ⟨s, .inl rfl⟩)).1
      | nQword s => exact (Parsed.returns.inj (literal ⟨s, .inr rfl⟩)).1
      | null => cases isQueued
      | _ =>
        -- the marker is refused, and the error stays
        obtain ⟨_, reported, error, refused⟩ := returns_of_bind isQueued
        obtain rfl := eq_of_pure refused
        cases rest
        cases refused
        cases error
        cases was : parser.error <;> rw [was] at accepted <;> cases accepted
    rw [here] at rest
    exact @redirectQueued_returns _ _ ⟨lit "%here", [fd, eof], var⟩
      ⟨wellFormed.bare, (absurd · (show lit "%here" ≠ lit "%heredoc" by decide))⟩ _ _ _ rest
  · have first : firstis (ofList (nWord name :: args ++ [placeholder])) (lit "%heredoc") = false :=
      beq_eq_false_iff_ne.mpr marker
    rw [first] at returned
    have applied : RedirCall.applied ⟨name, args, var⟩ = ⟨name, args, var⟩ := if_neg marker
    rw [applied]
    exact redirectQueued_returns wellFormed returned

/-- The redirections in front of words are nested. -/
theorem redirectMany_nests {calls : List RedirCall} (wellFormed : ∀ call ∈ calls, call.WellFormed)
    (words : List Tree) {result : Option Tree}
    (returned : redirectMany calls.length (chained (calls.map command) (ofList words)) parser =
      .returns result after) (accepted : after.error = none) :
    ∃ l, result = some (ofList l) ∧ Nests (calls.map applied) (ofList words) (ofList l) := by
  induction calls generalizing parser result with
  | nil =>
    cases returned
    exact ⟨words, rfl, .nil _⟩
  | cons call calls ih =>
    rw [List.forall_mem_cons] at wellFormed
    obtain ⟨inner, middle, cmd, isInner, made, rfl⟩ :=
      redirectMany_returns wellFormed.1 returned accepted
    obtain ⟨l, rfl, nests⟩ := ih wellFormed.2 isInner
    exact ⟨_, rfl, .cons nests made⟩

theorem redirected_nests {calls : List RedirCall} (wellFormed : ∀ call ∈ calls, call.WellFormed)
    (words : List Tree) {tree : Tree}
    (returned : redirected (chained (calls.map command) (ofList words)) parser =
      .returns tree after) (accepted : after.error = none) :
    ∃ l, tree = ofList l ∧ Nests (calls.map applied) (ofList words) (ofList l) := by
  have bare : redirections (ofList words) = 0 := by cases words <;> rfl
  have count : redirections (chained (calls.map command) (ofList words)) = calls.length := by
    rw [redirections_chained, bare, List.length_map, Nat.add_zero]
  obtain ⟨result, middle, isResult, rest⟩ := returns_of_bind returned
  rw [redirect, count] at isResult
  cases result with
  | none => cases rest
  | some t =>
    cases rest
    obtain ⟨l, same, nests⟩ := redirectMany_nests wellFormed words isResult accepted
    exact ⟨l, Option.some.inj same, nests⟩

/-- The word for a pipe is put behind the command the redirection is in front of. -/
theorem redirected_queued (call : RedirCall) (l : List Tree) :
    redirected (nRedir call.queued (ofList l)) =
      redirected (nRedir call.command (ofList (l ++ call.words))) := by
  have bare : ∀ l, redirections (ofList l) = 0 := by rintro (_ | _) <;> rfl
  cases named : call.var with
  | none =>
    rw [queued, words, named]
    exact congrArg (fun l => redirected (nRedir call.command (ofList l))) (List.append_nil l).symm
  | some var =>
    rw [queued, words, named]
    exact redirected_word (treeappend_ofList l [nVar (nWord var)]) (bare _) (bare _)

end RedirCall

/-! ### Making redirections -/

theorem nlwords_form : ∀ nlwords : Derivation .nlwords, nlwords.form ≠ .thunk
  | .nlwordsNil | .nlwordsWord _ _ => nofun
  | .nlwordsNl nlwords => nlwords_form nlwords

/-- The form of a block. -/
theorem form_of_block {word : Derivation .word} {body : Derivation .body}
    (block : word.block = some body) :
    word.form = if body.form = .loneThunk then .value else .thunk := by
  cases word with
  | wordCaret => cases block
  | wordSword sword =>
    cases sword with
    | swordKeyword => cases block
    | swordComword comword =>
      cases comword <;> cases block
      rfl

/-- A word whose tree is a thunk is a block. -/
theorem block_of_form {word : Derivation .word} (thunk : word.form = .thunk) :
    ∃ body, word.block = some body ∧ body.form ≠ .loneThunk := by
  cases word with
  | wordCaret => cases thunk
  | wordSword sword =>
    cases sword with
    | swordKeyword => cases thunk
    | swordComword comword =>
      cases comword with
      | comwordBody body =>
        refine ⟨body, rfl, fun lone => ?_⟩
        have formed := @form_of_block (.wordSword (.swordComword (.comwordBody body))) body rfl
        rw [if_pos lone, thunk] at formed
        cases formed
      | comwordNlwords nlwords => exact absurd thunk (nlwords_form nlwords)
      | comwordParam param => cases param <;> cases thunk
      | _ => cases thunk

theorem Form.Fits.of_word {form : Form} {t : Tree} (fits : form.Fits t) (word : form.IsWord) :
    t ≠ placeholder ∧ (form = .thunk ↔ ∃ p, t = nThunk p) := by
  cases form with
  | null =>
    obtain rfl : t = Tree.null := fits
    exact ⟨nofun, iff_of_false nofun nofun⟩
  | literal eof => obtain ⟨rfl, s, rfl | rfl⟩ := fits <;> exact ⟨nofun, iff_of_false nofun nofun⟩
  | thunk =>
    obtain ⟨p, rfl⟩ := fits
    exact ⟨nofun, iff_of_true rfl ⟨p, rfl⟩⟩
  | value => cases t <;> first | exact fits.elim | exact ⟨nofun, iff_of_false nofun nofun⟩
  | loneThunk | list | node => exact word.elim

/-- The name of the variable of a pipe. -/
def devfd (id : Nat) : Text := lit "_devfd" ++ decimal id

theorem ofUInt8_toUInt8 {c : Char} (digit : c.isDigit = true) : Char.ofUInt8 c.toUInt8 = c := by
  rw [Char.isDigit, Bool.and_eq_true, decide_eq_true_eq, decide_eq_true_eq] at digit
  have low : 48 ≤ c.toNat := digit.1
  have high : c.toNat ≤ 57 := digit.2
  rw [← Char.ofNat_toNat c]
  interval_cases c.toNat <;> rfl

theorem decimal_injective {m n : Nat} (same : decimal m = decimal n) : m = n := by
  have read : ∀ n : Nat, (decimal n).map Char.ofUInt8 = Nat.toDigits 10 n := fun n => by
    have digits : decimal n = (Nat.toDigits 10 n).map Char.toUInt8 := by
      rw [← Nat.toList_repr]
      rfl
    rw [digits, List.map_map]
    refine (List.map_congr_left fun c member => ?_).trans (List.map_id _)
    exact ofUInt8_toUInt8 (Nat.isDigit_of_mem_toDigits (by decide) (by decide) member)
  rw [← @Nat.ofDigitChars_ten_toDigits m, ← read, same, read, Nat.ofDigitChars_ten_toDigits]

theorem devfd_injective {m n : Nat} (same : devfd m = devfd n) : m = n :=
  decimal_injective (List.append_cancel_left same)

/-! ### What is gathered -/

/-- The call that `mkredir` makes of a redirection. A block that consists of one more block is
taken for a file. -/
structure Makes (redir : Derivation .redir × Tree) (call : RedirCall) : Prop where
  wellFormed : call.WellFormed
  length : ∀ var, call.args.length = (RedirCall.ofRedir redir.1 redir.2 var).args.length
  piped : call.var ≠ none → redir.1.process ≠ none
  lone : ∀ body, redir.1.process = some body → body.form = .loneThunk →
    ∀ var, call.applied.name ≠ (RedirCall.ofRedir redir.1 redir.2 var).name
  stands : (∀ body, redir.1.process = some body → body.form ≠ .loneThunk) →
    RedirCall.Stands redir call.applied

theorem process_redirWord (operator : Operator) (fd : Int) (word : Derivation .word) :
    (Derivation.redirWord operator fd word).process =
      if operator.device = none then none else word.block := rfl

theorem makes_dup (dup : Dup) :
    ∃ call : RedirCall, dup.tree = call.queued ∧ call.var = none ∧
      Makes (.redirDup dup, null) call := by
  have stands : RedirCall.Stands (.redirDup dup, null)
      (RedirCall.ofRedir (.redirDup dup) null []).applied := ⟨[], by cases dup <;> rfl⟩
  refine ⟨RedirCall.ofRedir (.redirDup dup) null [], by cases dup <;> rfl, by cases dup <;> rfl, ?_⟩
  cases dup with
  | close fd =>
    exact ⟨⟨by simp [RedirCall.ofRedir], (absurd · (show lit "%close" ≠ lit "%heredoc" by decide))⟩,
      fun _ => rfl, fun named => absurd rfl named, nofun, fun _ => stands⟩
  | dup fd0 fd1 =>
    exact ⟨⟨by simp [RedirCall.ofRedir], fun _ => ⟨_, _, rfl⟩⟩, fun _ => rfl,
      fun named => absurd rfl named, nofun, fun _ => stands⟩

theorem device_spec {operator : Operator} {device : Text} (runs : operator.device = some device) :
    device ≠ lit "%heredoc" ∧ operator.command ≠ lit "%heredoc" ∧ operator.command ≠ device := by
  cases operator <;> cases runs <;> decide

section

variable {operator : Operator} {fd : Int} {word : Derivation .word} {file : Tree}

theorem ofRedir_block {device : Text} {body : Derivation .body}
    (runs : operator.device = some device) (block : word.block = some body) (var : Text) :
    RedirCall.ofRedir (.redirWord operator fd word) file var =
      ⟨device, [nWord var, file], some var⟩ := by
  rw [RedirCall.ofRedir, runs, block]

theorem ofRedir_file (other : operator.device = none ∨ word.block = none) (var : Text) :
    RedirCall.ofRedir (.redirWord operator fd word) file var =
      if operator = .heredoc ∨ operator = .here then ⟨lit "%here", [nWord (decimal fd), file], none⟩
      else ⟨operator.command,
        [nWord (decimal fd), nCall (ofList [nWord (lit "%one"), file])], none⟩ := by
  rw [RedirCall.ofRedir]
  rcases other with other | other
  · rw [other]
  · rw [other]
    cases operator.device <;> rfl

theorem length_ofRedir (var : Text) :
    (RedirCall.ofRedir (.redirWord operator fd word) file var).args.length = 2 := by
  rw [RedirCall.ofRedir]
  split
  · rfl
  · split <;> rfl

/-- A redirection from or to a block. -/
theorem makes_block {device : Text} {body : Derivation .body}
    (runs : operator.device = some device) (block : word.block = some body)
    (several : body.form ≠ .loneThunk) (bare : file ≠ placeholder) (id : Nat) :
    Makes (.redirWord operator fd word, file)
      ⟨device, [nWord (devfd id), file], some (devfd id)⟩ where
  wellFormed := ⟨by simp [Ne.symm bare], fun _ => ⟨_, _, rfl⟩⟩
  length var := (length_ofRedir var).symm
  piped _ := by
    rw [process_redirWord, runs, if_neg nofun, block]
    nofun
  lone body' process lone := by
    rw [process_redirWord, runs, if_neg nofun, block] at process
    cases process
    exact absurd lone several
  stands _ := by
    refine ⟨devfd id, ?_⟩
    rw [ofRedir_block runs block]
    exact if_neg (device_spec runs).1

/-- A redirection from or to a file. -/
theorem makes_file (bare : file ≠ placeholder)
    (lone : operator.device ≠ none → ∀ body, word.block = some body → body.form = .loneThunk) :
    Makes (.redirWord operator fd word, file) ⟨operator.command, [nWord (decimal fd),
      if operator = .heredoc ∨ operator = .here then file
      else nCall (ofList [nWord (lit "%one"), file])], none⟩ where
  wellFormed := by
    refine ⟨?_, fun _ => ⟨_, _, rfl⟩⟩
    split <;> simp [Ne.symm bare]
  length var := (length_ofRedir var).symm
  piped named := absurd rfl named
  lone body process _ var := by
    rw [process_redirWord] at process
    split at process
    · cases process
    · rename_i device
      obtain ⟨device, runs⟩ := Option.ne_none_iff_exists'.mp device
      obtain ⟨-, other, differs⟩ := device_spec runs
      rw [ofRedir_block runs process, RedirCall.applied, if_neg other]
      exact differs
  stands several := by
    refine ⟨[], ?_⟩
    have other : operator.device = none ∨ word.block = none := by
      by_contra both
      rw [not_or] at both
      obtain ⟨body, block⟩ := Option.ne_none_iff_exists'.mp both.2
      have process : (Derivation.redirWord operator fd word).process = some body := by
        rw [process_redirWord, if_neg both.1, block]
      exact several body process (lone both.1 body block)
    rw [ofRedir_file other]
    cases operator <;> rfl

end

/-- A redirection from or to a block takes a number for its pipe. -/
theorem mkredir_block {operator : Operator} {device : Text} (runs : operator.device = some device)
    (fd : Int) (body : Tree) (parser : Parser) :
    mkredir (mkredircmd operator.command fd) (nThunk body) parser =
      .returns (RedirCall.queued ⟨device, [nWord (devfd parser.id), nThunk body],
        some (devfd parser.id)⟩) { parser with id := parser.id + 1 } := by
  cases operator <;> cases runs <;> rfl

/-- No other operator takes a block. -/
theorem mkredir_refused {operator : Operator} (other : operator.device = none) (fd : Int)
    (body : Tree) (parser : Parser) :
    ∃ t after, mkredir (mkredircmd operator.command fd) (nThunk body) parser = .returns t after ∧
      after.error ≠ none := by
  have reported : (parser.error <|> some (lit "bad /dev/fd redirection")) ≠ none := by
    cases parser.error <;> nofun
  cases operator <;> first | exact ⟨_, _, rfl, reported⟩ | cases other

theorem mkredir_document (operator : Operator) (fd : Int) {file : Tree}
    (other : ∀ body, file ≠ nThunk body) :
    mkredir (mkredircmd operator.command fd) file =
      pure (RedirCall.queued ⟨operator.command, [nWord (decimal fd),
        if operator = .heredoc ∨ operator = .here then file
        else nCall (ofList [nWord (lit "%one"), file])], none⟩) := by
  have same : (firstis (mkredircmd operator.command fd) (lit "%heredoc") ∨
      firstis (mkredircmd operator.command fd) (lit "%here")) ↔
        operator = .heredoc ∨ operator = .here := by
    show operator.command == lit "%heredoc" ∨ operator.command == lit "%here" ↔ _
    cases operator <;> decide
  rw [mkredir_file _ _ other, if_congr same rfl rfl]
  rfl

/-- What a redirection is made into, and the number its pipe takes. -/
theorem makes_redir {redir : Derivation .redir} {parser after : Parser} {r : Tree}
    (returned : action id redir parser = .returns r after) (accepted : after.error = none) :
    ∃ file call, readPart (.redir redir) parser = .returns (.redir redir file) after ∧
      r = call.queued ∧ Makes (redir, file) call ∧
      ∀ var, call.var = some var → ∃ n, parser.id ≤ n ∧ n < after.id ∧ var = devfd n := by
  cases redir with
  | redirDup dup =>
    obtain ⟨call, same, unnamed, makes⟩ := makes_dup dup
    cases returned
    exact ⟨null, call, rfl, same, makes, fun var named => by rw [unnamed] at named; cases named⟩
  | redirWord operator fd word =>
    obtain ⟨file, middle, isFile, made⟩ := returns_of_bind returned
    have read : readPart (.redir (.redirWord operator fd word)) parser =
        .returns (.redir (.redirWord operator fd word) file) after := by
      rw [readPart, bind_of_returns isFile, bind_of_returns made]
      rfl
    obtain ⟨isWord, fits⟩ := builds_of_returns isFile
    obtain ⟨bare, isThunk⟩ := fits.of_word isWord
    by_cases thunk : word.form = .thunk
    · obtain ⟨body, block, several⟩ := block_of_form thunk
      obtain ⟨p, rfl⟩ := isThunk.mp thunk
      cases runs : operator.device with
      | none =>
        obtain ⟨t, last, refused, reported⟩ := mkredir_refused runs fd p middle
        rw [refused] at made
        cases made
        exact absurd accepted reported
      | some device =>
        rw [mkredir_block runs] at made
        cases made
        refine ⟨_, _, read, rfl, makes_block runs block several bare middle.id, ?_⟩
        rintro _ ⟨⟩
        exact ⟨middle.id, (onward_action id word _ _ _ isFile).1, Nat.lt_succ_self _, rfl⟩
    · have other : ∀ p, file ≠ nThunk p := fun p same => thunk (isThunk.mpr ⟨p, same⟩)
      rw [mkredir_document operator fd other] at made
      cases made
      refine ⟨file, _, read, rfl, makes_file bare fun _ body block => ?_, nofun⟩
      by_contra several
      exact thunk ((form_of_block block).trans (if_neg several))

end Desh
