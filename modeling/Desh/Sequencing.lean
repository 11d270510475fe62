/-
This file proves that the parser may flatten a sequence of commands: evaluating
what `mkseq` makes of two commands is evaluating the call of the operator on
two blocks. What a function of an operator does on two lists of arguments is
one equation (`apply_append`), and the words of a call that is spliced come to
the same terms in the longer list (`glom_append`).
-/

import Desh.Builders
import Desh.Provenance
import Desh.Sequence
import Desh.Shape

namespace Desh

open Desh.Tree

variable {State Binding Shared Exception α : Type}

namespace Runner

variable (shell : Runner State Binding Shared Exception)

/-- A term that `glob` passes on: it is quoted, or a text without tilde and wildcards. -/
def Plain (pair : Term Binding Shared × Mask) : Prop :=
  pair.2 = .QUOTED ∨ ∃ s, pair.1 = .str s ∧
    (∀ state, shell.globAsserts (.str s) pair.2 state = true) ∧
      hastilde s pair.2 = false ∧ haswild s pair.2 = false

variable {shell}

theorem globTildes_cons {term : Term Binding Shared} {q : Mask} (plain : shell.Plain (term, q))
    (terms : List (Term Binding Shared)) (quote : List Mask) :
    shell.globTildes (term :: terms) (q :: quote) =
      shell.globTildes terms quote >>= fun result =>
        pure ((term :: result.1.1, q :: result.1.2), result.2) := by
  rw [Interpreter.globTildes]
  by_cases quoted : q = .QUOTED
  · rw [if_pos quoted]
  rw [if_neg quoted]
  obtain ⟨s, rfl, asserts, tilde, wild⟩ := plain.resolve_left quoted
  have asserted : observing (shell.globAsserts (.str s) q) =
      (pure true : EStateM Exception State Bool) := by
    funext state
    exact congrArg (EStateM.Result.ok · state) (asserts state)
  have text : observing (shell.getstr (.str s)) = (pure s : EStateM Exception State Text) := rfl
  rw [asserted, pure_bind, if_pos rfl, text, pure_bind,
    if_neg (by rw [show hastilde s q = false from tilde]; decide)]
  refine bind_congr fun result => ?_
  rw [show haswild s q = false from wild]
  rfl

theorem globTildes_plain {terms : List (Term Binding Shared)} {quote : List Mask}
    (length : terms.length = quote.length) (plain : ∀ pair ∈ terms.zip quote, shell.Plain pair) :
    shell.globTildes terms quote = pure ((terms, quote), false) := by
  induction terms generalizing quote with
  | nil =>
    obtain rfl := List.length_eq_zero_iff.mp length.symm
    rw [Interpreter.globTildes]
  | cons term terms ih =>
    obtain ⟨q, quote, rfl⟩ := List.exists_cons_of_length_eq_add_one length.symm
    rw [List.zip_cons_cons, List.forall_mem_cons] at plain
    rw [globTildes_cons plain.1, ih (Nat.succ.inj length) plain.2, pure_bind]

/-- Terms that are passed on behind others. -/
theorem globTildes_append {list terms : List (Term Binding Shared)} {marks quote : List Mask}
    (same : list.length = marks.length) (length : terms.length = quote.length)
    (plain : ∀ pair ∈ terms.zip quote, shell.Plain pair) :
    shell.globTildes (list ++ terms) (marks ++ quote) =
      shell.globTildes list marks >>= fun result =>
        pure ((result.1.1 ++ terms, result.1.2 ++ quote), result.2) := by
  induction list generalizing marks with
  | nil =>
    obtain rfl := List.length_eq_zero_iff.mp same.symm
    rw [List.nil_append, List.nil_append, globTildes_plain length plain, Interpreter.globTildes,
      pure_bind]
    rfl
  | cons term list ih =>
    obtain ⟨q, marks, rfl⟩ := List.exists_cons_of_length_eq_add_one same.symm
    rw [List.cons_append, List.cons_append, Interpreter.globTildes, Interpreter.globTildes,
      ih (Nat.succ.inj same)]
    by_cases quoted : q = .QUOTED
    · simp only [if_pos quoted, bind_assoc, pure_bind, List.cons_append]
    · simp only [if_neg quoted, bind_assoc]
      refine bind_congr fun asserted => ?_
      cases asserted with
      | false => rfl
      | true =>
        simp only [if_true, bind_assoc]
        refine bind_congr fun s => ?_
        by_cases tilde : hastilde s q = true
        · simp only [if_pos tilde, bind_assoc, pure_bind, List.cons_append]
        · simp only [if_neg tilde, bind_assoc, pure_bind, List.cons_append]

/-- What `glob0` does to two lists. -/
theorem glob0_append {m : Type → Type} [Monad m] [LawfulMonad m] (getstr : α → m Text)
    (mkstr : Text → α) (glob1 : Text → Mask → m (List Text)) (list others : List (α × Mask)) :
    glob0 getstr mkstr glob1 (list ++ others) =
      glob0 getstr mkstr glob1 list >>= fun here =>
        glob0 getstr mkstr glob1 others >>= fun rest => pure (here ++ rest) := by
  induction list with
  | nil =>
    rw [List.nil_append, glob0, pure_bind]
    exact (bind_pure _).symm
  | cons pair list ih =>
    obtain ⟨term, quote⟩ := pair
    rw [List.cons_append, glob0, glob0, ih]
    by_cases quoted : quote = .QUOTED
    · simp only [if_pos quoted, bind_assoc, pure_bind, List.append_assoc]
    · simp only [if_neg quoted, bind_assoc]
      refine bind_congr fun str => ?_
      by_cases wild : haswild str quote = true
      · simp only [if_pos wild, bind_assoc, pure_bind, List.append_assoc]
      · simp only [if_neg wild, bind_assoc, pure_bind, List.append_assoc]

theorem glob0_plain {terms : List (Term Binding Shared)} {quote : List Mask}
    (length : terms.length = quote.length) (plain : ∀ pair ∈ terms.zip quote, shell.Plain pair) :
    glob0 (fun term => observing (shell.getstr term)) .str shell.glob1 (terms.zip quote) =
      (pure terms : EStateM Exception State (List (Term Binding Shared))) := by
  induction terms generalizing quote with
  | nil => rw [List.zip_nil_left, glob0]
  | cons term terms ih =>
    obtain ⟨q, quote, rfl⟩ := List.exists_cons_of_length_eq_add_one length.symm
    rw [List.zip_cons_cons, List.forall_mem_cons] at plain
    rw [List.zip_cons_cons, glob0, ih (Nat.succ.inj length) plain.2]
    by_cases quoted : q = .QUOTED
    · rw [if_pos quoted]
      rfl
    · obtain ⟨s, rfl, -, -, wild⟩ := plain.1.resolve_left quoted
      have text : observing (shell.getstr (.str s)) = (pure s : EStateM Exception State Text) :=
        rfl
      rw [if_neg quoted, text, pure_bind,
        if_neg (by rw [show haswild s q = false from wild]; decide)]
      rfl

theorem length_of_record {result : List (Term Binding Shared) × List Mask}
    {traced : List (Traced Binding Shared)} (record : RecordOf result traced) :
    result.1.length = result.2.length := by
  rw [record.terms, List.length_map, record.masks.length_eq]

/-! ### The words of a command -/

variable (shell) in
/-- Words that always come to the same terms, of which there is at least one: nothing is looked
up, run or expanded for them. -/
structure Fixed (words : Tree) (binding : Binding) (terms : List (Term Binding Shared)) :
    Prop where
  nonempty : terms ≠ []
  glom2 : ∃ quote, terms.length = quote.length ∧ (∀ pair ∈ terms.zip quote, shell.Plain pair) ∧
    shell.glom2 words binding = pure (terms, quote)

theorem glom2_append (first second : List Tree) (binding : Binding) :
    shell.glom2 (ofList (first ++ second)) binding =
      shell.glom2 (ofList first) binding >>= fun result =>
        shell.glom2 (ofList second) binding >>= fun rest =>
          pure (result.1 ++ rest.1, result.2 ++ rest.2) := by
  induction first with
  | nil =>
    rw [List.nil_append, ofList_nil, Interpreter.glom2, pure_bind]
    exact (bind_pure _).symm
  | cons t first ih =>
    rw [List.cons_append, ofList_cons, ofList_cons, Interpreter.glom2, Interpreter.glom2, ih]
    simp only [bind_assoc, pure_bind, List.append_assoc]

variable (shell) in
/-- The terms with their tildes expanded. -/
def untilded (tree : Tree) (binding : Binding) :
    EStateM Exception State ((List (Term Binding Shared) × List Mask) × Bool) := do
  let (list, quote) ← shell.glom2 tree binding
  shell.globTildes list quote

theorem glom_eq (tree : Tree) (binding : Binding) :
    shell.glom tree binding = shell.untilded tree binding >>= fun result =>
      if result.2 then
        glob0 (fun term => observing (shell.getstr term)) .str shell.glob1
          (result.1.1.zip result.1.2)
      else pure result.1.1 := by
  rw [glom, untilded, bind_assoc]
  rfl

/-- Fixed words behind others. -/
theorem glom_append (first : List Tree) {second : List Tree} {binding : Binding}
    {terms : List (Term Binding Shared)} (fixed : shell.Fixed (ofList second) binding terms) :
    shell.glom (ofList (first ++ second)) binding =
      shell.glom (ofList first) binding >>= fun list => pure (list ++ terms) := by
  obtain ⟨-, quote, length, plain, glom2⟩ := fixed
  obtain ⟨-, record, expanded⟩ := shell.glom2_globTildes_spec (ofList first) binding
  have tildes : shell.untilded (ofList (first ++ second)) binding =
      shell.untilded (ofList first) binding >>= fun result =>
        pure ((result.1.1 ++ terms, result.1.2 ++ quote), result.2) := by
    rw [untilded, untilded, glom2_append, glom2, bind_assoc, bind_assoc]
    refine bind_congr_of_ok fun state result later ran => ?_
    obtain ⟨traced, record⟩ := related_of_agree record ran
    rw [pure_bind, pure_bind]
    exact globTildes_append (length_of_record record) length plain
  rw [glom_eq, glom_eq, tildes, bind_assoc, bind_assoc]
  refine bind_congr_of_ok fun state result later ran => ?_
  obtain ⟨traced, record⟩ := related_of_agree expanded ran
  rw [pure_bind]
  dsimp only
  split
  · rw [List.zip_append (length_of_record record), glob0_append, glob0_plain length plain]
    rfl
  · rw [pure_bind]

/-- Fixed words alone. -/
theorem glom_fixed {words : Tree} {binding : Binding} {terms : List (Term Binding Shared)}
    (fixed : shell.Fixed words binding terms) : shell.glom words binding = pure terms := by
  obtain ⟨-, quote, length, plain, glom2⟩ := fixed
  have tildes : shell.untilded words binding = pure ((terms, quote), false) := by
    rw [untilded, glom2, pure_bind]
    exact globTildes_plain length plain
  rw [glom_eq, tildes, pure_bind]
  rfl

theorem plain_word (connective : Connective) :
    shell.Plain (.str connective.word, .UNQUOTED) := by
  refine .inr ⟨connective.word, rfl, fun state => rfl, ?_⟩
  show hastilde connective.word .UNQUOTED = false ∧ haswild connective.word .UNQUOTED = false
  cases connective <;> decide +kernel

/-- The name of an operator in front of a command. -/
theorem glom_word (connective : Connective) (rest : Tree) (binding : Binding) :
    shell.glom (nList (nWord connective.word) rest) binding =
      shell.glom rest binding >>= fun list => pure (.str connective.word :: list) := by
  have word : shell.glom2 (nList (nWord connective.word) rest) binding =
      shell.glom2 rest binding >>= fun result =>
        pure (.str connective.word :: result.1, .UNQUOTED :: result.2) := by
    rw [Interpreter.glom2, Interpreter.glom2]
    rfl
  have tildes : shell.untilded (nList (nWord connective.word) rest) binding =
      shell.untilded rest binding >>= fun result =>
        pure ((.str connective.word :: result.1.1, .UNQUOTED :: result.1.2), result.2) := by
    rw [untilded, untilded, word, bind_assoc, bind_assoc]
    refine bind_congr fun result => ?_
    rw [pure_bind]
    exact globTildes_cons (plain_word connective) _ _
  rw [glom_eq, glom_eq, tildes, bind_assoc, bind_assoc]
  refine bind_congr fun result => ?_
  rw [pure_bind]
  dsimp only
  split
  · have alone := @glob0_plain _ _ _ _ shell [.str connective.word] [.UNQUOTED] rfl (by
      rw [List.zip_cons_cons, List.zip_nil_left, List.forall_mem_singleton]
      exact plain_word connective)
    rw [List.zip_cons_cons, ← List.singleton_append, glob0_append]
    rw [List.zip_cons_cons, List.zip_nil_left] at alone
    rw [alone, pure_bind]
    rfl
  · rw [pure_bind]

end Runner

/-! ### Runs -/

namespace Run

variable {State Exception α β : Type}

theorem bind_apply (x : Run State Exception α) (f : α → Run State Exception β) (state : State) :
    (x >>= f) state = (x state).bind fun ended =>
      match ended.1 with
      | .ok a => f a ended.2
      | .error exception => some (.error exception, ended.2) := by
  change ((x state).bind fun ended => (ExceptT.bindCont f ended.1) ended.2) = _
  congr 1
  funext ended
  cases ended.1 <;> rfl

theorem lift_bind (x : EStateM Exception State α) (f : α → EStateM Exception State β) :
    lift (x >>= f) = lift x >>= fun a => lift (f a) := by
  funext state
  rw [bind_apply]
  dsimp only [lift, ExceptT.mk, bind, EStateM.bind]
  cases x state <;> rfl

end Run

namespace Runner

variable {State Binding Shared Exception : Type} (shell : Runner State Binding Shared Exception)
  {α : Type}

/-- A test changes nothing. -/
theorem tests_bind (list : List Shared) (next : Bool → Run State Exception α) (state : State) :
    (shell.tests list >>= next) state = next (shell.istrue list state) state := by
  rw [Run.bind_apply]
  rfl

/-- Two ways to go on after a test are equal if they are after its result. -/
theorem tests_congr {list : List Shared} {next next' : Bool → Run State Exception α}
    (same : ∀ state, next (shell.istrue list state) state = next' (shell.istrue list state) state) :
    shell.tests list >>= next = shell.tests list >>= next' := by
  funext state
  rw [tests_bind, tests_bind, same]

theorem finish_none (list : List Shared) : shell.finish .none list = pure list := rfl

theorem finish_ltrue (flags : EvalFlags) : shell.finish flags shell.ltrue = pure shell.ltrue := by
  unfold finish
  split
  · funext state
    rw [tests_bind, shell.istrue_ltrue]
    rfl
  · rfl

/-- A result that has been looked at once is the same the second time. -/
theorem finish_bind (flags : EvalFlags) (list : List Shared) :
    shell.finish flags list >>= shell.finish flags = shell.finish flags list := by
  unfold finish
  split
  · funext state
    rw [bind_assoc, tests_bind, tests_bind]
    cases isTrue : shell.istrue list state with
    | true =>
      rw [if_pos rfl, pure_bind, tests_bind, isTrue, if_pos rfl]
    | false => rfl
  · rw [pure_bind]

/-- A computation whose result has been looked at. -/
def Finished (flags : EvalFlags) (x : Run State Exception (List Shared)) : Prop :=
  x >>= shell.finish flags = x

variable {shell}

theorem finished_finish (flags : EvalFlags) (list : List Shared) :
    shell.Finished flags (shell.finish flags list) :=
  shell.finish_bind flags list

theorem Finished.bind {flags : EvalFlags} {x : Run State Exception α}
    {f : α → Run State Exception (List Shared)} (last : ∀ a, shell.Finished flags (f a)) :
    shell.Finished flags (x >>= f) := by
  unfold Finished
  rw [bind_assoc]
  exact bind_congr last

theorem Finished.ite {flags : EvalFlags} {condition : Prop} [Decidable condition]
    {x y : Run State Exception (List Shared)} (first : shell.Finished flags x)
    (second : shell.Finished flags y) : shell.Finished flags (if condition then x else y) := by
  split
  · exact first
  · exact second

theorem finished_ltrue (flags : EvalFlags) :
    shell.Finished flags (pure shell.ltrue) := by
  unfold Finished
  rw [pure_bind, finish_ltrue]

end Runner

/-! ### Joined commands -/

namespace Sequence

variable {State Binding Shared Exception : Type} (shell : Runner State Binding Shared Exception)

theorem eval_nil (binding : Binding) (flags : EvalFlags) :
    eval shell [] binding flags = pure shell.ltrue := by
  rw [eval]

theorem eval_block (p : Tree) (context : Binding) (next : List (Term Binding Shared))
    (binding : Binding) (flags : EvalFlags) :
    eval shell (.closure (nThunk p) context :: next) binding flags =
      walk shell p context flags >>= shell.finish flags := by
  rw [eval]

/-- Every way through `eval` ends at the label `done`, or with a true result. -/
theorem finished_eval (list : List (Term Binding Shared)) (binding : Binding)
    (flags : EvalFlags) : shell.Finished flags (eval shell list binding flags) := by
  unfold eval
  split
  · exact Runner.finished_ltrue flags
  · exact .bind fun _ => Runner.finished_finish _ _
  · exact .bind fun _ => Runner.finished_finish _ _
  · exact .bind fun _ => Runner.finished_finish _ _

/-- The function of an operator. -/
def apply (connective : Connective) (list : List (Term Binding Shared)) (flags : EvalFlags) :
    Run State Exception (List Shared) :=
  match connective with
  | .seq => primSeq shell list flags
  | .and => fnAnd shell list flags
  | .or => fnOr shell list flags

theorem finished_primSeq (list : List (Term Binding Shared)) (flags : EvalFlags) :
    shell.Finished flags (primSeq shell list flags) := by
  induction list with
  | nil =>
    rw [primSeq]
    exact Runner.finished_ltrue flags
  | cons term next ih =>
    cases next with
    | nil =>
      rw [primSeq]
      exact finished_eval shell _ _ _
    | cons second rest =>
      rw [primSeq]
      · exact .bind fun _ => ih
      · simp

theorem finished_apply (connective : Connective) (list : List (Term Binding Shared))
    (flags : EvalFlags) : shell.Finished flags (apply shell connective list flags) := by
  cases connective with
  | seq => exact finished_primSeq shell list flags
  | and =>
    rw [apply, fnAnd]
    exact .bind fun _ => .ite (Runner.finished_finish _ _) (.bind fun _ =>
      .ite (finished_eval shell _ _ _) (Runner.finished_finish _ _))
  | or =>
    rw [apply, fnOr]
    exact .ite (Runner.finished_finish _ _) (.bind fun _ => .ite (Runner.finished_finish _ _)
      (.bind fun _ => .ite (Runner.finished_finish _ _) (finished_eval shell _ _ _)))

theorem eval_word (connective : Connective) (list : List (Term Binding Shared))
    (binding : Binding) (flags : EvalFlags) :
    eval shell (.str connective.word :: list) binding flags =
      apply shell connective list flags := by
  have finished := finished_apply shell connective list flags
  rw [eval]
  cases connective with
  | seq =>
    rw [if_pos rfl]
    exact finished
  | and =>
    rw [if_neg (by decide), if_pos rfl]
    exact finished
  | or =>
    rw [if_neg (by decide), if_neg (by decide), if_pos rfl]
    exact finished

/-- A function that evaluates its arguments one by one until one of them tests as `stop`; without
arguments its result is `start`, which tests as the opposite. -/
structure ShortCircuits (stop : Bool) (start : List Shared)
    (f : List (Term Binding Shared) → EvalFlags → Run State Exception (List Shared)) : Prop where
  opposite : ∀ state, shell.istrue start state = !stop
  nil : ∀ flags, f [] flags = shell.finish flags start
  single : ∀ first flags,
    f [first] flags = eval shell [first] shell.nullBinding .none >>= shell.finish flags
  cons : ∀ first second rest flags, f (first :: second :: rest) flags =
    eval shell [first] shell.nullBinding .none >>= fun result =>
      shell.tests result >>= fun test =>
        if test = stop then shell.finish flags result else f (second :: rest) flags

theorem shortCircuits_fnAnd : ShortCircuits shell false shell.ltrue (fnAnd shell) where
  opposite := shell.istrue_ltrue
  nil flags := by
    rw [fnAnd, List.take_nil, eval_nil, pure_bind, List.tail_nil, if_pos rfl]
  single first flags := by
    rw [fnAnd]
    exact bind_congr fun result => if_pos rfl
  cons first second rest flags := by
    rw [fnAnd]
    refine bind_congr fun result => ?_
    rw [List.tail_cons, if_neg (List.cons_ne_nil _ _)]
    refine bind_congr fun test => ?_
    rw [eval_word]
    cases test <;> rfl

theorem shortCircuits_fnOr : ShortCircuits shell true shell.lfalse (fnOr shell) where
  opposite := shell.istrue_lfalse
  nil flags := by
    rw [fnOr, if_pos rfl]
  single first flags := by
    rw [fnOr, if_neg (List.cons_ne_nil _ _)]
    exact bind_congr fun result => if_pos rfl
  cons first second rest flags := by
    rw [fnOr, if_neg (List.cons_ne_nil _ _)]
    refine bind_congr fun result => ?_
    rw [List.tail_cons, if_neg (List.cons_ne_nil _ _)]
    refine bind_congr fun test => ?_
    rw [eval_word]
    cases test <;> rfl

namespace ShortCircuits

variable {shell} {stop : Bool} {start : List Shared}
  {f : List (Term Binding Shared) → EvalFlags → Run State Exception (List Shared)}

/-- Only the last result is looked at under the flags. -/
theorem flags_eq (shortCircuits : ShortCircuits shell stop start f)
    (list : List (Term Binding Shared)) (flags : EvalFlags) :
    f list flags = f list .none >>= shell.finish flags := by
  induction list with
  | nil => rw [shortCircuits.nil, shortCircuits.nil, Runner.finish_none, pure_bind]
  | cons first rest ih =>
    cases rest with
    | nil =>
      rw [shortCircuits.single, shortCircuits.single, bind_assoc]
      exact bind_congr fun result => by rw [Runner.finish_none, pure_bind]
    | cons second rest =>
      rw [shortCircuits.cons, shortCircuits.cons, ih, bind_assoc]
      refine bind_congr fun result => ?_
      rw [bind_assoc]
      refine bind_congr fun test => ?_
      split
      · rw [Runner.finish_none, pure_bind]
      · rfl

/-- More arguments are evaluated unless the first ones have come to a stop. -/
theorem append (shortCircuits : ShortCircuits shell stop start f)
    (list : List (Term Binding Shared)) {others : List (Term Binding Shared)}
    (more : others ≠ []) (flags : EvalFlags) :
    f (list ++ others) flags = f list .none >>= fun result =>
      shell.tests result >>= fun test =>
        if test = stop then shell.finish flags result else f others flags := by
  obtain ⟨next, others, rfl⟩ := List.exists_cons_of_ne_nil more
  induction list with
  | nil =>
    rw [shortCircuits.nil, Runner.finish_none, pure_bind]
    funext state
    rw [Runner.tests_bind, shortCircuits.opposite, if_neg (by cases stop <;> decide)]
    rfl
  | cons first rest ih =>
    cases rest with
    | nil =>
      rw [shortCircuits.single, List.singleton_append, shortCircuits.cons, bind_assoc]
      exact bind_congr fun result => by rw [Runner.finish_none, pure_bind]
    | cons second rest =>
      rw [List.cons_append, List.cons_append, shortCircuits.cons, ← List.cons_append, ih,
        shortCircuits.cons, bind_assoc]
      refine bind_congr fun result => ?_
      rw [bind_assoc]
      -- where it stops, the same result is tested once more
      refine shell.tests_congr fun state => ?_
      split
      · rename_i stops
        rw [Runner.finish_none, pure_bind, Runner.tests_bind, if_pos stops]
      · rfl

end ShortCircuits

theorem primSeq_cons (first : Term Binding Shared) {others : List (Term Binding Shared)}
    (more : others ≠ []) (flags : EvalFlags) :
    primSeq shell (first :: others) flags =
      eval shell [first] shell.nullBinding { flags with inchild := false } >>= fun _ =>
        primSeq shell others flags := by
  rw [primSeq]
  exact fun empty => more empty

theorem primSeq_append (list : List (Term Binding Shared)) {others : List (Term Binding Shared)}
    (more : others ≠ []) (flags : EvalFlags) :
    primSeq shell (list ++ others) flags =
      primSeq shell list { flags with inchild := false } >>= fun _ =>
        primSeq shell others flags := by
  induction list with
  | nil =>
    rw [primSeq, pure_bind]
    rfl
  | cons first rest ih =>
    rw [List.cons_append, primSeq_cons _ _ (List.append_ne_nil_of_right_ne_nil _ more), ih]
    cases rest with
    | nil => rw [primSeq, primSeq, pure_bind]
    | cons second rest =>
      rw [primSeq_cons _ _ (List.cons_ne_nil second rest), bind_assoc]

/-- The function of an operator on two lists of arguments: it evaluates the first ones, under
flags of their own, and goes on with the others. -/
theorem apply_append (connective : Connective) (flags : EvalFlags) :
    ∃ (flags' : EvalFlags) (goOn : Run State Exception (List Shared) → List Shared →
      Run State Exception (List Shared)),
      (∀ term, apply shell connective [term] flags' =
        eval shell [term] shell.nullBinding flags') ∧
        ∀ (list : List (Term Binding Shared)) {others : List (Term Binding Shared)}, others ≠ [] →
          apply shell connective (list ++ others) flags =
            apply shell connective list flags' >>= goOn (apply shell connective others flags) := by
  have circuit : ∀ {stop start} {f : List (Term Binding Shared) → EvalFlags →
      Run State Exception (List Shared)}, ShortCircuits shell stop start f → ∀ term,
        f [term] .none = eval shell [term] shell.nullBinding .none := by
    intro stop start f shortCircuits term
    rw [shortCircuits.single]
    exact bind_pure _
  cases connective with
  | seq =>
    refine ⟨{ flags with inchild := false }, fun onward _ => onward, fun term => ?_,
      fun list others more => primSeq_append shell list more flags⟩
    rw [apply, primSeq]
  | and =>
    exact ⟨.none, fun onward result => shell.tests result >>= fun test =>
      if test = false then shell.finish flags result else onward,
      circuit (shortCircuits_fnAnd shell), fun list others more =>
        (shortCircuits_fnAnd shell).append list more flags⟩
  | or =>
    exact ⟨.none, fun onward result => shell.tests result >>= fun test =>
      if test = true then shell.finish flags result else onward,
      circuit (shortCircuits_fnOr shell), fun list others more =>
        (shortCircuits_fnOr shell).append list more flags⟩

/-- Only what the single argument evaluates to matters. -/
theorem apply_congr (connective : Connective) {term term' : Term Binding Shared}
    (same : ∀ flags, eval shell [term] shell.nullBinding flags =
      eval shell [term'] shell.nullBinding flags) (flags : EvalFlags) :
    apply shell connective [term] flags = apply shell connective [term'] flags := by
  cases connective with
  | seq => rw [apply, apply, primSeq, primSeq, same]
  | and =>
    have circuit := shortCircuits_fnAnd shell
    rw [apply, apply, circuit.single, circuit.single, same]
  | or =>
    have circuit := shortCircuits_fnOr shell
    rw [apply, apply, circuit.single, circuit.single, same]

/-- The only argument is a call of the operator itself. -/
theorem apply_nested (connective : Connective) {term : Term Binding Shared}
    {list : List (Term Binding Shared)}
    (same : ∀ flags, eval shell [term] shell.nullBinding flags =
      apply shell connective list flags) (flags : EvalFlags) :
    apply shell connective [term] flags = apply shell connective list flags := by
  cases connective with
  | seq => rw [apply, primSeq, same]
  | and =>
    have circuit := shortCircuits_fnAnd shell
    rw [apply, apply, circuit.single, same, circuit.flags_eq list flags]
    rfl
  | or =>
    have circuit := shortCircuits_fnOr shell
    rw [apply, apply, circuit.single, same, circuit.flags_eq list flags]
    rfl

end Sequence

/-! ### Blocks -/

namespace Sequence

section

variable {State Binding Shared Exception : Type} {shell : Runner State Binding Shared Exception}

theorem walk_list (p q : Tree) (binding : Binding) (flags : EvalFlags) :
    walk shell (nList p q) binding flags =
      Run.lift (shell.glom (nList p q) binding) >>= fun list => eval shell list binding flags := by
  rw [walk]

/-- A call of an operator. -/
theorem walk_word (connective : Connective) (rest : Tree) (binding : Binding)
    (flags : EvalFlags) :
    walk shell (nList (nWord connective.word) rest) binding flags =
      Run.lift (shell.glom rest binding) >>= fun list => apply shell connective list flags := by
  rw [walk_list, Runner.glom_word, Run.lift_bind, bind_assoc]
  refine bind_congr fun list => ?_
  rw [show Run.lift (pure (.str connective.word :: list)) = pure (.str connective.word :: list)
    from rfl, pure_bind, eval_word]

/-- A single block. -/
theorem fixed_block (p : Tree) (binding : Binding) :
    shell.Fixed (ofList [nThunk p]) binding [.closure (nThunk p) binding] := by
  refine ⟨List.cons_ne_nil _ _, [.QUOTED], rfl, ?_, rfl⟩
  rw [List.zip_cons_cons, List.zip_nil_left, List.forall_mem_singleton]
  exact .inl rfl

/-- What `thunkify` makes of a command is a block that does what the command does. -/
theorem exists_block {form : Form} {t : Tree} (cmd : form.IsCmd) (fits : form.Fits t)
    (binding : Binding) :
    ∃ u p, thunkify t = some u ∧
      shell.Fixed (ofList [u]) binding [.closure (nThunk p) binding] ∧
        ∀ flags, eval shell [.closure (nThunk p) binding] shell.nullBinding flags =
          eval shell [.closure (nThunk t) binding] shell.nullBinding flags := by
  by_cases lone : form = .loneThunk
  · subst lone
    obtain ⟨p, rfl⟩ := fits
    refine ⟨ofList [nThunk p], p, rfl, ?_, fun flags => ?_⟩
    · refine ⟨List.cons_ne_nil _ _, [.QUOTED], rfl, ?_, rfl⟩
      rw [List.zip_cons_cons, List.zip_nil_left, List.forall_mem_singleton]
      exact .inl rfl
    · -- the outer braces evaluate to the block inside them
      have inner : walk shell (ofList [nThunk p]) binding flags =
          eval shell [.closure (nThunk p) binding] binding flags := by
        rw [ofList_cons, walk_list, ← ofList_cons, Runner.glom_fixed (fixed_block p binding)]
        rfl
      have finished := finished_eval shell [.closure (nThunk p) binding] binding flags
      rw [eval_block shell (ofList [nThunk p]), inner, finished, eval_block, eval_block]
  · obtain ⟨u, made, block⟩ := thunkify_of_fits cmd fits
    rw [if_neg lone] at block
    obtain ⟨p, rfl⟩ := block
    obtain rfl : p = t := by
      unfold thunkify at made
      split at made
      · cases form <;> first | exact cmd.elim | exact fits.elim |
          (obtain ⟨_, _, same, -⟩ := fits; cases same) | exact absurd rfl lone | cases fits
      · cases made
      · cases made
      · cases made
        rfl
    exact ⟨_, p, made, fixed_block p binding, fun _ => rfl⟩

/-- A list of words that is put into a call of an operator stands for a command: it is the block
of the command, or the command is a call of the operator on these words. -/
def Stands (connective : Connective) (t : Tree) (words : List Tree) : Prop :=
  t = nList (nWord connective.word) (ofList words) ∨ ∃ u, thunkify t = some u ∧ words = [u]

/-- What `mkseq` makes of two commands. -/
theorem mkseq_stands (connective : Connective) {form form' : Form} {t1 t2 : Tree}
    (cmd1 : form.IsCmd) (fits1 : form.Fits t1) (cmd2 : form'.IsCmd) (fits2 : form'.Fits t2)
    (nonnull : connective = .seq → t1 ≠ null ∧ t2 ≠ null) :
    ∃ first second, mkseq connective.word t1 t2 =
        some (nList (nWord connective.word) (ofList (first ++ second))) ∧
      Stands connective t1 first ∧ Stands connective t2 second ∧
        (firstis t2 connective.word = true → ofList second = cdrOf t2) := by
  obtain ⟨u, block, -⟩ := thunkify_of_fits cmd1 fits1
  obtain ⟨u', block', -⟩ := thunkify_of_fits cmd2 fits2
  have seq : ¬(connective.word = lit "%seq" ∧ t1 = null) ∧
      ¬(connective.word = lit "%seq" ∧ t2 = null) := by
    have isSeq : connective.word = lit "%seq" → connective = .seq := by
      cases connective <;> decide
    exact ⟨fun null => (nonnull (isSeq null.1)).1 null.2,
      fun null => (nonnull (isSeq null.1)).2 null.2⟩
  -- the words of the second command are there, those of the first are put in front
  have front : ∀ (second : List Tree) (sametail : Bool), ∃ first,
      (if firstis t1 connective.word then treeappend t1 (ofList second)
        else do
          let t1 ← thunkify t1
          if sametail then (treecons t1 (ofList second)).map (nList (nWord connective.word))
          else (treecons t1 (ofList second)).bind (prefixed connective.word)) =
        some (nList (nWord connective.word) (ofList (first ++ second))) ∧
      Stands connective t1 first := by
    intro second sametail
    cases isCall : firstis t1 connective.word with
    | true =>
      obtain ⟨words, rfl, -⟩ := cdrOf_of_fits cmd1 fits1 isCall
      refine ⟨words, ?_, .inl rfl⟩
      rw [if_pos rfl, treeappend_ofList]
      rfl
    | false =>
      refine ⟨[u], ?_, .inr ⟨u, block, rfl⟩⟩
      rw [if_neg Bool.false_ne_true, block, Option.bind_eq_bind, Option.bind_some,
        treecons_ofList]
      cases sametail <;> rfl
  rw [mkseq, if_neg seq.1, if_neg seq.2]
  dsimp only
  cases isCall : firstis t2 connective.word with
  | true =>
    obtain ⟨second, rfl, cdr⟩ := cdrOf_of_fits cmd2 fits2 isCall
    obtain ⟨first, made, stands⟩ := front second true
    refine ⟨first, second, ?_, stands, .inl rfl, fun _ => cdr.symm⟩
    rw [if_pos rfl, cdr, Option.bind_eq_bind, Option.bind_some]
    exact made
  | false =>
    obtain ⟨first, made, stands⟩ := front [u'] false
    refine ⟨first, [u'], ?_, stands, .inr ⟨u', block', rfl⟩, by simp⟩
    rw [if_neg Bool.false_ne_true, block', Option.bind_some, Option.bind_eq_bind]
    exact made

/-- A call of an operator on two blocks. -/
def call (connective : Connective) (t1 t2 : Tree) : Tree :=
  ofList [nWord connective.word, nThunk t1, nThunk t2]

theorem walk_call (connective : Connective) (t1 t2 : Tree) (binding : Binding)
    (flags : EvalFlags) :
    walk shell (call connective t1 t2) binding flags =
      apply shell connective [.closure (nThunk t1) binding, .closure (nThunk t2) binding]
        flags := by
  have fixed := Runner.glom_append [nThunk t1] (@fixed_block _ _ _ _ shell t2 binding)
  rw [Runner.glom_fixed (fixed_block t1 binding), pure_bind] at fixed
  rw [call, ofList_cons, walk_word]
  exact congrArg (fun words => Run.lift words >>= fun list => apply shell connective list flags)
    fixed

/-- The words put in for the first command, evaluated on their own. -/
theorem left_eq {connective : Connective} {t : Tree} {words : List Tree} {form : Form}
    (cmd : form.IsCmd) (fits : form.Fits t) (stands : Stands connective t words)
    (binding : Binding) {flags : EvalFlags}
    (single : ∀ term, apply shell connective [term] flags =
      eval shell [term] shell.nullBinding flags) :
    (Run.lift (shell.glom (ofList words) binding) >>= fun list =>
        apply shell connective list flags) =
      eval shell [.closure (nThunk t) binding] shell.nullBinding flags := by
  rcases stands with rfl | ⟨u, made, rfl⟩
  · rw [eval_block, walk_word]
    exact (Runner.Finished.bind fun list => finished_apply shell connective list flags).symm
  · obtain ⟨u', p, made', fixed, same⟩ := @exists_block _ _ _ _ shell _ _ cmd fits binding
    obtain rfl := Option.some.inj (made.symm.trans made')
    rw [Runner.glom_fixed fixed, ← same, ← single]
    rfl

/-- The words put in for the second command come to terms that do what the command does. -/
theorem right_eq {connective : Connective} {t : Tree} {words : List Tree} {form : Form}
    (cmd : form.IsCmd) (fits : form.Fits t) (stands : Stands connective t words)
    (binding : Binding)
    (fixed : firstis t connective.word = true →
      ∃ terms, shell.Fixed (ofList words) binding terms) :
    ∃ terms, shell.Fixed (ofList words) binding terms ∧ ∀ flags,
      apply shell connective terms flags =
        apply shell connective [.closure (nThunk t) binding] flags := by
  rcases stands with rfl | ⟨u, made, rfl⟩
  · obtain ⟨terms, fixed⟩ := fixed (beq_self_eq_true _)
    refine ⟨terms, fixed, fun flags => (apply_nested shell connective (fun flags => ?_) flags).symm⟩
    have finished := finished_apply shell connective terms flags
    rw [eval_block, walk_word, Runner.glom_fixed fixed]
    exact finished
  · obtain ⟨u', p, made', block, same⟩ := @exists_block _ _ _ _ shell _ _ cmd fits binding
    obtain rfl := Option.some.inj (made.symm.trans made')
    exact ⟨_, block, apply_congr shell connective same⟩

end

/-- A tree that the grammar makes of a command. -/
def IsCommand (t : Tree) : Prop := ∃ form : Form, form.IsCmd ∧ form.Fits t

/-- Evaluating what `mkseq` makes of two commands is evaluating the call of the operator on two
blocks, except that `%seq` leaves out a command without words. Where the second command is a call
of the operator itself, its words are to come to the same terms at any time. -/
theorem walk_mkseq {State Binding Shared Exception : Type}
    (shell : Runner State Binding Shared Exception) (connective : Connective) {t1 t2 : Tree}
    (isCommand1 : IsCommand t1) (isCommand2 : IsCommand t2) (binding : Binding)
    (flags : EvalFlags)
    (fixed : firstis t2 connective.word = true →
      ∃ terms, shell.Fixed (cdrOf t2) binding terms) :
    ∃ tree, mkseq connective.word t1 t2 = some tree ∧
      if connective = .seq ∧ t1 = null then
        tree = t2 ∧ walk shell (call connective t1 t2) binding flags =
          walk shell t2 binding flags >>= shell.finish flags
      else if connective = .seq ∧ t2 = null then tree = t1
      else walk shell tree binding flags =
        walk shell (call connective t1 t2) binding flags := by
  obtain ⟨form, cmd1, fits1⟩ := isCommand1
  obtain ⟨form', cmd2, fits2⟩ := isCommand2
  by_cases empty : connective = .seq ∧ t1 = null
  · obtain ⟨rfl, rfl⟩ := empty
    refine ⟨t2, if_pos ⟨rfl, rfl⟩, ?_⟩
    refine (if_pos ⟨rfl, rfl⟩).mpr ⟨rfl, ?_⟩
    rw [walk_call, apply, primSeq_cons _ _ (List.cons_ne_nil _ _), eval_block, walk, pure_bind,
      Runner.finish_ltrue, pure_bind, primSeq, eval_block]
  by_cases empty' : connective = .seq ∧ t2 = null
  · obtain ⟨rfl, rfl⟩ := empty'
    refine ⟨t1, ?_, ?_⟩
    · rw [mkseq, if_neg fun both => empty ⟨rfl, both.2⟩, if_pos ⟨rfl, rfl⟩]
    · rw [if_neg empty, if_pos ⟨rfl, rfl⟩]
  obtain ⟨first, second, made, stands, stands', cdr⟩ := mkseq_stands connective cmd1 fits1 cmd2
    fits2 fun isSeq => ⟨fun null => empty ⟨isSeq, null⟩, fun null => empty' ⟨isSeq, null⟩⟩
  refine ⟨_, made, ?_⟩
  rw [if_neg empty, if_neg empty']
  obtain ⟨terms, fixed, last⟩ := right_eq cmd2 fits2 stands' binding fun isCall => by
    rw [cdr isCall]
    exact fixed isCall
  obtain ⟨flags', goOn, single, append⟩ := apply_append shell connective flags
  have front := left_eq cmd1 fits1 stands binding single
  calc walk shell (nList (nWord connective.word) (ofList (first ++ second))) binding flags
      = Run.lift (shell.glom (ofList first) binding) >>= fun list =>
          apply shell connective (list ++ terms) flags := by
        rw [walk_word, Runner.glom_append first fixed, Run.lift_bind, bind_assoc]
        rfl
    _ = Run.lift (shell.glom (ofList first) binding) >>= fun list =>
          apply shell connective list flags' >>= goOn (apply shell connective terms flags) :=
        bind_congr fun list => append list fixed.nonempty
    _ = eval shell [.closure (nThunk t1) binding] shell.nullBinding flags' >>=
          goOn (apply shell connective terms flags) := by
        rw [← bind_assoc, front]
    _ = walk shell (call connective t1 t2) binding flags := by
        have both := append [.closure (nThunk t1) binding]
          (List.cons_ne_nil (.closure (nThunk t2) binding) [])
        rw [single, ← last] at both
        rw [walk_call]
        exact both.symm

/-- The trees that the actions make of commands, lines and bodies. -/
theorem isCommand_of_returns {symbol : Nonterminal} (derivation : Derivation symbol)
    (command : symbol = .cmd ∨ symbol = .cmdsa ∨ symbol = .cmdsan ∨ symbol = .line ∨
      symbol = .body) {parser after : Parser} {tree : Tree}
    (returned : action id derivation parser = .returns tree after) : IsCommand tree := by
  have builds := builds_of_returns returned
  rcases command with rfl | rfl | rfl | rfl | rfl <;> exact ⟨_, builds⟩

/-- Is it a word that needs no expansion: a block, a lambda, a primitive, a quoted word, or a word
without wildcards and without a tilde at its start? -/
def isLiteral : Tree → Bool
  | nThunk _ | nList (nThunk _) null | nLambda _ _ | nPrim _ | nQword _ => true
  | nWord s => !hastilde s .UNQUOTED && !haswild s .UNQUOTED
  | _ => false

/-- Such words are always the same terms; the parser's own sequences of blocks are of this kind. -/
theorem fixed_of_isLiteral {State Binding Shared Exception : Type}
    {shell : Runner State Binding Shared Exception} {words : List Tree} (nonempty : words ≠ [])
    (literal : ∀ t ∈ words, isLiteral t = true) (binding : Binding) :
    ∃ terms, shell.Fixed (ofList words) binding terms := by
  have single : ∀ t, isLiteral t = true → ∃ pair, shell.Plain pair ∧
      shell.glom2 t binding = pure ([pair.1], [pair.2]) := by
    intro t literal
    unfold isLiteral at literal
    split at literal
    · exact ⟨(_, .QUOTED), .inl rfl, rfl⟩
    · exact ⟨(_, .QUOTED), .inl rfl, rfl⟩
    · exact ⟨(_, .QUOTED), .inl rfl, rfl⟩
    · exact ⟨(_, .QUOTED), .inl rfl, rfl⟩
    · exact ⟨(_, .QUOTED), .inl rfl, rfl⟩
    · rename_i s
      rw [Bool.and_eq_true, Bool.not_eq_true', Bool.not_eq_true'] at literal
      exact ⟨(.str s, .UNQUOTED), .inr ⟨s, rfl, fun _ => rfl, literal⟩, rfl⟩
    · cases literal
  have all : ∃ terms quote, terms.length = words.length ∧ terms.length = quote.length ∧
      (∀ pair ∈ terms.zip quote, shell.Plain pair) ∧
        shell.glom2 (ofList words) binding = pure (terms, quote) := by
    clear nonempty
    induction words with
    | nil => exact ⟨[], [], rfl, rfl, nofun, rfl⟩
    | cons t words ih =>
      rw [List.forall_mem_cons] at literal
      obtain ⟨pair, plain, first⟩ := single t literal.1
      obtain ⟨terms, quote, count, length, plains, rest⟩ := ih literal.2
      refine ⟨pair.1 :: terms, pair.2 :: quote, congrArg (· + 1) count, congrArg (· + 1) length,
        ?_, ?_⟩
      · rw [List.zip_cons_cons]
        exact List.forall_mem_cons.mpr ⟨plain, plains⟩
      · rw [ofList_cons, Interpreter.glom2, first, rest]
        rfl
  obtain ⟨terms, quote, count, length, plain, glom2⟩ := all
  refine ⟨terms, fun empty => ?_, quote, length, plain, glom2⟩
  rw [empty] at count
  exact nonempty (List.length_eq_zero_iff.mp count.symm)

/-! ### A shell -/

/-- A shell in which the command `false` is false, and everything else is true. -/
def quietShell : Runner Unit Unit Text Text where
  varlookup _ _ := pure []
  walk _ _ := pure []
  evalAppend list _ := pure list
  sharedStr s _ := s
  sharedIsClosure _ _ := false
  closureStr _ _ _ := []
  nullBinding := ()
  fail _ message := message
  abort := lit "abort"
  glob1 _ _ := pure []
  ltrue := [lit "0"]
  lfalse := [lit "1"]
  istrue list _ := list.all fun s => s = [] ∨ s = lit "0"
  exit _ := lit "exit"
  walkOther _ _ _ := pure [lit "0"]
  evalOther list _ _ :=
    match list with
    | .str name :: _ => pure [if name = lit "false" then lit "1" else lit "0"]
    | _ => pure [lit "0"]
  istrue_ltrue _ := by decide
  istrue_lfalse _ := by decide

/-- The command of a single word. -/
theorem isCommand_word (s : Text) : IsCommand (ofList [nWord s]) :=
  ⟨.list, trivial, Form.list_fits_word s []⟩

/-- `a && b && c`, where the second `&&` is read first. -/
theorem walk_mkseq_and :
    ∃ tree, mkseq (lit "%and") (ofList [nWord (lit "a")])
        (ofList [nWord (lit "%and"), nThunk (ofList [nWord (lit "b")]),
          nThunk (ofList [nWord (lit "c")])]) = some tree ∧
      walk quietShell tree () .none = walk quietShell (call .and (ofList [nWord (lit "a")])
        (ofList [nWord (lit "%and"), nThunk (ofList [nWord (lit "b")]),
          nThunk (ofList [nWord (lit "c")])])) () .none := by
  obtain ⟨tree, made, same⟩ := walk_mkseq quietShell .and (isCommand_word (lit "a"))
    ⟨.list, trivial, Form.list_fits_word (lit "%and") [nThunk (ofList [nWord (lit "b")]),
      nThunk (ofList [nWord (lit "c")])]⟩ () .none
    fun _ => fixed_of_isLiteral (List.cons_ne_nil _ _) (by decide) ()
  exact ⟨tree, made, same⟩

theorem walk_false (flags : EvalFlags) (quiet : flags.exitonfalse = false) :
    walk quietShell (ofList [nWord (lit "false")]) () flags = pure [lit "1"] := by
  have words : quietShell.glom (ofList [nWord (lit "false")]) () = pure [.str (lit "false")] :=
    rfl
  have finished : ∀ list, quietShell.finish flags list = pure list := fun list => by
    rw [Runner.finish, quiet]
    rfl
  rw [ofList_cons, walk_list, ← ofList_cons, words, show Run.lift _ = pure _ from rfl, pure_bind,
    eval, if_neg (by decide), if_neg (by decide), if_neg (by decide)]
  simp only [finished, bind_pure]
  rfl

theorem not_walk_mkseq :
    mkseq (lit "%seq") (ofList [nWord (lit "false")]) null = some (ofList [nWord (lit "false")]) ∧
      walk quietShell (ofList [nWord (lit "false")]) () .none ≠
        walk quietShell (call .seq (ofList [nWord (lit "false")]) null) () .none := by
  refine ⟨rfl, fun same => ?_⟩
  have last : walk quietShell (call .seq (ofList [nWord (lit "false")]) null) () .none =
      pure [lit "0"] := by
    rw [walk_call, apply, primSeq_cons _ _ (List.cons_ne_nil _ _), eval_block,
      walk_false _ rfl, pure_bind, primSeq, eval_block, walk, pure_bind]
    rfl
  rw [walk_false .none rfl, last] at same
  have values := congrFun same ()
  cases values

end Sequence

end Desh
