/-
This file proves when the redirections of a simple command are applied in the
order they are written (`appliedInOrder_iff`). Behind the command they are
queued in their order; in front of it they are put around a command that is
rewritten already, so that the word for a pipe is put behind the words of the
next call.
-/

import Desh.Redirecting

namespace Desh

open Desh.Tree

/-! ### Reading a simple command -/

namespace Written

theorem words_append (written others : List Written) :
    words (written ++ others) = words written ++ words others := by
  induction written with
  | nil => rfl
  | cons head written ih =>
    cases head with
    | word t =>
      rw [List.cons_append, words, words, ih]
      split <;> rfl
    | redir derivation file => exact ih

theorem redirs_append (written others : List Written) :
    redirs (written ++ others) = redirs written ++ redirs others := by
  induction written with
  | nil => rfl
  | cons head written ih =>
    cases head with
    | word t => exact ih
    | redir derivation file => exact congrArg ((derivation, file) :: ·) ih

end Written

section Reading

variable {parser middle after : Parser}

theorem readParts_append {parts others : List CommandPart} {written written' : List Written}
    (read : readParts parts parser = .returns written middle)
    (read' : readParts others middle = .returns written' after) :
    readParts (parts ++ others) parser = .returns (written ++ written') after := by
  induction parts generalizing parser written with
  | nil =>
    cases read
    exact read'
  | cons part parts ih =>
    obtain ⟨first, next, isFirst, rest⟩ := returns_of_bind read
    obtain ⟨written, last, isRest, made⟩ := returns_of_bind rest
    cases made
    rw [List.cons_append, readParts, bind_of_returns isFirst, bind_of_returns (ih isRest)]
    rfl

theorem readParts_single {part : CommandPart} {written : Written}
    (read : readPart part parser = .returns written after) :
    readParts [part] parser = .returns [written] after := by
  rw [readParts, bind_of_returns read]
  rfl

theorem redirs_of_read {parts : List CommandPart} {written : List Written}
    (read : readParts parts parser = .returns written after) :
    (Written.redirs written).map Prod.fst = parts.filterMap fun part =>
      match part with
      | .redir redir => some redir
      | _ => none := by
  induction parts generalizing parser written with
  | nil =>
    cases read
    rfl
  | cons part parts ih =>
    obtain ⟨first, next, isFirst, rest⟩ := returns_of_bind read
    obtain ⟨written, last, isRest, made⟩ := returns_of_bind rest
    cases made
    have others := ih isRest
    cases part with
    | first d =>
      obtain ⟨t, _, -, made⟩ := returns_of_bind isFirst
      cases made
      exact others
    | word d =>
      obtain ⟨t, _, -, made⟩ := returns_of_bind isFirst
      cases made
      exact others
    | redir d =>
      cases d with
      | redirDup dup =>
        cases isFirst
        exact congrArg (Derivation.redirDup dup :: ·) others
      | redirWord operator fd word =>
        obtain ⟨file, _, -, made⟩ := returns_of_bind isFirst
        obtain ⟨r, _, -, made⟩ := returns_of_bind made
        cases made
        exact congrArg (Derivation.redirWord operator fd word :: ·) others

end Reading

/-- The calls made of the redirections that were read. Their pipes take different numbers. -/
structure Gathers (written : List Written) (calls : List RedirCall) (lo hi : Nat) : Prop where
  ordered : lo ≤ hi
  makes : List.Forall₂ Makes (Written.redirs written) calls
  fresh : ∀ var ∈ calls.filterMap RedirCall.var, ∃ n, lo ≤ n ∧ n < hi ∧ var = devfd n
  nodup : (calls.filterMap RedirCall.var).Nodup

namespace Gathers

theorem word {lo hi : Nat} (ordered : lo ≤ hi) (t : Tree) : Gathers [.word t] [] lo hi :=
  ⟨ordered, .nil, nofun, .nil⟩

theorem redir {redir : Derivation .redir} {file : Tree} {call : RedirCall} {lo hi : Nat}
    (ordered : lo ≤ hi) (makes : Makes (redir, file) call)
    (fresh : ∀ var, call.var = some var → ∃ n, lo ≤ n ∧ n < hi ∧ var = devfd n) :
    Gathers [.redir redir file] [call] lo hi := by
  refine ⟨ordered, .cons makes .nil, fun var member => ?_, ?_⟩
  · obtain ⟨other, member, named⟩ := List.mem_filterMap.mp member
    rw [List.mem_singleton.mp member] at named
    exact fresh var named
  · rw [List.filterMap_cons]
    cases call.var with
    | none => exact .nil
    | some var => exact List.nodup_singleton var

theorem append {written written' : List Written} {calls calls' : List RedirCall}
    {lo middle hi : Nat} (gathers : Gathers written calls lo middle)
    (gathers' : Gathers written' calls' middle hi) :
    Gathers (written ++ written') (calls ++ calls') lo hi := by
  refine ⟨gathers.ordered.trans gathers'.ordered, ?_, ?_, ?_⟩
  · rw [Written.redirs_append]
    exact List.rel_append gathers.makes gathers'.makes
  · rw [List.filterMap_append, List.forall_mem_append]
    constructor
    · intro var member
      obtain ⟨n, low, high, same⟩ := gathers.fresh var member
      exact ⟨n, low, high.trans_le gathers'.ordered, same⟩
    · intro var member
      obtain ⟨n, low, high, same⟩ := gathers'.fresh var member
      exact ⟨n, gathers.ordered.trans low, high, same⟩
  · rw [List.filterMap_append]
    refine gathers.nodup.append gathers'.nodup fun var member member' => ?_
    obtain ⟨n, -, high, rfl⟩ := gathers.fresh var member
    obtain ⟨n', low, -, same⟩ := gathers'.fresh _ member'
    rw [devfd_injective same] at high
    exact absurd high (Nat.not_lt.mpr low)

end Gathers

/-- The words of a command: those that are written, and those for the pipes. -/
structure Keeps (written : List Written) (calls : List RedirCall) (words : List Tree) : Prop where
  sublist : (Written.words written).Sublist words
  perm : words.Perm (Written.words written ++ calls.flatMap RedirCall.words)

namespace Keeps

theorem append {written written' : List Written} {calls calls' : List RedirCall}
    {words words' : List Tree} (keeps : Keeps written calls words)
    (keeps' : Keeps written' calls' words') :
    Keeps (written ++ written') (calls ++ calls') (words ++ words') := by
  constructor
  · rw [Written.words_append]
    exact keeps.sublist.append keeps'.sublist
  · rw [Written.words_append, List.flatMap_append]
    refine (keeps.perm.append keeps'.perm).trans ?_
    rw [List.append_assoc, List.append_assoc]
    refine List.Perm.append_left _ ?_
    rw [← List.append_assoc, ← List.append_assoc]
    exact List.Perm.append_right _ List.perm_append_comm

theorem word (t : Tree) : Keeps [.word t] [] (if t = null then [] else [t]) := by
  have same : Written.words [.word t] = if t = null then [] else [t] := rfl
  refine ⟨by rw [same], ?_⟩
  rw [same, List.flatMap_nil, List.append_nil]

theorem redir (redir : Derivation .redir) (file : Tree) (call : RedirCall) :
    Keeps [.redir redir file] [call] call.words := by
  refine ⟨List.nil_sublist _, ?_⟩
  rw [List.flatMap_cons, List.flatMap_nil, List.append_nil]
  exact List.Perm.refl _

end Keeps

theorem redirappend_queued (call : RedirCall) (redirs words : List Tree) :
    redirappend (chained redirs (ofList words)) call.queued =
      some (chained (redirs ++ [call.command]) (ofList (words ++ call.words))) := by
  have inserted := insertRedir_chained call.command redirs
  cases named : call.var with
  | none =>
    rw [RedirCall.queued, RedirCall.words, named]
    exact (inserted words).trans (by rw [Option.map_none, Option.toList_none, List.append_nil])
  | some var =>
    rw [RedirCall.queued, RedirCall.words, named, redirappend, unwrap,
      treeappend_chained redirs words [nVar (nWord var)]]
    exact inserted _

theorem returns_of_check {Value : Type} {value : Option Value} {result : Value}
    {parser after : Parser} (returned : Parse.check value parser = .returns result after) :
    value = some result ∧ parser = after := by
  cases value with
  | none => cases returned
  | some value =>
    cases returned
    exact ⟨rfl, rfl⟩

/-- What a simple command is before its redirections are rewritten. -/
theorem gathers_simple : ∀ {simple : Derivation .simple} {parser after : Parser} {tree : Tree},
    action id simple parser = .returns tree after → after.error = none →
      ∃ written calls words, readParts simple.commandParts parser = .returns written after ∧
        tree = chained (calls.map RedirCall.command) (ofList words) ∧
        Gathers written calls parser.id after.id ∧ Keeps written calls words
  | .simpleFirst first, parser, after, tree, returned, accepted => by
    obtain ⟨t, middle, isFirst, made⟩ := returns_of_bind returned
    obtain ⟨same, rfl⟩ := returns_of_check made
    obtain rfl := Option.some.inj ((treecons2_null t).symm.trans same)
    have read : readPart (.first first) parser = .returns (.word t) middle := by
      rw [readPart, bind_of_returns isFirst]
      rfl
    exact ⟨_, [], _, readParts_single read, rfl,
      .word (onward_action id first _ _ _ isFirst).1 t, .word t⟩
  | .simpleWord simple word, parser, after, tree, returned, accepted => by
    obtain ⟨given, middle, isSimple, rest⟩ := returns_of_bind returned
    obtain ⟨t, last, isWord, made⟩ := returns_of_bind rest
    obtain ⟨same, rfl⟩ := returns_of_check made
    obtain ⟨ordered, before⟩ := onward_action id word _ _ _ isWord
    obtain ⟨written, calls, words, reads, rfl, gathers, keeps⟩ :=
      gathers_simple isSimple (before accepted)
    obtain rfl := Option.some.inj ((treeconsend2_chained _ words t).symm.trans same)
    have read : readPart (.word word) middle = .returns (.word t) last := by
      rw [readPart, bind_of_returns isWord]
      rfl
    have all := gathers.append (.word ordered t)
    have kept := keeps.append (.word t)
    rw [List.append_nil] at all kept
    refine ⟨_, calls, _, readParts_append reads (readParts_single read), ?_, all, kept⟩
    split
    · rw [List.append_nil]
    · rfl
  | .simpleRedir simple redir, parser, after, tree, returned, accepted => by
    obtain ⟨given, middle, isSimple, rest⟩ := returns_of_bind returned
    obtain ⟨r, last, isRedir, made⟩ := returns_of_bind rest
    obtain ⟨same, rfl⟩ := returns_of_check made
    obtain ⟨ordered, before⟩ := onward_action id redir _ _ _ isRedir
    obtain ⟨written, calls, words, reads, rfl, gathers, keeps⟩ :=
      gathers_simple isSimple (before accepted)
    obtain ⟨file, call, read, rfl, makes, fresh⟩ := makes_redir isRedir accepted
    obtain rfl := Option.some.inj ((redirappend_queued call _ words).symm.trans same)
    refine ⟨_, _, _, readParts_append reads (readParts_single read), ?_,
      gathers.append (.redir ordered makes fresh), keeps.append (.redir redir file call)⟩
    rw [List.map_append]
    rfl

/-! ### Nested calls -/

namespace Nests

theorem cons_cases {call : RedirCall} {calls : List RedirCall} {t u : Tree}
    (nests : Nests (call :: calls) t u) :
    ∃ inner cmd, Nests calls t inner ∧ thunkify inner = some cmd ∧ u = call.tree cmd := by
  cases nests with
  | cons nests made => exact ⟨_, _, nests, made, rfl⟩

theorem eq_of_nil {t u : Tree} (nests : Nests [] t u) : u = t := by
  cases nests
  rfl

theorem trans {calls others : List RedirCall} {t u v : Tree} (nests : Nests calls t u)
    (outer : Nests others u v) : Nests (others ++ calls) t v := by
  induction outer with
  | nil => exact nests
  | cons _ made ih => exact .cons (ih nests) made

/-- Inside calls around a list there are only lists. -/
theorem list {calls : List RedirCall} {words : List Tree} {u : Tree}
    (nests : Nests calls (ofList words) u) : ∃ l, u = ofList l := by
  cases nests with
  | nil => exact ⟨words, rfl⟩
  | cons nests made => exact ⟨_, rfl⟩

/-- The outermost calls of two nestings of one tree. -/
theorem both {call call' : RedirCall} {calls calls' : List RedirCall} {words words' : List Tree}
    {u : Tree} (nests : Nests (call :: calls) (ofList words) u)
    (nests' : Nests (call' :: calls') (ofList words') u) :
    call.name = call'.name ∧ call.args = call'.args ∧
      ∃ l, Nests calls (ofList words) (ofList l) ∧ Nests calls' (ofList words') (ofList l) := by
  obtain ⟨inner, cmd, isInner, made, rfl⟩ := nests.cons_cases
  obtain ⟨inner', cmd', isInner', made', same⟩ := nests'.cons_cases
  obtain ⟨name, args, rfl⟩ := RedirCall.tree_injective same
  obtain ⟨l, rfl⟩ := isInner.list
  obtain ⟨l', rfl⟩ := isInner'.list
  rw [← thunkify_injective made made'] at isInner'
  exact ⟨name, args, l, isInner, isInner'⟩

end Nests

namespace Makes

variable {redir : Derivation .redir × Tree} {call spec : RedirCall}

/-- The call of a redirection that stands for it is not made of a block of a block. -/
theorem several (makes : Makes redir call) (stands : RedirCall.Stands redir spec)
    (same : call.applied.name = spec.name) (body : Derivation .body)
    (process : redir.1.process = some body) : body.form ≠ .loneThunk := by
  obtain ⟨var, rfl⟩ := stands
  exact fun lone => makes.lone body process lone var same

theorem length_eq (makes : Makes redir call) (stands : RedirCall.Stands redir spec) :
    call.args.length = spec.args.length := by
  obtain ⟨var, rfl⟩ := stands
  exact makes.length var

/-- A pipe has a word unless it is taken for a file. -/
theorem named (makes : Makes redir call)
    (several : ∀ body, redir.1.process = some body → body.form ≠ .loneThunk)
    (piped : redir.1.process ≠ none) : call.var ≠ none := by
  obtain ⟨var, same⟩ := makes.stands several
  rw [← call.applied_var, same]
  obtain ⟨redir, file⟩ := redir
  cases redir with
  | redirDup => exact absurd rfl piped
  | redirWord operator fd word =>
    rw [process_redirWord] at piped
    split at piped
    · exact absurd rfl piped
    · rename_i device
      obtain ⟨device, runs⟩ := Option.ne_none_iff_exists'.mp device
      obtain ⟨body, block⟩ := Option.ne_none_iff_exists'.mp piped
      rw [ofRedir_block runs block]
      nofun

end Makes

/-- No redirection of nested calls that stand for them has a block of a block. -/
theorem several_of_nests {redirs : List (Derivation .redir × Tree)} {calls spec : List RedirCall}
    {words words' : List Tree} {u : Tree} (makes : List.Forall₂ Makes redirs calls)
    (stands : List.Forall₂ RedirCall.Stands redirs spec)
    (nests : Nests (calls.map RedirCall.applied) (ofList words) u)
    (nests' : Nests spec (ofList words') u) :
    ∀ redir ∈ redirs.map Prod.fst, ∀ body, redir.process = some body →
      body.form ≠ .loneThunk := by
  induction makes generalizing spec u with
  | nil => exact nofun
  | @cons redir call redirs calls first makes ih =>
    cases stands with
    | @cons _ other _ spec isFirst stands =>
      obtain ⟨name, -, l, inner, inner'⟩ := nests.both nests'
      rw [List.map_cons, List.forall_mem_cons]
      exact ⟨first.several isFirst name, ih stands inner inner'⟩

/-- A word behind the outermost call leaves no call to be outermost. -/
theorem Gathers.last_of_nests {written : List Written} {calls spec : List RedirCall}
    {words l : List Tree} {word : Tree} {lo hi : Nat} (gathers : Gathers written calls lo hi)
    (outermost : ∀ call others, calls = call :: others → ∃ cmd, ofList l = call.applied.tree cmd)
    (stands : List.Forall₂ RedirCall.Stands (Written.redirs written) spec)
    (nests : Nests spec (ofList words) (ofList (l ++ [word]))) : Written.redirs written = [] := by
  have makes := gathers.makes
  generalize Written.redirs written = redirs at makes stands
  cases makes with
  | nil => rfl
  | @cons redir call redirs calls first makes =>
    cases stands with
    | @cons _ other _ spec isFirst stands =>
      obtain ⟨cmd, same⟩ := outermost call calls rfl
      obtain ⟨_, cmd', -, -, same'⟩ := nests.cons_cases
      have length := congrArg List.length (ofList_injective same)
      have length' := congrArg List.length (ofList_injective same')
      have args := first.length_eq isFirst
      simp only [List.length_append, List.length_cons, List.length_nil, RedirCall.applied_args] at *
      omega

theorem wellFormed_of_makes {redirs : List (Derivation .redir × Tree)} {calls : List RedirCall}
    (makes : List.Forall₂ Makes redirs calls) : ∀ call ∈ calls, call.WellFormed := by
  induction makes with
  | nil => exact nofun
  | cons first _ ih => exact List.forall_mem_cons.mpr ⟨first.wellFormed, ih⟩

theorem stands_of_makes {redirs : List (Derivation .redir × Tree)} {calls : List RedirCall}
    (makes : List.Forall₂ Makes redirs calls)
    (several : ∀ redir ∈ redirs.map Prod.fst, ∀ body, redir.process = some body →
      body.form ≠ .loneThunk) :
    List.Forall₂ RedirCall.Stands redirs (calls.map RedirCall.applied) := by
  induction makes with
  | nil => exact .nil
  | cons first _ ih =>
    rw [List.map_cons, List.forall_mem_cons] at several
    exact .cons (first.stands several.1) (ih several.2)

theorem Keeps.front {written : List Written} {calls : List RedirCall} {words : List Tree}
    (keeps : Keeps written calls words) (redir : Derivation .redir) (file : Tree)
    (call : RedirCall) :
    Keeps (.redir redir file :: written) (call :: calls) (words ++ call.words) := by
  have both := (Keeps.redir redir file call).append keeps
  exact ⟨keeps.sublist.trans (List.sublist_append_left _ _), List.perm_append_comm.trans both.perm⟩

/-! ### Commands -/

/-- What becomes of a command: its outermost call, what its calls are nested around if its
redirections are placed well, and that nothing is nested in their order if they are not. -/
structure Rewrites {symbol : Nonterminal} (derivation : Derivation symbol)
    (written : List Written) (calls : List RedirCall) (l : List Tree) : Prop where
  outermost : ∀ call others, calls = call :: others → ∃ cmd, ofList l = call.applied.tree cmd
  nests : derivation.Placed → ∃ words,
    Nests (calls.map RedirCall.applied) (ofList words) (ofList l) ∧ Keeps written calls words
  placed : ∀ spec words, List.Forall₂ RedirCall.Stands (Written.redirs written) spec →
    Nests spec (ofList words) (ofList l) → derivation.Placed

theorem rewrites_cmdSimple {simple : Derivation .simple} {parser middle : Parser}
    {written : List Written} {calls : List RedirCall} {words l : List Tree} {lo hi : Nat}
    (read : readParts simple.commandParts parser = .returns written middle)
    (gathers : Gathers written calls lo hi) (keeps : Keeps written calls words)
    (nests : Nests (calls.map RedirCall.applied) (ofList words) (ofList l)) :
    Rewrites (.cmdSimple simple) written calls l where
  outermost := by
    rintro call others rfl
    obtain ⟨_, cmd, -, -, same⟩ := nests.cons_cases
    exact ⟨cmd, same⟩
  nests _ := ⟨words, nests, keeps⟩
  placed spec words' stands nests' := by
    refine ⟨?_, trivial⟩
    have several := several_of_nests gathers.makes stands nests nests'
    rw [redirs_of_read read] at several
    exact several

theorem rewrites_cmdRedir {redir : Derivation .redir} {cmd : Derivation .cmd}
    {parser middle : Parser} {written : List Written} {calls : List RedirCall} {file : Tree}
    {call : RedirCall} {l l' : List Tree} {lo hi : Nat}
    (read : readParts cmd.commandParts parser = .returns written middle)
    (gathers : Gathers written calls lo hi) (rewrites : Rewrites cmd written calls l)
    (makes : Makes (redir, file) call)
    (outer : Nests [call.applied] (ofList (l ++ call.words)) (ofList l')) :
    Rewrites (.cmdRedir redir cmd) (.redir redir file :: written) (call :: calls) l' where
  outermost := by
    rintro _ _ ⟨⟩
    obtain ⟨_, cmd, -, -, same⟩ := outer.cons_cases
    exact ⟨cmd, same⟩
  nests := by
    rintro ⟨several, last, front⟩
    have redirs : (Written.redirs written).map Prod.fst = cmd.allRedirs := redirs_of_read read
    obtain ⟨words, inner, keeps⟩ := rewrites.nests
      ⟨fun other member => several other (List.mem_cons_of_mem redir member), front⟩
    refine ⟨words ++ call.words, ?_, keeps.front redir file call⟩
    refine Nests.trans ?_ outer
    cases named : call.var with
    | none =>
      have none : call.words = [] := by rw [RedirCall.words, named]; rfl
      rw [none, List.append_nil, List.append_nil]
      exact inner
    | some var =>
      -- it is the last redirection, so that its word is put behind the words of the command
      have alone := last (makes.piped (by rw [named]; exact Option.some_ne_none _))
      rw [← redirs, List.map_eq_nil_iff] at alone
      have nothing := gathers.makes
      rw [alone] at nothing
      cases nothing
      rw [ofList_injective inner.eq_of_nil]
      exact .nil _
  placed spec words stands nests := by
    have redirs : (Written.redirs written).map Prod.fst = cmd.allRedirs := redirs_of_read read
    cases stands with
    | @cons _ first _ spec isFirst stands =>
      obtain ⟨name, -, m, isInner, inner⟩ := outer.both nests
      rw [isInner.eq_of_nil] at inner
      have several := makes.several isFirst name
      cases named : call.var with
      | none =>
        have none : call.words = [] := by rw [RedirCall.words, named]; rfl
        rw [none, List.append_nil] at inner
        obtain ⟨others, front⟩ := rewrites.placed spec words stands inner
        exact ⟨List.forall_mem_cons.mpr ⟨several, others⟩,
          fun piped => absurd named (makes.named several piped), front⟩
      | some var =>
        have alone := gathers.last_of_nests rewrites.outermost stands (by
          rw [RedirCall.words, named] at inner
          exact inner)
        rw [alone] at redirs
        obtain ⟨others, front⟩ := rewrites.placed [] l (by rw [alone]; exact .nil) (.nil _)
        exact ⟨List.forall_mem_cons.mpr ⟨several, others⟩, fun _ => redirs.symm, front⟩

/-- What becomes of a simple command. -/
theorem rewrites_of_returns {symbol : Nonterminal} {derivation : Derivation symbol}
    (simple : derivation.isSimple = true) {parser after : Parser} {tree : Tree}
    (returned : action id derivation parser = .returns tree after)
    (accepted : after.error = none) :
    ∃ written calls l later, readParts derivation.commandParts parser = .returns written later ∧
      tree = ofList l ∧ Gathers written calls parser.id later.id ∧
      Rewrites derivation written calls l := by
  induction derivation generalizing parser after tree with
  | cmdEmpty =>
    cases returned
    refine ⟨[], [], [], parser, rfl, rfl, ⟨le_rfl, .nil, nofun, .nil⟩, nofun, fun _ => ?_, ?_⟩
    · exact ⟨[], .nil _, ⟨List.nil_sublist _, List.Perm.refl _⟩⟩
    · exact fun _ _ _ _ => ⟨nofun, trivial⟩
  | cmdSimple simple =>
    obtain ⟨t, middle, isSimple, made⟩ := returns_of_bind returned
    obtain ⟨written, calls, words, read, rfl, gathers, keeps⟩ :=
      gathers_simple isSimple ((Onward.redirected t _ _ _ made).2 accepted)
    obtain ⟨l, rfl, nests⟩ :=
      RedirCall.redirected_nests (wellFormed_of_makes gathers.makes) words made accepted
    exact ⟨written, calls, l, middle, read, rfl, gathers,
      rewrites_cmdSimple read gathers keeps nests⟩
  | cmdRedir redir cmd _ ih =>
    obtain ⟨r, middle, isRedir, rest⟩ := returns_of_bind returned
    obtain ⟨t, last, isCmd, made⟩ := returns_of_bind rest
    have before := (Onward.redirected _ _ _ _ made).2 accepted
    obtain ⟨ordered, first⟩ := onward_action id redir _ _ _ isRedir
    obtain ⟨-, next⟩ := onward_action id cmd _ _ _ isCmd
    obtain ⟨written, calls, l, later, read, rfl, gathers, rewrites⟩ := ih simple isCmd before
    obtain ⟨file, call, isRead, rfl, makes, fresh⟩ := makes_redir isRedir (next before)
    rw [RedirCall.redirected_queued] at made
    obtain ⟨l', rfl, outer⟩ := @RedirCall.redirected_nests _ _ [call]
      (List.forall_mem_singleton.mpr makes.wellFormed) (l ++ call.words) _ made accepted
    refine ⟨_, _, l', later, ?_, rfl, (Gathers.redir ordered makes fresh).append gathers,
      rewrites_cmdRedir read gathers rewrites makes outer⟩
    exact readParts_append (readParts_single isRead) read
  | _ => cases simple

/-- A simple command is rewritten to calls in the order of its redirections if and only if no
redirection from or to a block stands in front of it with others behind it, or has a block that
consists of one more block. -/
theorem appliedInOrder_iff {cmd : Derivation .cmd} (simple : cmd.isSimple = true)
    {parser after : Parser} {tree : Tree} (returned : action id cmd parser = .returns tree after)
    (accepted : after.error = none) :
    (∃ written later, readParts cmd.commandParts parser = .returns written later ∧
      AppliedInOrder written tree) ↔ cmd.Placed := by
  obtain ⟨written, calls, l, later, read, rfl, gathers, rewrites⟩ :=
    rewrites_of_returns simple returned accepted
  constructor
  · rintro ⟨written', later', read', spec, words, stands, -, nests, -⟩
    rw [read] at read'
    cases read'
    exact rewrites.placed spec words stands nests
  · intro placed
    obtain ⟨words, nests, keeps⟩ := rewrites.nests placed
    refine ⟨written, later, read, calls.map RedirCall.applied, words, ?_, ?_, nests,
      keeps.sublist, ?_⟩
    · refine stands_of_makes gathers.makes ?_
      rw [redirs_of_read read]
      exact placed.1
    · have same : RedirCall.var ∘ RedirCall.applied = RedirCall.var := funext RedirCall.applied_var
      rw [List.filterMap_map, same]
      exact gathers.nodup
    · simp only [List.flatMap_map, RedirCall.applied_words]
      exact keeps.perm

/-- A plain word as a command. -/
def plainFirst (s : Text) (plain : '$'.toUInt8 ∉ s) : Derivation .first :=
  .firstComword (.comwordParam (.paramWord s plain))

/-- The redirection `<{a}`. -/
def fromBlock : Derivation .redir :=
  .redirWord .open 0 (.wordSword (.swordComword (.comwordBody (.bodyCmd
    (.cmdSimple (.simpleFirst (plainFirst (lit "a") plain_a)))))))

/-- The redirection `>b`. -/
def toFile : Derivation .redir :=
  .redirWord .create 1
    (.wordSword (.swordComword (.comwordParam (.paramWord (lit "b") plain_b))))

/-- `cat <{a} >b`. -/
def behindCat : Derivation .cmd :=
  .cmdSimple (.simpleRedir (.simpleRedir (.simpleFirst (plainFirst (lit "cat") plain_cat))
    fromBlock) toFile)

/-- `<{a} >b cat`. -/
def frontCat : Derivation .cmd :=
  .cmdRedir fromBlock (.cmdRedir toFile (.cmdSimple (.simpleFirst
    (plainFirst (lit "cat") plain_cat))))

/-- Behind a command, the redirections are applied in order. -/
theorem appliedInOrder_behindCat :
    ∃ written later, readParts behindCat.commandParts (Parser.start [] 0) =
        .returns written later ∧
      AppliedInOrder written (ofList [nWord (lit "%readfrom"), nWord (lit "_devfd0"),
        nThunk (ofList [nWord (lit "a")]), nThunk (ofList [nWord (lit "%create"), nWord (lit "1"),
          nCall (ofList [nWord (lit "%one"), nWord (lit "b")]),
          nThunk (ofList [nWord (lit "cat"), nVar (nWord (lit "_devfd0"))])])]) := by
  have returned : action id behindCat (Parser.start [] 0) =
    .returns _ { Parser.start [] 0 with id := 1 } := rfl
  refine (appliedInOrder_iff rfl returned rfl).mpr ⟨?_, trivial⟩
  decide

/-- In front of it, the word for the pipe becomes an argument of `%create`. -/
theorem not_appliedInOrder_frontCat :
    ∃ tree, tree = ofList [nWord (lit "%readfrom"), nWord (lit "_devfd0"),
        nThunk (ofList [nWord (lit "a")]), nThunk (ofList [nWord (lit "%create"), nWord (lit "1"),
          nCall (ofList [nWord (lit "%one"), nWord (lit "b")]),
          nThunk (ofList [nWord (lit "cat")]), nVar (nWord (lit "_devfd0"))])] ∧
      action id frontCat (Parser.start [] 0) =
        .returns tree { Parser.start [] 0 with id := 1 } ∧
      ¬∃ written later, readParts frontCat.commandParts (Parser.start [] 0) =
          .returns written later ∧ AppliedInOrder written tree := by
  have refuted : ∀ tree, action id frontCat (Parser.start [] 0) =
      .returns tree { Parser.start [] 0 with id := 1 } →
        ¬∃ written later, readParts frontCat.commandParts (Parser.start [] 0) =
          .returns written later ∧ AppliedInOrder written tree := by
    rintro tree returned ⟨written, later, read, spec, words, stands, -, nests, -⟩
    obtain ⟨_, _, l, _, read', rfl, -, rewrites⟩ := rewrites_of_returns rfl returned rfl
    rw [read] at read'
    cases read'
    obtain ⟨-, last, -⟩ := rewrites.placed spec words stands nests
    cases last nofun
  exact ⟨_, rfl, rfl, refuted _ rfl⟩

end Desh
