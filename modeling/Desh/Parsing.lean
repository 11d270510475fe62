/-
This file proves that the semantic actions of a derivation do what its events
say (`action_simulates`), by one case for each production, and reads off it
when the parser fails an assertion.

The invariant is what the tree of each kind of symbol looks like (`Builds`):
the tree of a command has the form read off the derivation, the tree of a
simple command is a chain of redirections in front of a list, the tree of a
redirection is a command with a placeholder at its end.
-/

import Desh.Builders

namespace Desh

open Desh.Tree

/-! ### What the actions build -/

/-- The commands redirections of a marking stand for. -/
def Marking.Marks : Marking → Tree → Prop
  | plain, r => ∃ s args, r = ofList (nWord s :: args ++ [placeholder]) ∧ s ≠ lit "%heredoc"
  | literal eof, r => ∃ fd, r = ofList [nWord (lit "%heredoc"), fd, eof, placeholder] ∧
      ∃ s, eof = nWord s ∨ eof = nQword s
  | missing, r => ∃ fd, r = ofList [nWord (lit "%heredoc"), fd, null, placeholder]
  | refused, r => ∃ fd eof, r = ofList [nWord (lit "%heredoc"), fd, eof, placeholder] ∧
      Form.value.Fits eof

theorem Marking.Marks.command {marking : Marking} {r : Tree} (mark : marking.Marks r) :
    ∃ s args, r = nList (nWord s) args := by
  cases marking with
  | plain =>
    obtain ⟨s, args, rfl, -⟩ := mark
    exact ⟨s, _, rfl⟩
  | literal eof =>
    obtain ⟨fd, rfl, -⟩ := mark
    exact ⟨_, _, rfl⟩
  | missing =>
    obtain ⟨fd, rfl⟩ := mark
    exact ⟨_, _, rfl⟩
  | refused =>
    obtain ⟨fd, eof, rfl, -⟩ := mark
    exact ⟨_, _, rfl⟩

/-- Is it the form of a word? -/
def Form.IsWord : Form → Prop
  | null | literal _ | thunk | value => True
  | loneThunk | list | node => False

/-- What the tree of a derivation looks like. -/
def Builds : {symbol : Nonterminal} → Derivation symbol → Tree → Prop
  | .es, d, t | .line, d, t | .body, d, t | .cmdsa, d, t | .cmdsan, d, t | .cmd, d, t =>
      d.form.IsCmd ∧ d.form.Fits t
  | .fn, _, t => Form.node.Fits t
  | .simple, d, t => ∃ redirs l, t = chained redirs (ofList l) ∧ d.form.IsCmd ∧
      d.form.Fits (ofList l) ∧ List.Forall₂ Marking.Marks d.markings redirs ∧
      (d.isRedirected = false ↔ d.markings = [])
  | .redir, d, t => ∃ r, d.marking.Marks r ∧
      if d.form = .thunk then ∃ var, t = nRedir (ofList [nVar var]) r else t = r
  | .first, d, t | .sword, d, t | .word, d, t | .comword, d, t | .param, d, t =>
      d.form.IsWord ∧ d.form.Fits t
  | .nlwords, d, t => (d.form.IsWord ∧ d.form.Fits t) ∧ ∃ l, t = ofList l
  | .bindings, _, t | .params, _, t | .words, _, t => ∃ l, t = ofList l
  | .binding, _, _ | .assign, _, _ => True

/-! ### Rules for single events -/

section Rules

variable {spelling : Text → Text} {Value : Type}

theorem simulates_assertion {fits : Value → Prop} {action : Parse Value} (event : Event)
    (fatal : event = .braced ∨ event = .missing) (events : List Event)
    (fails : ∀ parser, action parser = .assertion) :
    Simulates spelling fits action (event :: events) := by
  intro parser other _
  rw [fails parser]
  rcases fatal with rfl | rfl <;> exact .assertion

theorem simulates_yyabort {fits : Value → Prop} {action : Parse Value} (events : List Event)
    (aborts : ∀ parser, ∃ after, action parser = .yyabort after) :
    Simulates spelling fits action (.refused :: events) := by
  intro parser other _
  obtain ⟨after, same⟩ := aborts parser
  rw [same]
  exact .yyabort

theorem simulates_queued {fits : Value → Prop} {action next : Parse Value} (eof : Tree)
    {events : List Event}
    (queues : ∀ parser : Parser, action parser = next { parser with
      documents := { parser.documents with hereq := eof :: parser.documents.hereq } })
    (simulates : Simulates spelling fits next events) :
    Simulates spelling fits action (.queued eof :: events) := by
  intro parser other same
  rw [queues parser]
  refine simulates _ _ ?_
  rw [same]

end Rules

/-! ### Redirecting -/

/-- What `redirect` does with the command of the first redirection, once it is queued. -/
def redirectQueued (n : Nat) (t : Tree) : Option Tree → Parse (Option Tree)
  | none => pure none
  | some r => do
      let inner ← redirectMany n t
      let inner ← Parse.check (thunkify (inner.getD errornode))
      pure (some (fillPlaceholder inner r))

/-- One step of `redirect` on a command that ends with a placeholder. -/
theorem redirectMany_command (n : Nat) (s : Text) (args : List Tree) (t : Tree) :
    redirectMany (n + 1) (nRedir (ofList (nWord s :: args ++ [placeholder])) t) =
      (if firstis (ofList (nWord s :: args ++ [placeholder])) (lit "%heredoc") then
        queueheredoc (ofList (nWord s :: args ++ [placeholder]))
      else pure (some (ofList (nWord s :: args ++ [placeholder])))) >>= redirectQueued n t := by
  have found : hasPlaceholder (ofList (nWord s :: args ++ [placeholder])) = true :=
    hasPlaceholder_ofList (nWord s :: args)
  have unwrapped : unwrap (ofList (nWord s :: args ++ [placeholder])) t =
      some (ofList (nWord s :: args ++ [placeholder]), t) := rfl
  rw [redirectMany, unwrapped]
  refine Eq.trans (b := if hasPlaceholder (ofList (nWord s :: args ++ [placeholder])) = false then
    Parse.assertion else _) rfl ?_
  rw [if_neg (by rw [found]; decide)]
  split
  all_goals
    refine congrArg _ (funext fun queued => ?_)
    cases queued <;> rfl

theorem queueheredoc_literal {eof : Tree} (fd : Tree) (word : ∃ s, eof = nWord s ∨ eof = nQword s)
    (parser : Parser) :
    queueheredoc (ofList [nWord (lit "%heredoc"), fd, eof, placeholder]) parser =
      .returns (some (ofList [nWord (lit "%here"), fd, eof, placeholder])) { parser with
        documents := { parser.documents with hereq := eof :: parser.documents.hereq } } := by
  obtain ⟨s, rfl | rfl⟩ := word <;> rfl

theorem queueheredoc_refused {eof : Tree} (fd : Tree) (value : Form.value.Fits eof)
    (parser : Parser) :
    ∃ after, queueheredoc (ofList [nWord (lit "%heredoc"), fd, eof, placeholder]) parser =
      .returns none after ∧ after.documents = parser.documents := by
  cases eof <;> first | exact value.elim | exact ⟨_, rfl, rfl⟩

theorem redirectMany_missing {r : Tree} (mark : Marking.missing.Marks r) (n : Nat) (t : Tree)
    (parser : Parser) : redirectMany (n + 1) (nRedir r t) parser = .assertion := by
  obtain ⟨fd, rfl⟩ := mark
  have step := redirectMany_command n (lit "%heredoc") [fd, null] t
  exact congrFun step parser

theorem redirectMany_refused {r : Tree} (mark : Marking.refused.Marks r) (n : Nat) (t : Tree)
    (parser : Parser) :
    ∃ after, redirectMany (n + 1) (nRedir r t) parser = .returns none after ∧
      after.documents = parser.documents := by
  obtain ⟨fd, eof, rfl, value⟩ := mark
  obtain ⟨after, refused, same⟩ := queueheredoc_refused fd value parser
  have step := redirectMany_command n (lit "%heredoc") [fd, eof] t
  refine ⟨after, (congrFun step parser).trans ?_, same⟩
  exact congrArg (fun parsed => Parsed.andThen parsed (redirectQueued n t)) refused

/-- What `redirect` gives for a redirection that is not refused. -/
def Rewritten (t : Option Tree) : Prop := ∃ r, t = some r ∧ Form.list.Fits r

theorem redirectQueued_simulates {spelling : Text → Text} {n : Nat} {t : Tree}
    {events : List Event} (s : Text) (args : List Tree)
    (inner : Simulates spelling (fun t => ∃ u, thunkify (t.getD errornode) = some u)
      (redirectMany n t) events) :
    Simulates spelling Rewritten (redirectQueued n t (some (ofList (nWord s :: args)))) events := by
  refine inner.andThen fun t thunk => ?_
  refine Simulates.silently (@Simulates.check _ _ (fun _ => True) _ ?_) fun u _ => ?_
  · obtain ⟨u, same⟩ := thunk
    exact ⟨u, same, trivial⟩
  · exact Simulates.pure ⟨_, rfl, list_fits_filled u s args⟩

/-- One redirection, before the ones inside it. -/
theorem redirectMany_simulates_command {spelling : Text → Text} {marking : Marking} {r : Tree}
    (mark : marking.Marks r) (accepted : marking ≠ .refused) {n : Nat} {t : Tree}
    {events : List Event}
    (inner : Simulates spelling (fun t => ∃ u, thunkify (t.getD errornode) = some u)
      (redirectMany n t) events) :
    Simulates spelling Rewritten (redirectMany (n + 1) (nRedir r t))
      (marking.events ++ events) := by
  cases marking with
  | plain =>
    obtain ⟨s, args, rfl, other⟩ := mark
    have first : firstis (ofList (nWord s :: args ++ [placeholder])) (lit "%heredoc") = false :=
      beq_eq_false_iff_ne.mpr other
    rw [redirectMany_command, first]
    exact redirectQueued_simulates s (args ++ [placeholder]) inner
  | literal eof =>
    obtain ⟨fd, rfl, word⟩ := mark
    have step := redirectMany_command n (lit "%heredoc") [fd, eof] t
    refine simulates_queued eof (fun parser => (congrFun step parser).trans ?_)
      (redirectQueued_simulates (lit "%here") [fd, eof, placeholder] inner)
    exact congrArg (fun parsed => Parsed.andThen parsed (redirectQueued n t))
      (queueheredoc_literal fd word parser)
  | missing => exact simulates_assertion _ (.inr rfl) _ (redirectMany_missing mark n t)
  | refused => exact absurd rfl accepted

/-- The redirections inside another one: what comes back can be made a thunk. -/
theorem redirectMany_simulates {spelling : Text → Text} {form : Form} {t : Tree}
    (cmd : form.IsCmd) (fits : form.Fits t) {markings : List Marking} {redirs : List Tree}
    (marks : List.Forall₂ Marking.Marks markings redirs) :
    Simulates spelling (fun t => ∃ u, thunkify (t.getD errornode) = some u)
      (redirectMany redirs.length (chained redirs t)) (Marking.innerEvents markings) := by
  induction marks with
  | nil =>
    obtain ⟨u, thunk, -⟩ := thunkify_of_fits cmd fits
    exact Simulates.pure ⟨u, thunk⟩
  | @cons marking r markings redirs mark marks ih =>
    have accepted : marking ≠ .refused →
        Simulates spelling (fun t => ∃ u, thunkify (t.getD errornode) = some u)
          (redirectMany (redirs.length + 1) (nRedir r (chained redirs t)))
          (marking.events ++ Marking.innerEvents markings) := fun accepted =>
      (redirectMany_simulates_command mark accepted ih).mono fun _ ⟨r, same, list⟩ => by
        obtain ⟨u, thunk, -⟩ := thunkify_of_fits (show Form.list.IsCmd from trivial) list
        exact ⟨u, by rw [same]; exact thunk⟩
    cases marking with
    | plain => exact accepted nofun
    | literal eof => exact accepted nofun
    | missing =>
      exact simulates_assertion _ (.inr rfl) _ (redirectMany_missing mark _ _)
    | refused =>
      intro parser other same
      obtain ⟨after, returned, kept⟩ :=
        redirectMany_refused mark redirs.length (chained redirs t) parser
      rw [chained_cons, List.length_cons, returned]
      exact .returns ⟨nThunk errornode, rfl⟩ (kept.trans same)

/-- The redirections in front of a command. -/
theorem redirected_simulates {spelling : Text → Text} {form : Form} {t r : Tree}
    (cmd : form.IsCmd) (fits : form.Fits t) {marking : Marking} {markings : List Marking}
    {redirs : List Tree} (mark : marking.Marks r)
    (marks : List.Forall₂ Marking.Marks markings redirs) :
    Simulates spelling Form.list.Fits (redirected (chained (r :: redirs) t))
      (Marking.simpleEvents (marking :: markings)) := by
  have count : redirections (chained (r :: redirs) t) = redirs.length + 1 := by
    rw [redirections_chained, redirections_of_fits cmd fits, List.length_cons, Nat.add_zero]
  have all := @redirectMany_simulates spelling _ _ cmd fits _ _ marks
  have same : redirected (chained (r :: redirs) t) =
      redirectMany (redirs.length + 1) (nRedir r (chained redirs t)) >>= fun t =>
        t.elim Parse.yyabort pure := by
    rw [redirected, redirect, count]
    exact bind_congr fun t => by cases t <;> rfl
  rw [same]
  by_cases accepted : marking = .refused
  · subst accepted
    refine simulates_yyabort _ fun parser => ?_
    obtain ⟨after, returned, -⟩ := redirectMany_refused mark redirs.length (chained redirs t) parser
    exact ⟨after, congrArg (fun parsed => Parsed.andThen parsed _) returned⟩
  · refine (redirectMany_simulates_command mark accepted all).andThen ?_
    rintro _ ⟨r, rfl, list⟩
    exact Simulates.pure list

/-- A word in front of a redirection is appended to the tree first. -/
theorem redirected_word {word r t t' : Tree} (appended : treeappend t word = some t')
    (bare : redirections t = 0) (bare' : redirections t' = 0) :
    redirected (nRedir (nRedir word r) t) = redirected (nRedir r t') := by
  have unwrapped : unwrap (nRedir word r) t = unwrap r t' := by
    rw [unwrap, appended, Option.bind_some]
  have both : redirectMany 1 (nRedir (nRedir word r) t) = redirectMany 1 (nRedir r t') := by
    rw [redirectMany, redirectMany, unwrapped]
  rw [redirected, redirected, redirect, redirect, redirections, redirections, bare, bare', both]

/-- A word cannot be appended to a node. -/
theorem redirected_node {word r t : Tree} (node : Form.node.Fits t) (parser : Parser) :
    redirected (nRedir (nRedir word r) t) parser = .assertion := by
  have unwrapped : unwrap (nRedir word r) t = none := by
    rw [unwrap]
    cases t <;> first | exact node.elim | rfl
  have bare : redirections t = 0 := redirections_of_fits (show Form.node.IsCmd from trivial) node
  have fails : redirectMany 1 (nRedir (nRedir word r) t) parser = .assertion := by
    rw [redirectMany, unwrapped]
    rfl
  rw [redirected, redirect, redirections, bare, Parse.bind_apply, fails]
  rfl

/-! ### Making and appending redirections -/

theorem marks_dup (dup : Dup) : Marking.plain.Marks dup.tree := by
  cases dup with
  | close fd => exact ⟨lit "%close", [nWord (decimal fd)], rfl, by decide⟩
  | dup fd0 fd1 => exact ⟨lit "%dup", [nWord (decimal fd0), nWord (decimal fd1)], rfl, by decide⟩

/-- A redirection to or from a thunk. -/
theorem mkredir_thunk (cmd : Tree) (body : Tree) (parser : Parser) :
    ∃ op var after, mkredir cmd (nThunk body) parser =
        .returns (nRedir (ofList [nVar var]) (ofList [nWord op, var, nThunk body, placeholder]))
          after ∧
      op ≠ lit "%heredoc" ∧ after.documents = parser.documents := by
  unfold mkredir
  dsimp only
  split
  · exact ⟨lit "%readfrom", _, _, rfl, by decide, rfl⟩
  · split
    · exact ⟨lit "%writeto", _, _, rfl, by decide, rfl⟩
    · exact ⟨[], _, _, rfl, by decide, rfl⟩

/-- A redirection to or from a file, or from a here document. -/
theorem mkredir_file (cmd : Text) (fd : Int) {file : Tree} (other : ∀ body, file ≠ nThunk body) :
    mkredir (mkredircmd cmd fd) file = pure (ofList [nWord cmd, nWord (decimal fd),
      if firstis (mkredircmd cmd fd) (lit "%heredoc") ∨ firstis (mkredircmd cmd fd) (lit "%here")
      then file else nCall (ofList [nWord (lit "%one"), file]), placeholder]) := by
  cases file <;> first | exact absurd rfl (other _) | rfl

theorem marking_redirWord (operator : Operator) (fd : Int) (word : Derivation .word) :
    (Derivation.redirWord operator fd word).marking =
      if operator = .heredoc then Marking.ofWord word.form else .plain := by
  cases operator <;> rfl

theorem mkredir_simulates {spelling : Text → Text} (operator : Operator) (fd : Int)
    (word : Derivation .word) {file : Tree} (builds : Builds word file) :
    Simulates spelling (Builds (.redirWord operator fd word))
      (mkredir (mkredircmd operator.command fd) file) [] := by
  obtain ⟨isWord, fits⟩ := builds
  have formed : (Derivation.redirWord operator fd word).form = word.form := rfl
  change Simulates spelling (fun t => ∃ r, (Derivation.redirWord operator fd word).marking.Marks r ∧
    if (Derivation.redirWord operator fd word).form = .thunk
    then ∃ var, t = nRedir (ofList [nVar var]) r else t = r) _ []
  rw [marking_redirWord, formed]
  generalize word.form = form at isWord fits
  by_cases thunk : form = .thunk
  · subst thunk
    obtain ⟨body, rfl⟩ := fits
    intro parser other same
    obtain ⟨op, var, after, returned, plain, kept⟩ :=
      mkredir_thunk (mkredircmd operator.command fd) body parser
    rw [returned]
    refine .returns ⟨_, ?_, var, rfl⟩ (kept.trans same)
    have mark : Marking.plain.Marks (ofList [nWord op, var, nThunk body, placeholder]) :=
      ⟨op, [var, nThunk body], rfl, plain⟩
    split <;> exact mark
  · have other : ∀ body, file ≠ nThunk body := by
      rintro body rfl
      cases form <;> first | exact thunk rfl | exact isWord.elim | exact fits.elim | skip
      · cases fits
      · obtain ⟨rfl, _, same | same⟩ := fits <;> cases same
    rw [mkredir_file _ _ other]
    refine Simulates.pure ⟨_, ?_, by rw [if_neg thunk]⟩
    by_cases here : operator = .heredoc
    · subst here
      have first : firstis (mkredircmd (lit "%heredoc") fd) (lit "%heredoc") = true :=
        beq_self_eq_true _
      rw [if_pos rfl, Operator.command, if_pos (Or.inl first)]
      cases form with
      | null => exact ⟨_, by rw [show file = null from fits]⟩
      | literal eof => exact ⟨_, by rw [fits.1], fits.2⟩
      | value => exact ⟨_, file, rfl, fits⟩
      | thunk => exact absurd rfl thunk
      | loneThunk | list | node => exact isWord.elim
    · rw [if_neg here]
      refine ⟨operator.command, [nWord (decimal fd), _], rfl, ?_⟩
      cases operator <;> first | decide | exact absurd rfl here

/-! ### Words of a simple command -/

/-- One more word in a list of words; an empty list leaves none. -/
theorem extend_fits {items element : Form} {l : List Tree} {t : Tree} (cmd : items.IsCmd)
    (fits : items.Fits (ofList l)) (word : element.IsWord) (fits' : element.Fits t) :
    (items.extend element).IsCmd ∧
      (items.extend element).Fits (ofList (if t = null then l else l ++ [t])) := by
  by_cases empty : element = .null
  · subst empty
    rw [if_pos (show t = null from fits')]
    have same : items.extend .null = items := by cases items <;> rfl
    rw [same]
    exact ⟨cmd, fits⟩
  have nonnull : t ≠ null := by
    rintro rfl
    cases element <;> first | exact empty rfl | exact word.elim | exact fits'.elim | skip
    · obtain ⟨rfl, _, same | same⟩ := fits' <;> cases same
    · obtain ⟨_, same⟩ := fits'
      cases same
  rw [if_neg nonnull]
  have several : items ≠ .null → ∃ head rest, l = head :: rest ∧ head ≠ null := by
    intro nonempty
    obtain ⟨-, m, same, first⟩ | ⟨-, node⟩ := fits.cases cmd
    · rw [ofList_injective same] at fits ⊢
      cases m with
      | nil => exact absurd rfl (fits.ne_null cmd nonempty)
      | cons head rest => exact ⟨head, rest, rfl, fun same => first (congrArg some same)⟩
    · cases l <;> exact node.elim
  by_cases nonempty : items = .null
  · subst nonempty
    rw [ofList_injective (show ofList l = ofList [] from fits)]
    cases element with
    | null => exact absurd rfl empty
    | thunk =>
      obtain ⟨body, rfl⟩ := fits'
      exact ⟨trivial, body, rfl⟩
    | literal eof =>
      refine ⟨trivial, t, [], rfl, nonnull, fun body same => ?_⟩
      rw [(List.cons.inj same).1] at fits'
      obtain ⟨rfl, _, same | same⟩ := fits' <;> cases same
    | value =>
      refine ⟨trivial, t, [], rfl, nonnull, fun body same => ?_⟩
      rw [(List.cons.inj same).1] at fits'
      exact fits'
    | loneThunk | list | node => exact word.elim
  · obtain ⟨head, rest, rfl, first⟩ := several nonempty
    have same : items.extend element = .list := by
      cases items <;> cases element <;>
        first | rfl | exact absurd rfl empty | exact absurd rfl nonempty
    rw [same]
    refine ⟨trivial, head, rest ++ [t], rfl, first, fun body same => ?_⟩
    have length := congrArg List.length same
    simp at length

/-! ### The simulation -/

section Main

variable (spelling : Text → Text)

theorem check_list {value : Option Tree} (l : List Tree) (built : value = some (ofList l)) :
    Simulates spelling (fun t => ∃ l, t = ofList l) (Parse.check value) [] :=
  Simulates.check ⟨_, built, l, rfl⟩

/-- The end of a line depends on the here documents alone. -/
theorem endLine_alike (endfile : Bool) {parser other : Parser}
    (same : parser.documents = other.documents) :
    Alike (fun _ => True) (endLine spelling endfile parser) (endLine spelling endfile other) := by
  unfold endLine
  rw [Parse.bind_apply, Parse.bind_apply]
  unfold readheredocs
  rw [same]
  dsimp only
  split
  · split
    · exact .returns trivial same
    · exact .yyabort
  · split
    · exact .returns trivial rfl
    · exact .yyabort
    · exact .assertion

theorem newline_simulates :
    Simulates spelling (fun _ => True) (endLine spelling false) [.newline] :=
  Simulates.event fun _ _ => endLine_alike spelling false

theorem endfile_simulates :
    Simulates spelling (fun _ => True) (endLine spelling true) [.endfile] :=
  Simulates.event fun _ _ => endLine_alike spelling true

theorem prefixThunk_simulates (op : Text) {form : Form} {t : Tree} (cmd : form.IsCmd)
    (fits : form.Fits t) :
    Simulates spelling (fun t => Form.list.IsCmd ∧ Form.list.Fits t) (prefixThunk op t) [] := by
  obtain ⟨u, thunk, -⟩ := thunkify_of_fits cmd fits
  rw [prefixThunk, thunk]
  exact Simulates.pure ⟨trivial, Form.list_fits_word op [u]⟩

theorem joined_simulates {value : Option Tree}
    (joined : ∃ t, value = some t ∧ Form.list.Fits t) :
    Simulates spelling (fun t => Form.list.IsCmd ∧ Form.list.Fits t) (Parse.check value) [] := by
  obtain ⟨t, same, list⟩ := joined
  exact Simulates.check ⟨t, same, trivial, list⟩

/-- The redirections of a simple command are rewritten. -/
theorem cmdSimple_simulates (simple : Derivation .simple) {t : Tree} (builds : Builds simple t) :
    Simulates spelling (Builds (.cmdSimple simple)) (redirected t)
      (Marking.simpleEvents simple.markings) := by
  obtain ⟨redirs, l, rfl, cmd, fits, marks, bare⟩ := builds
  have formed : (Derivation.cmdSimple simple).form =
      if simple.isRedirected then .list else simple.form := rfl
  change Simulates spelling (fun t => (Derivation.cmdSimple simple).form.IsCmd ∧
    (Derivation.cmdSimple simple).form.Fits t) _ _
  rw [formed]
  generalize simple.markings = markings at marks bare
  cases marks with
  | nil =>
    rw [bare.mpr rfl]
    have same : redirected (chained [] (ofList l)) = pure (ofList l) := by
      rw [redirected, redirect, redirections_chained, redirections_of_fits cmd fits]
      rfl
    rw [same]
    exact Simulates.pure ⟨cmd, fits⟩
  | cons mark marks =>
    have isRedirected : simple.isRedirected = true := by
      by_contra other
      cases bare.mp (Bool.not_eq_true _ ▸ other)
    rw [isRedirected]
    exact (redirected_simulates cmd fits mark marks).mono fun _ list => ⟨trivial, list⟩

/-- A redirection in front of a command; one to or from a thunk fails in front of a node. -/
theorem cmdRedir_simulates (redir : Derivation .redir) (cmd : Derivation .cmd) {r t : Tree}
    (builds : Builds redir r) (builds' : Builds cmd t) :
    Simulates spelling (Builds (.cmdRedir redir cmd)) (redirected (nRedir r t))
      (if redir.form = .thunk ∧ cmd.form = .node then [.braced] else redir.marking.events) := by
  obtain ⟨r, mark, same⟩ := builds
  obtain ⟨isCmd, fits⟩ := builds'
  have alone : ∀ {form : Form} {t : Tree}, form.IsCmd → form.Fits t →
      Simulates spelling (fun t => Form.list.IsCmd ∧ Form.list.Fits t) (redirected (nRedir r t))
        redir.marking.events := by
    intro form t cmd fits
    have chain := @redirected_simulates spelling _ _ _ cmd fits _ _ _ mark .nil
    rw [Marking.simpleEvents, Marking.innerEvents, List.append_nil] at chain
    exact chain.mono fun _ list => ⟨trivial, list⟩
  by_cases thunk : redir.form = .thunk
  · rw [if_pos thunk] at same
    obtain ⟨var, rfl⟩ := same
    obtain ⟨listed, l, rfl, nonnull⟩ | ⟨noded, node⟩ := fits.cases isCmd
    · rw [if_neg fun both => listed both.2]
      have longer : (cmd.form.extend .value).IsCmd ∧
          (cmd.form.extend .value).Fits (ofList (l ++ [nVar var])) :=
        extend_fits isCmd fits (show Form.value.IsWord from trivial)
          (show Form.value.Fits (nVar var) from trivial)
      rw [redirected_word (treeappend_ofList l [nVar var]) (redirections_of_fits isCmd fits)
        (redirections_of_fits longer.1 longer.2)]
      exact alone longer.1 longer.2
    · rw [if_pos ⟨thunk, noded⟩]
      exact simulates_assertion _ (.inl rfl) _ (redirected_node node)
  · rw [if_neg thunk] at same
    rw [same, if_neg fun both => thunk both.1]
    exact alone isCmd fits

theorem simpleRedir_builds (simple : Derivation .simple) (redir : Derivation .redir) {t r : Tree}
    (builds : Builds simple t) (builds' : Builds redir r) :
    ∃ u, redirappend t r = some u ∧ Builds (.simpleRedir simple redir) u := by
  obtain ⟨redirs, l, rfl, cmd, fits, marks, bare⟩ := builds
  obtain ⟨r, mark, same⟩ := builds'
  have more : List.Forall₂ Marking.Marks (simple.markings ++ [redir.marking]) (redirs ++ [r]) :=
    List.rel_append marks (.cons mark .nil)
  have builds : ∀ {form : Form} {l : List Tree}, form.IsCmd → form.Fits (ofList l) →
      (Derivation.simpleRedir simple redir).form = form →
      Builds (.simpleRedir simple redir) (chained (redirs ++ [r]) (ofList l)) := by
    rintro _ l cmd fits rfl
    exact ⟨_, l, rfl, cmd, fits, more, nofun, fun empty => absurd empty (by
      simp [Derivation.markings])⟩
  have formed : (Derivation.simpleRedir simple redir).form =
      if redir.form = .thunk then .list else simple.form := rfl
  obtain ⟨s, args, rfl⟩ := mark.command
  by_cases thunk : redir.form = .thunk
  · rw [if_pos thunk] at same formed
    obtain ⟨var, rfl⟩ := same
    refine ⟨chained (redirs ++ [nList (nWord s) args]) (ofList (l ++ [nVar var])), ?_, ?_⟩
    · rw [redirappend, unwrap, treeappend_chained]
      exact insertRedir_chained _ _ _
    · have longer := extend_fits cmd fits (show Form.value.IsWord from trivial)
        (show Form.value.Fits (nVar var) from trivial)
      have listed : simple.form.extend .value = .list := by cases simple.form <;> rfl
      rw [listed] at longer
      exact builds longer.1 longer.2 formed
  · rw [if_neg thunk] at same formed
    rw [same]
    exact ⟨_, insertRedir_chained _ _ _, builds cmd fits formed⟩

/-- The semantic actions of a derivation do what its events say, and build a tree of the kind its
symbol has. -/
theorem action_simulates {symbol : Nonterminal} (derivation : Derivation symbol) :
    Simulates spelling (Builds derivation) (action spelling derivation) derivation.events := by
  induction derivation with
  | esNl line ih =>
    exact ih.bind fun line builds =>
      (newline_simulates spelling).andThen fun _ _ => Simulates.pure builds
  | esEndfile line ih =>
    exact ih.bind fun line builds =>
      (endfile_simulates spelling).andThen fun _ _ => Simulates.pure builds
  | lineCmd cmd ih => exact ih
  | lineCmdsa cmdsa line ih ih' =>
    exact ih.bind fun _ builds => ih'.andThen fun _ builds' =>
      have ⟨cmd, joined, same, fits⟩ := mkseq_sequence builds.1 builds.2 builds'.1 builds'.2
      Simulates.check ⟨joined, same, cmd, fits⟩
  | bodyCmd cmd ih => exact ih
  | bodyCmdsan cmdsan body ih ih' =>
    exact ih.bind fun _ builds => ih'.andThen fun _ builds' =>
      have ⟨cmd, joined, same, fits⟩ := mkseq_sequence builds.1 builds.2 builds'.1 builds'.2
      Simulates.check ⟨joined, same, cmd, fits⟩
  | cmdsaSemicolon cmd ih => exact ih
  | cmdsaBackground cmd ih =>
    exact ih.andThen fun _ builds => prefixThunk_simulates spelling _ builds.1 builds.2
  | cmdsanCmdsa cmdsa ih => exact ih
  | cmdsanNl cmd ih =>
    exact ih.bind fun line builds =>
      (newline_simulates spelling).andThen fun _ _ => Simulates.pure builds
  | cmdEmpty => exact Simulates.pure ⟨trivial, rfl⟩
  | cmdSimple simple ih => exact ih.bind fun _ builds => cmdSimple_simulates spelling simple builds
  | cmdRedir redir cmd ih ih' =>
    refine (ih.bind fun _ builds => ?_).reassociate
    exact ih'.bind fun _ builds' => cmdRedir_simulates spelling redir cmd builds builds'
  | cmdAssign first assign ih ih' =>
    exact ih.bind fun _ _ => ih'.andThen fun _ _ => Simulates.pure ⟨trivial, trivial⟩
  | cmdFn fn ih => exact ih.mono fun _ builds => ⟨trivial, builds⟩
  | cmdBinder binder _ bindings _ cmd ih ih' =>
    refine ih.bind fun _ _ => ih'.andThen fun _ _ => ?_
    cases binder <;> exact Simulates.pure ⟨trivial, trivial⟩
  | cmdAndand left _ right ih ih' =>
    exact ih.bind fun _ builds => ih'.andThen fun _ builds' => joined_simulates spelling
      (mkseq_of_fits (lit "%and") builds.1 builds.2 builds'.1 builds'.2 (.inl (by decide)))
  | cmdOror left _ right ih ih' =>
    exact ih.bind fun _ builds => ih'.andThen fun _ builds' => joined_simulates spelling
      (mkseq_of_fits (lit "%or") builds.1 builds.2 builds'.1 builds'.2 (.inl (by decide)))
  | cmdPipe left outfd infd _ right ih ih' =>
    exact ih.bind fun _ builds => ih'.andThen fun _ builds' => joined_simulates spelling
      (mkpipe_of_fits outfd infd builds.1 builds.2 builds'.1 builds'.2)
  | cmdNot _ cmd ih =>
    exact ih.andThen fun _ builds => prefixThunk_simulates spelling _ builds.1 builds.2
  | cmdMatch word words ih ih' | cmdExtract word words ih ih' | cmdRelop _ word words ih ih' =>
    exact ih.bind fun _ _ => ih'.andThen fun _ _ => Simulates.pure ⟨trivial, trivial⟩
  | simpleFirst first ih =>
    refine ih.andThen fun t builds => Simulates.check ?_
    obtain ⟨cmd, fits⟩ := extend_fits (l := []) (show Form.null.IsCmd from trivial) rfl
      builds.1 builds.2
    exact ⟨_, treecons2_null t, [], _, rfl, cmd, fits, .nil, iff_of_true rfl rfl⟩
  | simpleWord simple word ih ih' =>
    refine ih.bind fun _ builds => ih'.andThen fun t builds' => Simulates.check ?_
    obtain ⟨redirs, l, rfl, cmd, fits, marks, bare⟩ := builds
    obtain ⟨cmd', fits'⟩ := extend_fits cmd fits builds'.1 builds'.2
    exact ⟨_, treeconsend2_chained redirs l t, redirs, _, rfl, cmd', fits', marks, bare⟩
  | simpleRedir simple redir ih ih' =>
    exact ih.bind fun _ builds => ih'.andThen fun _ builds' =>
      Simulates.check (simpleRedir_builds simple redir builds builds')
  | redirDup dup => exact Simulates.pure ⟨_, marks_dup dup, rfl⟩
  | redirWord operator fd word ih =>
    exact ih.andThen fun _ builds => mkredir_simulates operator fd word builds
  | bindingsBinding binding ih =>
    refine ih.andThen fun t _ => check_list spelling _ (treecons2_null t)
  | bindingsSemicolon bindings binding ih ih' | bindingsNl bindings binding ih ih' =>
    refine ih.bind fun _ builds => ih'.andThen fun t _ => ?_
    obtain ⟨l, rfl⟩ := builds
    exact check_list spelling _ (treeconsend2_ofList l t)
  | bindingEmpty => exact Simulates.pure trivial
  | bindingFn fn ih => exact ih.mono fun _ _ => trivial
  | bindingAssign word assign ih ih' =>
    exact ih.bind fun _ _ => ih'.andThen fun _ _ => Simulates.pure trivial
  | assignWords _ _ words ih => exact ih.mono fun _ _ => trivial
  | fnBody word params body ih ih' ih'' =>
    refine (ih.bind fun _ _ => ?_).reassociate
    exact ih'.bind fun _ _ => ih''.andThen fun _ _ => Simulates.pure trivial
  | fnWord word ih => exact ih.andThen fun _ _ => Simulates.pure trivial
  | firstComword comword ih => exact ih
  | swordComword comword ih => exact ih
  | wordSword sword ih => exact ih
  | comwordParam param ih => exact ih
  | firstCaret first _ sword ih ih' | wordCaret first _ sword ih ih' =>
    exact ih.bind fun _ _ => ih'.andThen fun _ _ => Simulates.pure ⟨trivial, trivial⟩
  | swordKeyword keyword => exact Simulates.pure ⟨trivial, rfl, keyword.word, .inl rfl⟩
  | comwordNlwords nlwords ih => exact ih.mono fun _ builds => builds.1
  | comwordBody body ih =>
    refine ih.andThen fun _ builds => Simulates.check ?_
    obtain ⟨u, thunk, fits⟩ := thunkify_of_fits builds.1 builds.2
    refine ⟨u, thunk, ?_, fits⟩
    change (if body.form = .loneThunk then Form.value else .thunk).IsWord
    split <;> trivial
  | comwordLambda params body ih ih' | comwordVarsub params body ih ih'
  | comwordBackback params body ih ih' =>
    exact ih.bind fun _ _ => ih'.andThen fun _ _ => Simulates.pure ⟨trivial, trivial⟩
  | comwordVar sword ih | comwordCall sword ih | comwordCount sword ih | comwordFlat sword ih
  | comwordBackquote sword ih =>
    exact ih.andThen fun _ _ => Simulates.pure ⟨trivial, trivial⟩
  | comwordPrim str => exact Simulates.pure ⟨trivial, trivial⟩
  | paramWord str plain => exact Simulates.pure ⟨trivial, rfl, str, .inl rfl⟩
  | paramQword str => exact Simulates.pure ⟨trivial, rfl, str, .inr rfl⟩
  | paramsNil | wordsNil => exact Simulates.pure ⟨[], rfl⟩
  | paramsParam items item ih ih' | wordsWord items item ih ih' =>
    refine ih.bind fun _ builds => ih'.andThen fun t _ => ?_
    obtain ⟨l, rfl⟩ := builds
    exact check_list spelling _ (treeconsend_ofList l t)
  | nlwordsNil => exact Simulates.pure ⟨⟨trivial, rfl⟩, [], rfl⟩
  | nlwordsWord nlwords word ih ih' =>
    refine ih.bind fun _ builds => ih'.andThen fun t _ => ?_
    obtain ⟨-, l, rfl⟩ := builds
    refine Simulates.check ⟨_, treeconsend_ofList l t, ⟨trivial, ?_⟩, _, rfl⟩
    cases l <;> exact trivial
  | nlwordsNl nlwords ih => exact ih

end Main

/-! ### Plain markers -/

/-- A marker the analyzer can give: an unquoted one has no dollar sign. -/
def PlainMarker : Tree → Prop
  | nWord s => '$'.toUInt8 ∉ s
  | nQword _ => True
  | _ => False

def Form.Plain : Form → Prop
  | literal eof => PlainMarker eof
  | _ => True

def Marking.Plain : Marking → Prop
  | literal eof => PlainMarker eof
  | _ => True

/-- Only a plain marker is queued. -/
def Event.Plain : Event → Prop
  | queued eof => PlainMarker eof
  | _ => True

theorem Marking.events_plain {marking : Marking} (plain : marking.Plain) :
    ∀ event ∈ marking.events, event.Plain := by
  cases marking with
  | plain => exact nofun
  | literal eof => exact List.forall_mem_singleton.mpr plain
  | missing | refused => exact List.forall_mem_singleton.mpr trivial

theorem Marking.innerEvents_plain {markings : List Marking}
    (plain : ∀ marking ∈ markings, marking.Plain) :
    ∀ event ∈ Marking.innerEvents markings, event.Plain := by
  induction markings with
  | nil => exact nofun
  | cons marking markings ih =>
    obtain ⟨first, others⟩ := List.forall_mem_cons.mp plain
    cases marking with
    | plain => exact ih others
    | literal eof => exact List.forall_mem_cons.mpr ⟨first, ih others⟩
    | missing => exact List.forall_mem_singleton.mpr trivial
    | refused => exact nofun

theorem Marking.simpleEvents_plain {markings : List Marking}
    (plain : ∀ marking ∈ markings, marking.Plain) :
    ∀ event ∈ Marking.simpleEvents markings, event.Plain := by
  cases markings with
  | nil => exact nofun
  | cons marking markings =>
    obtain ⟨first, others⟩ := List.forall_mem_cons.mp plain
    exact List.forall_mem_append.mpr ⟨events_plain first, innerEvents_plain others⟩

namespace Derivation

theorem form_plain {symbol : Nonterminal} (derivation : Derivation symbol) :
    derivation.form.Plain := by
  have extend : ∀ {items element : Form}, items.Plain → (items.extend element).Plain := by
    intro items element plain
    cases items <;> cases element <;> trivial
  have sequence : ∀ {first second : Form}, first.Plain → second.Plain →
      (first.sequence second).Plain := by
    intro first second plain plain'
    cases first <;> cases second <;> trivial
  have either : ∀ {condition : Prop} [Decidable condition] {left right : Form}, left.Plain →
      right.Plain → (if condition then left else right).Plain := by
    intro condition _ left right plain plain'
    split
    · exact plain
    · exact plain'
  induction derivation with
  | lineCmdsa _ _ ih ih' | bodyCmdsan _ _ ih ih' => exact sequence ih ih'
  | cmdSimple _ ih => exact either trivial ih
  | simpleFirst _ _ => exact extend (show Form.null.Plain from trivial)
  | simpleWord _ _ ih _ => exact extend ih
  | simpleRedir _ _ ih _ => exact either trivial ih
  | comwordBody _ _ => exact either trivial trivial
  | swordKeyword keyword =>
    change '$'.toUInt8 ∉ keyword.word
    cases keyword <;> decide
  | paramWord _ plain => exact plain
  | _ => trivial

theorem marking_plain {symbol : Nonterminal} (derivation : Derivation symbol) :
    derivation.marking.Plain := by
  cases derivation with
  | redirWord operator fd word =>
    rw [marking_redirWord]
    have plain := word.form_plain
    split
    · generalize word.form = form at plain
      cases form <;> trivial
    · trivial
  | _ => trivial

theorem markings_plain {symbol : Nonterminal} (derivation : Derivation symbol) :
    ∀ marking ∈ derivation.markings, marking.Plain := by
  induction derivation with
  | simpleWord _ _ ih _ => exact ih
  | simpleRedir _ redir ih _ =>
    intro marking member
    rcases List.mem_append.mp member with member | member
    · exact ih marking member
    · rw [List.mem_singleton.mp member]
      exact redir.marking_plain
  | _ => exact nofun

/-- What holds of every event an account gives, of a newline and of the end of the file holds of
every event of a derivation. -/
theorem forall_collect (account : Account) {holds : Event → Prop} (newline : holds .newline)
    (atWord : ∀ operator (form : Form), form.Plain → ∀ event ∈ account.atWord operator form,
      holds event)
    (atSimple : ∀ markings : List Marking, (∀ marking ∈ markings, marking.Plain) →
      ∀ event ∈ account.atSimple markings, holds event)
    (atRedir : ∀ redir cmd (marking : Marking), marking.Plain →
      ∀ event ∈ account.atRedir redir cmd marking, holds event)
    {symbol : Nonterminal} (derivation : Derivation symbol)
    (endfile : symbol = .es → holds .endfile) :
    ∀ event ∈ collect account derivation, holds event := by
  induction derivation with
  | esNl _ ih =>
    exact List.forall_mem_append.mpr ⟨ih nofun, List.forall_mem_singleton.mpr newline⟩
  | esEndfile _ ih =>
    exact List.forall_mem_append.mpr ⟨ih nofun, List.forall_mem_singleton.mpr (endfile rfl)⟩
  | cmdsanNl _ ih =>
    exact List.forall_mem_append.mpr ⟨ih nofun, List.forall_mem_singleton.mpr newline⟩
  | cmdSimple simple ih =>
    exact List.forall_mem_append.mpr ⟨ih nofun, atSimple _ simple.markings_plain⟩
  | cmdRedir redir cmd ih ih' =>
    exact List.forall_mem_append.mpr ⟨List.forall_mem_append.mpr ⟨ih nofun, ih' nofun⟩,
      atRedir _ _ _ redir.marking_plain⟩
  | redirWord operator _ word ih =>
    exact List.forall_mem_append.mpr ⟨atWord operator _ word.form_plain, ih nofun⟩
  | fnBody _ _ _ ih ih' ih'' =>
    exact List.forall_mem_append.mpr ⟨List.forall_mem_append.mpr ⟨ih nofun, ih' nofun⟩, ih'' nofun⟩
  | lineCmd _ ih | bodyCmd _ ih | cmdsaSemicolon _ ih | cmdsaBackground _ ih | cmdsanCmdsa _ ih
  | cmdFn _ ih | cmdNot _ _ ih | simpleFirst _ ih | bindingsBinding _ ih | bindingFn _ ih
  | assignWords _ _ _ ih | fnWord _ ih | firstComword _ ih | swordComword _ ih | wordSword _ ih
  | comwordParam _ ih | comwordNlwords _ ih | comwordBody _ ih | comwordVar _ ih
  | comwordCall _ ih | comwordCount _ ih | comwordFlat _ ih | comwordBackquote _ ih
  | nlwordsNl _ ih =>
    exact ih nofun
  | lineCmdsa _ _ ih ih' | bodyCmdsan _ _ ih ih' | cmdAssign _ _ ih ih'
  | cmdBinder _ _ _ _ _ ih ih' | cmdAndand _ _ _ ih ih' | cmdOror _ _ _ ih ih'
  | cmdPipe _ _ _ _ _ ih ih' | cmdMatch _ _ ih ih' | cmdExtract _ _ ih ih'
  | cmdRelop _ _ _ ih ih' | simpleWord _ _ ih ih' | simpleRedir _ _ ih ih'
  | bindingsSemicolon _ _ ih ih' | bindingsNl _ _ ih ih' | bindingAssign _ _ ih ih'
  | firstCaret _ _ _ ih ih' | wordCaret _ _ _ ih ih' | comwordLambda _ _ ih ih'
  | comwordVarsub _ _ ih ih' | comwordBackback _ _ ih ih' | paramsParam _ _ ih ih'
  | wordsWord _ _ ih ih' | nlwordsWord _ _ ih ih' =>
    exact List.forall_mem_append.mpr ⟨ih nofun, ih' nofun⟩
  | cmdEmpty | redirDup | bindingEmpty | swordKeyword | comwordPrim | paramWord | paramQword
  | paramsNil | wordsNil | nlwordsNil =>
    exact List.forall_mem_nil _

/-- A derivation queues only markers the analyzer can give. -/
theorem events_plain {symbol : Nonterminal} (derivation : Derivation symbol) :
    ∀ event ∈ derivation.events, event.Plain := by
  refine forall_collect reduced trivial (fun _ _ _ => nofun)
    (fun _ plain => Marking.simpleEvents_plain plain) (fun redir cmd marking plain => ?_)
    derivation fun _ => trivial
  change ∀ event ∈ (if redir = .thunk ∧ cmd = .node then [Event.braced] else marking.events),
    event.Plain
  split
  · exact List.forall_mem_singleton.mpr trivial
  · exact Marking.events_plain plain

end Derivation

/-! ### Reading never fails an assertion -/

theorem getherevar_ne_assertion (input : Text) : getherevar input ≠ .error .assertion := by
  unfold getherevar
  dsimp only
  split <;> nofun

theorem snarf_ne_assertion (eof : Text) (quoted start : Bool) (tree : List Tree)
    (buf input : Text) : snarf eof quoted start tree buf input ≠ .error .assertion := by
  fun_induction snarf eof quoted start tree buf input with
  | case7 _ _ _ _ _ rest _ _ _ error failed =>
    rintro ⟨⟩
    exact getherevar_ne_assertion rest failed
  | _ => first | assumption | nofun

theorem snarfheredoc_ne_assertion {eof : Text} {quoted : Bool}
    (plain : quoted = true ∨ '$'.toUInt8 ∉ eof) (input : Text) :
    snarfheredoc eof quoted input ≠ .error .assertion := by
  have typed : ¬(quoted = false ∧ '$'.toUInt8 ∈ eof) := by
    rintro ⟨rfl, dollar⟩
    exact plain.resolve_left Bool.false_ne_true dollar
  unfold snarfheredoc
  rw [if_neg typed]
  split
  · simp
  · exact snarf_ne_assertion eof quoted true [] [] input

theorem readDocuments_ne_assertion {hereq : List Tree} (plain : ∀ eof ∈ hereq, PlainMarker eof)
    (input : Text) : readDocuments id hereq input ≠ .error .assertion := by
  induction hereq generalizing input with
  | nil => simp [readDocuments]
  | cons eof hereq ih =>
    obtain ⟨first, others⟩ := List.forall_mem_cons.mp plain
    have rest : ∀ read : Except HereError (Tree × Text), read ≠ .error .assertion →
        (read >>= fun read => readDocuments id hereq read.2 >>= fun others =>
          .ok ((eof, read.1) :: others.1, others.2)) ≠ .error .assertion := by
      rintro (error | ⟨contents, input⟩) accepted
      · exact fun same => accepted (congrArg Except.error (Except.error.inj same))
      · change (readDocuments id hereq input >>= _) ≠ _
        cases read : readDocuments id hereq input with
        | error error =>
          exact fun same => ih others input (read.trans (congrArg _ (Except.error.inj same)))
        | ok _ => rintro ⟨⟩
    cases eof with
    | nWord s => exact rest _ (snarfheredoc_ne_assertion (.inr first) input)
    | nQword s => exact rest _ (snarfheredoc_ne_assertion (.inl rfl) input)
    | _ => exact first.elim

/-- The end of a line fails no assertion when only plain markers are queued, and leaves only plain
markers. -/
theorem endLine_plain (endfile : Bool) {parser : Parser}
    (plain : ∀ eof ∈ parser.documents.hereq, PlainMarker eof) :
    endLine id endfile parser ≠ .assertion ∧ ∀ after, endLine id endfile parser =
      .returns () after → ∀ eof ∈ after.documents.hereq, PlainMarker eof := by
  have read := readDocuments_ne_assertion plain (parser.documents.texts.headD [])
  unfold endLine
  rw [Parse.bind_apply]
  unfold readheredocs
  dsimp only
  split
  · split
    · refine ⟨nofun, ?_⟩
      rintro _ ⟨⟩
      exact plain
    · exact ⟨nofun, nofun⟩
  · split
    · refine ⟨nofun, ?_⟩
      rintro _ ⟨⟩
      exact nofun
    · exact ⟨nofun, nofun⟩
    · rename_i failed
      exact absurd failed read

/-! ### When the parser fails an assertion -/

/-- The events at which an assertion fails: a redirection to or from a thunk is put in front of a
command that is no list, or the marker of a here document is missing. -/
def Event.Fatal : Event → Prop
  | braced | missing => True
  | refused | queued _ | newline | endfile => False

/-- Some event is fatal, and those before it do not make the parser give up. -/
def ComesToFatal (events : List Event) (parser : Parser) : Prop :=
  ∃ before event after, events = before ++ event :: after ∧ event.Fatal ∧
    ∃ reached, performs id before parser = .returns () reached

theorem comesToFatal_cons {event : Event} {events : List Event} {parser : Parser} :
    ComesToFatal (event :: events) parser ↔ event.Fatal ∨
      ∃ reached, event.perform id parser = .returns () reached ∧ ComesToFatal events reached := by
  constructor
  · rintro ⟨_ | ⟨first, before⟩, fatal, after, same, isFatal, reached, performed⟩
    · obtain ⟨rfl, -⟩ := List.cons.inj same
      exact .inl isFatal
    · obtain ⟨rfl, rfl⟩ := List.cons.inj same
      rw [performs, Parse.bind_apply] at performed
      cases done : event.perform id parser with
      | returns _ next =>
        rw [done] at performed
        exact .inr ⟨next, rfl, before, fatal, after, rfl, isFatal, reached, performed⟩
      | yyabort _ | assertion =>
        rw [done] at performed
        cases performed
  · rintro (fatal | ⟨reached, done, before, fatal, after, rfl, isFatal, last, performed⟩)
    · exact ⟨[], event, events, rfl, fatal, parser, rfl⟩
    · refine ⟨event :: before, fatal, after, rfl, isFatal, last, ?_⟩
      rw [performs, Parse.bind_apply, done]
      exact performed

/-- An event that is not fatal fails no assertion, and queues only plain markers. -/
theorem Event.perform_plain {event : Event} (mild : ¬event.Fatal)
    (marker : event.Plain) {parser : Parser}
    (plain : ∀ eof ∈ parser.documents.hereq, PlainMarker eof) :
    event.perform id parser ≠ .assertion ∧ ∀ after, event.perform id parser =
      .returns () after → ∀ eof ∈ after.documents.hereq, PlainMarker eof := by
  cases event with
  | braced | missing => exact absurd trivial mild
  | refused => exact ⟨nofun, nofun⟩
  | queued eof =>
    refine ⟨nofun, ?_⟩
    rintro _ ⟨⟩
    exact List.forall_mem_cons.mpr ⟨marker, plain⟩
  | newline => exact endLine_plain false plain
  | endfile => exact endLine_plain true plain

theorem performs_eq_assertion {events : List Event} (markers : ∀ event ∈ events, event.Plain)
    {parser : Parser} (plain : ∀ eof ∈ parser.documents.hereq, PlainMarker eof) :
    performs id events parser = .assertion ↔ ComesToFatal events parser := by
  induction events generalizing parser with
  | nil =>
    refine ⟨by rintro ⟨⟩, ?_⟩
    rintro ⟨before, event, after, same, -⟩
    exact absurd same.symm (by simp)
  | cons event events ih =>
    obtain ⟨marker, others⟩ := List.forall_mem_cons.mp markers
    rw [comesToFatal_cons, performs, Parse.bind_apply]
    by_cases fatal : event.Fatal
    · refine iff_of_true ?_ (.inl fatal)
      cases event <;> first | rfl | exact fatal.elim
    · obtain ⟨safe, kept⟩ := Event.perform_plain fatal marker plain
      cases done : event.perform id parser with
      | returns _ reached =>
        refine (ih others (kept reached done)).trans ⟨fun comes => .inr ⟨reached, rfl, comes⟩, ?_⟩
        rintro (now | ⟨_, ⟨⟩, comes⟩)
        · exact absurd now fatal
        · exact comes
      | yyabort _ =>
        refine iff_of_false (by rintro ⟨⟩) ?_
        rintro (now | ⟨_, ⟨⟩, -⟩)
        exact fatal now
      | assertion => exact absurd done safe

/-- The actions of a derivation fail an assertion exactly when its reductions come to a fatal
event before the parser gives up. -/
theorem action_assertion_iff (derivation : Derivation .es) (texts : List Text) (counter : Nat) :
    action id derivation (Parser.start texts counter) ≠ .assertion ↔
      ¬ComesToFatal derivation.events (Parser.start texts counter) := by
  rw [← performs_eq_assertion derivation.events_plain (show ∀ eof ∈ [], PlainMarker eof from nofun)]
  have alike := action_simulates id derivation (Parser.start texts counter) _ rfl
  generalize action id derivation (Parser.start texts counter) = left at alike
  generalize performs id derivation.events (Parser.start texts counter) = right at alike
  cases alike with
  | returns _ _ => exact iff_of_true nofun nofun
  | yyabort => exact iff_of_true nofun nofun
  | assertion => exact iff_of_false (fun safe => safe rfl) fun safe => safe rfl

/-! ### Words without a dollar sign -/

theorem plain_a : '$'.toUInt8 ∉ lit "a" := by decide

theorem plain_b : '$'.toUInt8 ∉ lit "b" := by decide

theorem plain_c : '$'.toUInt8 ∉ lit "c" := by decide

theorem plain_x : '$'.toUInt8 ∉ lit "x" := by decide

theorem plain_cat : '$'.toUInt8 ∉ lit "cat" := by decide

theorem plain_echo : '$'.toUInt8 ∉ lit "echo" := by decide

open Derivation in
/-- The line `<{a} x = b`. -/
def assignmentFromThunk : Derivation .es :=
  esNl (lineCmd (cmdRedir
    (redirWord .open 0 (wordSword (swordComword (comwordBody (bodyCmd (cmdSimple (simpleFirst
      (firstComword (comwordParam (paramWord (lit "a") (by decide)))))))))))
    (cmdAssign (firstComword (comwordParam (paramWord (lit "x") (by decide))))
      (assignWords false false (wordsWord wordsNil
        (wordSword (swordComword (comwordParam (paramWord (lit "b") (by decide))))))))))

theorem action_assertion_assignment :
    assignmentFromThunk.items =
        (yylexes 8 (inityy (lit "<{a} x = b\n"))).1.map Item.shift ++ [Item.reads] ∧
      action id assignmentFromThunk (Parser.start [[]] 0) = .assertion := by
  decide +kernel

end Desh
