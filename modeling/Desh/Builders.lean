/-
This file gathers what the tree builders return on the trees the grammar gives
them: list trees, and chains of redirections in front of one. Each builder has
one lemma, and the form of what it builds is read off it.
-/

import Desh.Reductions

namespace Desh

open Desh.Tree

/-! ### Lists -/

theorem ofList_injective {l m : List Tree} (same : ofList l = ofList m) : l = m := by
  induction l generalizing m with
  | nil =>
    cases m with
    | nil => rfl
    | cons _ _ => cases same
  | cons t l ih =>
    cases m with
    | nil => cases same
    | cons u m =>
      obtain ⟨rfl, rest⟩ := Tree.nList.inj same
      rw [ih rest]

theorem treecons_ofList (t : Tree) (l : List Tree) :
    treecons t (ofList l) = some (ofList (t :: l)) := by
  cases l <;> rfl

theorem treeappend_ofList (l m : List Tree) :
    treeappend (ofList l) (ofList m) = some (ofList (l ++ m)) := by
  induction l with
  | nil => rfl
  | cons t l ih => rw [ofList_cons, treeappend, ih, Option.map_some, List.cons_append, ofList_cons]

theorem treeconsend_ofList (l : List Tree) (t : Tree) :
    treeconsend (ofList l) t = some (ofList (l ++ [t])) :=
  treeappend_ofList l [t]

theorem treecons2_null (t : Tree) :
    treecons2 t null = some (ofList (if t = null then [] else [t])) := by
  unfold treecons2
  dsimp only
  split <;> rfl

theorem treeconsend2_ofList (l : List Tree) (t : Tree) :
    treeconsend2 (ofList l) t = some (ofList (if t = null then l else l ++ [t])) := by
  unfold treeconsend2
  split
  · cases l <;> rfl
  · exact treeconsend_ofList l t

theorem firstis_eq {t : Tree} {s : Text} (first : firstis t s = true) :
    ∃ rest, t = nList (nWord s) rest := by
  unfold firstis at first
  split at first
  · rename_i word rest
    exact ⟨rest, by rw [eq_of_beq first]⟩
  · cases first

/-! ### Trees of commands -/

/-- The tree of a command is a list whose first element is a tree, or a node. -/
theorem Form.Fits.cases {form : Form} {t : Tree} (cmd : form.IsCmd) (fits : form.Fits t) :
    (form ≠ .node ∧ ∃ l, t = ofList l ∧ l.head? ≠ some Tree.null) ∨
      (form = .node ∧ Form.node.Fits t) := by
  cases form with
  | null => exact .inl ⟨nofun, [], fits, nofun⟩
  | loneThunk =>
    obtain ⟨body, rfl⟩ := fits
    exact .inl ⟨nofun, [nThunk body], rfl, nofun⟩
  | list =>
    obtain ⟨head, rest, rfl, nonnull, -⟩ := fits
    exact .inl ⟨nofun, head :: rest, rfl, fun same => nonnull (Option.some.inj same)⟩
  | node => exact .inr ⟨rfl, fits⟩
  | literal _ | thunk | value => exact cmd.elim

/-- The tree of a command is null only by its form. -/
theorem Form.Fits.ne_null {form : Form} {t : Tree} (cmd : form.IsCmd) (fits : form.Fits t)
    (nonnull : form ≠ .null) : t ≠ Tree.null := by
  rintro rfl
  cases form with
  | null => exact nonnull rfl
  | loneThunk =>
    obtain ⟨_, same⟩ := fits
    cases same
  | list =>
    obtain ⟨_, _, same, -⟩ := fits
    cases same
  | node => exact fits.elim
  | literal _ | thunk | value => exact cmd.elim

/-- A list that starts with a word is a list of commands. -/
theorem Form.list_fits_word (s : Text) (l : List Tree) :
    Form.list.Fits (ofList (nWord s :: l)) :=
  ⟨nWord s, l, rfl, nofun, fun _ same => by cases same⟩

theorem thunkify_of_fits {form : Form} {t : Tree} (cmd : form.IsCmd) (fits : form.Fits t) :
    ∃ u, thunkify t = some u ∧
      (if form = .loneThunk then Form.value else Form.thunk).Fits u := by
  cases form with
  | null => exact ⟨nThunk null, by rw [fits]; rfl, ⟨_, rfl⟩⟩
  | loneThunk =>
    obtain ⟨body, rfl⟩ := fits
    exact ⟨_, rfl, trivial⟩
  | list =>
    obtain ⟨head, rest, rfl, nonnull, several⟩ := fits
    refine ⟨nThunk (ofList (head :: rest)), ?_, ⟨_, rfl⟩⟩
    unfold thunkify
    split
    · rename_i same
      cases same
    · rename_i same
      exact absurd (Tree.nList.inj same).1 nonnull
    · rename_i body same
      obtain ⟨rfl, last⟩ := Tree.nList.inj same
      cases rest with
      | nil => exact absurd rfl (several body)
      | cons _ _ => cases last
    · rfl
  | node =>
    refine ⟨nThunk t, ?_, ⟨_, rfl⟩⟩
    cases t <;> first | rfl | exact fits.elim
  | literal _ | thunk | value => exact cmd.elim

/-- The cells behind an operator. -/
theorem cdrOf_of_fits {form : Form} {t : Tree} {op : Text} (cmd : form.IsCmd)
    (fits : form.Fits t) (first : firstis t op = true) :
    ∃ l, t = ofList (nWord op :: l) ∧ cdrOf t = ofList l := by
  obtain ⟨rest, rfl⟩ := firstis_eq first
  obtain ⟨-, l, same, -⟩ | ⟨-, node⟩ := fits.cases cmd
  · cases l with
    | nil => cases same
    | cons _ l =>
      obtain ⟨rfl, rfl⟩ := Tree.nList.inj same
      exact ⟨l, rfl, rfl⟩
  · exact node.elim

/-- A command in front of others under an operator. -/
theorem joined_of_fits {form : Form} {t : Tree} (op : Text) (sametail : Bool) (tail : List Tree)
    (cmd : form.IsCmd) (fits : form.Fits t) :
    ∃ joined, (if firstis t op then treeappend t (ofList tail)
      else do
        let t ← thunkify t
        if sametail then (treecons t (ofList tail)).map (nList (nWord op))
        else (treecons t (ofList tail)).bind (prefixed op)) = some joined ∧
      Form.list.Fits joined := by
  split
  · rename_i first
    obtain ⟨l, rfl, -⟩ := cdrOf_of_fits cmd fits first
    exact ⟨_, treeappend_ofList _ _, Form.list_fits_word op (l ++ tail)⟩
  · obtain ⟨u, thunk, -⟩ := thunkify_of_fits cmd fits
    refine ⟨ofList (nWord op :: u :: tail), ?_, Form.list_fits_word op (u :: tail)⟩
    rw [thunk, Option.bind_eq_bind, Option.bind_some, treecons_ofList]
    cases sametail <;> rfl

theorem mkseq_of_fits {form form' : Form} {t u : Tree} (op : Text) (cmd : form.IsCmd)
    (fits : form.Fits t) (cmd' : form'.IsCmd) (fits' : form'.Fits u)
    (both : op ≠ lit "%seq" ∨ t ≠ null ∧ u ≠ null) :
    ∃ joined, mkseq op t u = some joined ∧ Form.list.Fits joined := by
  unfold mkseq
  rw [if_neg fun null => both.elim (absurd null.1) fun other => other.1 null.2,
    if_neg fun null => both.elim (absurd null.1) fun other => other.2 null.2]
  dsimp only
  split
  · rename_i first
    obtain ⟨l, -, tail⟩ := cdrOf_of_fits cmd' fits' first
    rw [tail, Option.bind_eq_bind, Option.bind_some]
    exact joined_of_fits op true l cmd fits
  · obtain ⟨v, thunk, -⟩ := thunkify_of_fits cmd' fits'
    rw [thunk, Option.bind_eq_bind, Option.bind_some]
    exact joined_of_fits op false [v] cmd fits

/-- Two commands in a row; a null command leaves the other as it is. -/
theorem mkseq_sequence {form form' : Form} {t u : Tree} (cmd : form.IsCmd) (fits : form.Fits t)
    (cmd' : form'.IsCmd) (fits' : form'.Fits u) :
    (form.sequence form').IsCmd ∧
      ∃ joined, mkseq (lit "%seq") t u = some joined ∧ (form.sequence form').Fits joined := by
  by_cases first : form = .null
  · subst first
    cases fits
    exact ⟨cmd', u, rfl, fits'⟩
  by_cases second : form' = .null
  · subst second
    cases fits'
    have same : form.sequence .null = form := by cases form <;> rfl
    rw [same]
    refine ⟨cmd, t, ?_, fits⟩
    unfold mkseq
    rw [if_neg fun null => fits.ne_null cmd first null.2, if_pos ⟨rfl, rfl⟩]
  have same : form.sequence form' = .list := by
    cases form <;> cases form' <;>
      first | rfl | exact absurd rfl first | exact absurd rfl second
  rw [same]
  exact ⟨trivial, mkseq_of_fits _ cmd fits cmd' fits'
    (.inr ⟨fits.ne_null cmd first, fits'.ne_null cmd' second⟩)⟩

/-- The two descriptor numbers of a pipe in front of its second command. -/
theorem prefixed_numbers (infd outfd : Int) (l : List Tree) :
    (prefixed (decimal infd) (ofList l)).bind (prefixed (decimal outfd)) =
      some (ofList (nWord (decimal outfd) :: nWord (decimal infd) :: l)) := by
  rw [prefixed, treecons_ofList]
  rfl

theorem mkpipe_of_fits {form form' : Form} {t u : Tree} (outfd infd : Int) (cmd : form.IsCmd)
    (fits : form.Fits t) (cmd' : form'.IsCmd) (fits' : form'.Fits u) :
    ∃ joined, mkpipe t outfd infd u = some joined ∧ Form.list.Fits joined := by
  unfold mkpipe
  dsimp only
  split
  · rename_i first
    obtain ⟨l, -, tail⟩ := cdrOf_of_fits cmd' fits' first
    rw [tail, Option.bind_eq_bind, Option.bind_some, prefixed_numbers, Option.bind_some]
    exact joined_of_fits (lit "%pipe") true _ cmd fits
  · obtain ⟨v, thunk, -⟩ := thunkify_of_fits cmd' fits'
    have last : treecons v null = some (ofList [v]) := rfl
    rw [thunk, Option.bind_some, last, Option.bind_eq_bind, Option.bind_some, prefixed_numbers,
      Option.bind_some]
    exact joined_of_fits (lit "%pipe") false _ cmd fits

/-! ### Redirections -/

/-- A chain of redirections in front of a tree. -/
def chained (redirs : List Tree) (t : Tree) : Tree :=
  redirs.foldr nRedir t

@[simp] theorem chained_nil (t : Tree) : chained [] t = t := rfl

@[simp] theorem chained_cons (r : Tree) (redirs : List Tree) (t : Tree) :
    chained (r :: redirs) t = nRedir r (chained redirs t) := rfl

theorem redirections_chained (redirs : List Tree) (t : Tree) :
    redirections (chained redirs t) = redirs.length + redirections t := by
  induction redirs with
  | nil => exact (Nat.zero_add _).symm
  | cons r redirs ih =>
    rw [chained_cons, redirections, ih, List.length_cons]
    omega

theorem redirections_of_fits {form : Form} {t : Tree} (cmd : form.IsCmd) (fits : form.Fits t) :
    redirections t = 0 := by
  obtain ⟨-, l, rfl, -⟩ | ⟨-, node⟩ := fits.cases cmd
  · cases l <;> rfl
  · cases t <;> first | rfl | exact node.elim

theorem treeappend_chained (redirs l m : List Tree) :
    treeappend (chained redirs (ofList l)) (ofList m) =
      some (chained redirs (ofList (l ++ m))) := by
  induction redirs with
  | nil => exact treeappend_ofList l m
  | cons r redirs ih => rw [chained_cons, treeappend, ih, Option.map_some, chained_cons]

theorem treeconsend2_chained (redirs l : List Tree) (t : Tree) :
    treeconsend2 (chained redirs (ofList l)) t =
      some (chained redirs (ofList (if t = null then l else l ++ [t]))) := by
  unfold treeconsend2
  split
  · cases redirs with
    | nil => cases l <;> rfl
    | cons _ _ => rfl
  · exact treeappend_chained redirs l [t]

theorem insertRedir_chained (r : Tree) (redirs l : List Tree) :
    insertRedir r (chained redirs (ofList l)) = some (chained (redirs ++ [r]) (ofList l)) := by
  induction redirs with
  | nil => cases l <;> rfl
  | cons before redirs ih => rw [chained_cons, insertRedir, ih]; rfl

theorem hasPlaceholder_ofList (l : List Tree) :
    hasPlaceholder (ofList (l ++ [placeholder])) = true := by
  induction l with
  | nil => rfl
  | cons t l ih =>
    rw [List.cons_append, ofList_cons]
    unfold hasPlaceholder
    split
    · rfl
    · rename_i same
      rw [← (Tree.nList.inj same).2]
      exact ih
    · rename_i other
      exact absurd rfl (other t _)

theorem fillPlaceholder_ofList (t : Tree) (l : List Tree) :
    ∃ filled, fillPlaceholder t (ofList l) = ofList filled := by
  induction l with
  | nil => exact ⟨[], rfl⟩
  | cons head l ih =>
    obtain ⟨filled, same⟩ := ih
    by_cases found : head = placeholder
    · exact ⟨t :: l, by rw [found]; rfl⟩
    · refine ⟨head :: filled, ?_⟩
      rw [ofList_cons, fillPlaceholder, same, ofList_cons]
      exact found

/-- The command of a redirection stays a list of commands when its placeholder is filled. -/
theorem list_fits_filled (t : Tree) (s : Text) (l : List Tree) :
    Form.list.Fits (fillPlaceholder t (ofList (nWord s :: l))) := by
  obtain ⟨filled, same⟩ := fillPlaceholder_ofList t l
  rw [ofList_cons, fillPlaceholder, same]
  · exact Form.list_fits_word s filled
  · nofun

end Desh
