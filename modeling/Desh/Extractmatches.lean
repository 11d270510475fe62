/-
This file compares `extractmatches` with what pattern extraction promises: a
subject contributes the pieces of the first pattern it matches. The loop over
the patterns stops at the first pattern that gives a piece instead, and a
pattern without wildcards gives none.
-/

import Desh.Extraction

namespace Desh

open Wildcard (Atom Pieces Denotes)

/-! ### Contributions -/

/-- What a subject contributes: the pieces of the first pattern it matches. -/
inductive Contributes (subject : Text) : List (List (Atom UInt8)) → List Text → Prop where
  | none : Contributes subject [] []
  | first {ts : List (Atom UInt8)} {patterns : List (List (Atom UInt8))} {pieces : List Text}
      (denotes : Denotes ts subject) (split : Pieces ts subject pieces) :
      Contributes subject (ts :: patterns) pieces
  | later {ts : List (Atom UInt8)} {patterns : List (List (Atom UInt8))} {pieces : List Text}
      (other : ¬Denotes ts subject) (rest : Contributes subject patterns pieces) :
      Contributes subject (ts :: patterns) pieces

/-- The patterns with their quoting arguments. -/
def languages : List Text → List Mask → List (List (Atom UInt8)) :=
  List.zipWith fun pattern quote => atoms (quote.marked pattern)

/-- `extractsinglematch` is right about one subject and one pattern. -/
def ExtractsRight (subject pattern : Text) (quote : Mask) : Prop :=
  ∃ result, extractsinglematch subject pattern (.of quote) [] = .ok result ∧
    (Denotes (atoms (quote.marked pattern)) subject →
      Pieces (atoms (quote.marked pattern)) subject result.reverse) ∧
    (¬Denotes (atoms (quote.marked pattern)) subject → result = [])

def HasWild (ts : List (Atom UInt8)) : Prop := 0 < ts.countP Atom.isWild

/-- The first pattern that the subject matches has a wildcard, or no later one that it matches
has. -/
def FirstDecides (subject : Text) : List (List (Atom UInt8)) → Prop
  | [] => True
  | ts :: patterns =>
      (Denotes ts subject →
        HasWild ts ∨ ∀ later ∈ patterns, Denotes later subject → ¬HasWild later) ∧
      (¬Denotes ts subject → FirstDecides subject patterns)

/-! ### One subject -/

section Subject

variable {subject : Text}

theorem pieces_eq_nil_iff {ts : List (Atom UInt8)} {pieces : List Text}
    (split : Pieces ts subject pieces) : pieces = [] ↔ ¬HasWild ts := by
  rw [HasWild, ← split.length, Nat.pos_iff_ne_zero, not_not, List.length_eq_zero_iff]

/-- The inner loop gives no pieces exactly when no pattern that matches has a wildcard. -/
theorem extractPatterns_eq_nil_iff {patterns : List Text} {quotes : List Mask}
    (length : quotes.length = patterns.length)
    (right : ∀ pair ∈ patterns.zip quotes, ExtractsRight subject pair.1 pair.2) :
    ∃ found, extractPatterns subject patterns quotes = .ok found ∧
      (found = [] ↔ ∀ ts ∈ languages patterns quotes, Denotes ts subject → ¬HasWild ts) := by
  induction patterns generalizing quotes with
  | nil => exact ⟨[], rfl, iff_of_true rfl nofun⟩
  | cons pattern patterns ih =>
    cases quotes with
    | nil => cases length
    | cons quote quotes =>
      obtain ⟨result, extracted, split, none⟩ := right (pattern, quote) List.mem_cons_self
      obtain ⟨found, rest, empty⟩ := ih (Nat.succ.inj length) fun pair member =>
        right pair (List.mem_cons_of_mem _ member)
      rw [extractPatterns, extracted, ok_bind, languages, List.zipWith_cons_cons,
        List.forall_mem_cons]
      by_cases gave : result = []
      · rw [if_neg (not_not.mpr gave)]
        refine ⟨found, rest, empty.trans ⟨fun others => ⟨fun denotes => ?_, others⟩, And.right⟩⟩
        have pieces := split denotes
        rw [gave] at pieces
        exact (pieces_eq_nil_iff pieces).mp rfl
      · rw [if_pos gave]
        refine ⟨result.reverse, rfl,
          iff_of_false (fun empty => gave (List.reverse_eq_nil_iff.mp empty))
          fun wild => ?_⟩
        have denotes : Denotes (atoms (quote.marked pattern)) subject := by
          by_contra other
          exact gave (none other)
        have nonempty := (pieces_eq_nil_iff (split denotes)).mpr (wild.1 denotes)
        exact gave (List.reverse_eq_nil_iff.mp nonempty)

/-- Every subject has a contribution. -/
theorem exists_contributes {patterns : List Text} {quotes : List Mask}
    (length : quotes.length = patterns.length)
    (right : ∀ pair ∈ patterns.zip quotes, ExtractsRight subject pair.1 pair.2) :
    ∃ pieces, Contributes subject (languages patterns quotes) pieces := by
  induction patterns generalizing quotes with
  | nil => exact ⟨[], .none⟩
  | cons pattern patterns ih =>
    cases quotes with
    | nil => cases length
    | cons quote quotes =>
      obtain ⟨result, -, split, -⟩ := right (pattern, quote) List.mem_cons_self
      by_cases denotes : Denotes (atoms (quote.marked pattern)) subject
      · exact ⟨_, .first denotes (split denotes)⟩
      · obtain ⟨pieces, rest⟩ := ih (Nat.succ.inj length) fun pair member =>
          right pair (List.mem_cons_of_mem _ member)
        exact ⟨pieces, .later denotes rest⟩

/-- The inner loop gives what the subject contributes where the first pattern decides, and more
where it does not. -/
theorem extractPatterns_contributes {patterns : List Text} {quotes : List Mask}
    (length : quotes.length = patterns.length)
    (right : ∀ pair ∈ patterns.zip quotes, ExtractsRight subject pair.1 pair.2)
    {pieces : List Text} (contributes : Contributes subject (languages patterns quotes) pieces) :
    ∃ found, extractPatterns subject patterns quotes = .ok found ∧
      (FirstDecides subject (languages patterns quotes) ∧ found = pieces ∨
        ¬FirstDecides subject (languages patterns quotes) ∧ pieces.length < found.length) := by
  induction patterns generalizing quotes with
  | nil =>
    cases contributes
    exact ⟨[], rfl, .inl ⟨trivial, rfl⟩⟩
  | cons pattern patterns ih =>
    cases quotes with
    | nil => cases length
    | cons quote quotes =>
      obtain ⟨result, extracted, split, none⟩ := right (pattern, quote) List.mem_cons_self
      have rights := fun pair member => right pair (List.mem_cons_of_mem _ member)
      rw [languages, List.zipWith_cons_cons] at contributes ⊢
      rw [extractPatterns, extracted, ok_bind, FirstDecides]
      cases contributes with
      | first denotes pieces_of =>
        obtain rfl := (split denotes).unique pieces_of
        by_cases gave : result = []
        · have plain : ¬HasWild (atoms (quote.marked pattern)) :=
            (pieces_eq_nil_iff pieces_of).mp (List.reverse_eq_nil_iff.mpr gave)
          obtain ⟨found, rest, empty⟩ := extractPatterns_eq_nil_iff (Nat.succ.inj length) rights
          rw [if_neg (not_not.mpr gave), gave]
          refine ⟨found, rest, ?_⟩
          by_cases decided : found = []
          · refine .inl ⟨⟨fun _ => .inr (empty.mp decided), fun other => absurd denotes other⟩, ?_⟩
            exact decided
          · refine .inr ⟨fun first => ?_, List.length_pos_iff.mpr decided⟩
            rcases first.1 denotes with wild | others
            · exact plain wild
            · exact decided (empty.mpr others)
        · rw [if_pos gave]
          have wild : HasWild (atoms (quote.marked pattern)) := by
            by_contra plain
            exact gave (List.reverse_eq_nil_iff.mp ((pieces_eq_nil_iff pieces_of).mpr plain))
          exact ⟨result.reverse, rfl,
            .inl ⟨⟨fun _ => .inl wild, fun other => absurd denotes other⟩, rfl⟩⟩
      | later other rest =>
        obtain ⟨found, searched, cases⟩ := ih (Nat.succ.inj length) rights rest
        rw [none other, if_neg (not_not.mpr rfl)]
        refine ⟨found, searched, cases.imp ?_ ?_⟩
        · exact fun ⟨decides, same⟩ =>
            ⟨⟨fun denotes => absurd denotes other, fun _ => decides⟩, same⟩
        · exact fun ⟨fails, longer⟩ => ⟨fun decides => fails (decides.2 other), longer⟩

end Subject

/-! ### All subjects -/

section Subjects

variable {patterns : List Text} {quotes : List Mask}

/-- The outer loop appends the contributions where the first patterns decide, and more elsewhere. -/
theorem extractSubjects_contributes (length : quotes.length = patterns.length)
    {subjects : List Text} (right : ∀ subject ∈ subjects, ∀ pair ∈ patterns.zip quotes,
      ExtractsRight subject pair.1 pair.2) {contributions : List (List Text)}
    (contribute : List.Forall₂
      (fun subject pieces => Contributes subject (languages patterns quotes) pieces)
      subjects contributions) (result : List Text) :
    ∃ found, extractSubjects patterns quotes result subjects = .ok (result ++ found) ∧
      ((∀ subject ∈ subjects, FirstDecides subject (languages patterns quotes)) ∧
          found = contributions.flatten ∨
        (¬∀ subject ∈ subjects, FirstDecides subject (languages patterns quotes)) ∧
          contributions.flatten.length < found.length) := by
  induction contribute generalizing result with
  | nil => exact ⟨[], by rw [List.append_nil]; rfl, .inl ⟨nofun, rfl⟩⟩
  | @cons subject pieces subjects contributions first _ ih =>
    obtain ⟨here, searched, one⟩ :=
      extractPatterns_contributes length (right subject List.mem_cons_self) first
    obtain ⟨behind, rest, all⟩ :=
      ih (fun subject member => right subject (List.mem_cons_of_mem _ member)) (result ++ here)
    refine ⟨here ++ behind, ?_, ?_⟩
    · rw [extractSubjects, searched, ok_bind, rest, List.append_assoc]
    · rw [List.forall_mem_cons, List.flatten_cons, List.length_append, List.length_append]
      rcases one with ⟨decides, rfl⟩ | ⟨fails, longer⟩
      · rcases all with ⟨others, rfl⟩ | ⟨fail, longer⟩
        · exact .inl ⟨⟨decides, others⟩, rfl⟩
        · exact .inr ⟨fun both => fail both.2, by omega⟩
      · refine .inr ⟨fun both => fails both.1, ?_⟩
        rcases all with ⟨-, rfl⟩ | ⟨-, further⟩
        · omega
        · omega

/-- Where extraction is right about every pair, `extractmatches` returns the contributions of the
subjects exactly when for every subject the first pattern it matches decides. -/
theorem extractmatches_iff (subjects patterns : List Text) (quotes : List Mask)
    (length : quotes.length = patterns.length)
    (right : ∀ subject ∈ subjects, ∀ pair ∈ patterns.zip quotes,
      ExtractsRight subject pair.1 pair.2) :
    (∃ contributions, List.Forall₂
        (fun subject pieces => Contributes subject (languages patterns quotes) pieces)
        subjects contributions ∧
      extractmatches subjects patterns quotes = .ok contributions.flatten) ↔
    ∀ subject ∈ subjects, FirstDecides subject (languages patterns quotes) := by
  constructor
  · rintro ⟨contributions, contribute, returned⟩
    obtain ⟨found, searched, all⟩ := extractSubjects_contributes length right contribute []
    rcases all with ⟨decide, -⟩ | ⟨-, longer⟩
    · exact decide
    · have same : [] ++ found = contributions.flatten :=
        Except.ok.inj (searched.symm.trans returned)
      rw [← same] at longer
      exact absurd longer (Nat.lt_irrefl _)
  · intro decide
    obtain ⟨contributions, contribute⟩ : ∃ contributions, List.Forall₂
        (fun subject pieces => Contributes subject (languages patterns quotes) pieces)
        subjects contributions := by
      clear decide
      induction subjects with
      | nil => exact ⟨[], .nil⟩
      | cons subject subjects ih =>
        obtain ⟨pieces, first⟩ := exists_contributes length (right subject List.mem_cons_self)
        obtain ⟨contributions, rest⟩ :=
          ih fun subject member => right subject (List.mem_cons_of_mem _ member)
        exact ⟨pieces :: contributions, .cons first rest⟩
    obtain ⟨found, searched, all⟩ := extractSubjects_contributes length right contribute []
    refine ⟨contributions, contribute, ?_⟩
    rcases all with ⟨-, rfl⟩ | ⟨fail, -⟩
    · exact searched
    · exact absurd decide fail

end Subjects

/-- The pattern without wildcards matches first, and the star behind it gives a piece. -/
theorem extractmatches_goes_on :
    Contributes (lit "foo") (languages [lit "foo", lit "*"] [.UNQUOTED, .UNQUOTED]) [] ∧
      extractmatches [lit "foo"] [lit "foo", lit "*"] [.UNQUOTED, .UNQUOTED] = .ok [lit "foo"] := by
  have denotes : Denotes (atoms (Mask.UNQUOTED.marked (lit "foo"))) (lit "foo") :=
    (Wildcard.isMatch_iff _ _).mp (by decide +kernel)
  exact ⟨.first denotes (Wildcard.pieces_of_extract denotes (by decide +kernel)),
    by decide +kernel⟩

theorem extractmatches_iff_single :
    (∃ contributions, List.Forall₂
        (fun subject pieces => Contributes subject (languages [lit "*.[ch]"] [.UNQUOTED]) pieces)
        [lit "foo.c"] contributions ∧
      extractmatches [lit "foo.c"] [lit "*.[ch]"] [.UNQUOTED] = .ok contributions.flatten) ↔
    ∀ subject ∈ [lit "foo.c"], FirstDecides subject (languages [lit "*.[ch]"] [.UNQUOTED]) := by
  refine extractmatches_iff _ _ _ rfl fun subject member pair paired => ?_
  obtain rfl := List.mem_singleton.mp member
  obtain rfl := List.mem_singleton.mp paired
  have denotes : Denotes (atoms (Mask.UNQUOTED.marked (lit "*.[ch]"))) (lit "foo.c") :=
    (Wildcard.isMatch_iff _ _).mp (by decide +kernel)
  exact ⟨[lit "c", lit "foo"], by decide +kernel,
    fun denotes => Wildcard.pieces_of_extract denotes (by decide +kernel),
    fun other => absurd denotes other⟩

end Desh
