/-
This file follows `glob0` over a list of words: a word that has matches is
replaced by them, sorted, and every other word stays, unless a call of `glob1`
reads behind a component.
-/

import Desh.Globbing

namespace Desh

open FileTree (Files)

variable {α : Type} (files : Files pathSigns) (getstr : α → Text) (mkstr : Text → α)
  (fresh : StaticArray → Nat → UInt8)

/-! ### What becomes of a word -/

/-- The pattern a word is. -/
def patternOf (word : α × Mask) : List Marked := word.2.marked (getstr word.1)

/-- A word with a wildcard that is not masked. -/
def IsWild (word : α × Mask) : Prop := (patternOf getstr word).any Marked.isWild = true

instance (word : α × Mask) : Decidable (IsWild getstr word) :=
  inferInstanceAs (Decidable (_ = true))

/-- The words in the place of one: the paths that it stands for, sorted and each once, or the word
itself where there is none. -/
inductive Replaces (word : α × Mask) : List α → Prop where
  | matched {paths : List Text} (wild : IsWild getstr word) (found : paths ≠ [])
      (sorted : paths.Pairwise (· ≤ ·)) (distinct : paths.Nodup)
      (exact : ∀ path, path ∈ paths ↔ Stands files (piecesOf (patternOf getstr word)) path) :
      Replaces word (paths.map mkstr)
  | kept (none : IsWild getstr word →
      ∀ path, ¬Stands files (piecesOf (patternOf getstr word)) path) : Replaces word [word.1]

/-- `glob0`, with the arrays of `glob1`. -/
def globWords (words : List (α × Mask)) (statics : Statics) : Except Fault (List α × Statics) :=
  glob0 (m := StateT Statics (Except Fault)) (fun term => pure (getstr term)) mkstr
    (glob1 (Disk.of files) fresh) words statics

/-- Every call of `glob1` is harmless, in the arrays that the calls before have left. -/
def HarmlessRun : Statics → List (α × Mask) → Prop
  | _, [] => True
  | statics, word :: words =>
      if IsWild getstr word then
        Harmless fresh files statics (patternOf getstr word) ∧
          ∀ found after, glob1 (Disk.of files) fresh (getstr word.1) word.2 statics =
            .ok (found, after) → HarmlessRun after words
      else HarmlessRun statics words

theorem haswild_eq {str : Text} {quote : Mask} (fits : quote.Fits str) :
    haswild str quote = (quote.marked str).any Marked.isWild := by
  have wildcard : ∀ c : UInt8,
      (c == '*'.toUInt8 || c == '?'.toUInt8 || c == '['.toUInt8) = isWildcard c := fun _ => rfl
  cases quote with
  | QUOTED =>
    rw [Mask.marked, List.any_map]
    exact (List.any_eq_false.mpr fun _ _ => Bool.false_ne_true).symm
  | UNQUOTED =>
    rw [Mask.marked, List.any_map]
    rfl
  | marks q =>
    rw [Mask.marked, masked, List.zip_map_right, List.any_map, haswild, Bool.eq_iff_iff,
      List.any_eq_true, List.any_eq_true]
    refine exists_congr fun x => and_congr_right fun member => ?_
    obtain ⟨c, r⟩ := x
    have mark : r = 'q'.toUInt8 ∨ r = 'r'.toUInt8 := fits.2 r (List.of_mem_zip member).2
    show ((isWildcard c && r == 'r'.toUInt8) = true) ↔
      (!decide (r = 'q'.toUInt8) && isWildcard c) = true
    rcases mark with rfl | rfl
    · cases isWildcard c <;> decide
    · cases isWildcard c <;> decide

section Steps

variable {files getstr mkstr fresh} {word : α × Mask} {words : List (α × Mask)}
  {statics : Statics}

/-- A word with a wildcard. -/
theorem globWords_wild (fits : word.2.Fits (getstr word.1)) (wild : IsWild getstr word) :
    globWords files getstr mkstr fresh (word :: words) statics =
      (glob1 (Disk.of files) fresh (getstr word.1) word.2 statics >>= fun found =>
        globWords files getstr mkstr fresh words found.2 >>= fun rest =>
          .ok ((if found.1 = [] then [word.1] else (sortlist found.1).map mkstr) ++ rest.1,
            rest.2)) := by
  obtain ⟨term, quote⟩ := word
  have haswild := (haswild_eq fits).trans wild
  have unquoted : quote ≠ .QUOTED := by
    rintro rfl
    cases haswild
  rw [globWords, glob0, if_neg unquoted]
  simp only [pure_bind, haswild, if_true]
  rfl

/-- A word without one. -/
theorem globWords_plain (fits : word.2.Fits (getstr word.1)) (plain : ¬IsWild getstr word) :
    globWords files getstr mkstr fresh (word :: words) statics =
      (globWords files getstr mkstr fresh words statics >>= fun rest =>
          .ok (word.1 :: rest.1, rest.2)) := by
  obtain ⟨term, quote⟩ := word
  rw [globWords, glob0]
  by_cases quoted : quote = .QUOTED
  · rw [if_pos quoted]
    rfl
  · have noWild : haswild (getstr term) quote = false := by
      rw [haswild_eq fits]
      exact Bool.eq_false_iff.mpr plain
    rw [if_neg quoted]
    simp only [pure_bind, noWild]
    rfl

end Steps

/-! ### A list of words -/

theorem sortlist_spec (list : List Text) :
    (sortlist list).Perm list ∧ (sortlist list).Pairwise (· ≤ ·) := by
  rw [sortlist]
  split
  · exact ⟨List.perm_insertionSort _ _, List.pairwise_insertionSort _ _⟩
  · rename_i short
    refine ⟨.refl list, ?_⟩
    match list, short with
    | [], _ => exact .nil
    | [_], _ => exact List.pairwise_singleton _ _
    | _ :: _ :: rest, short => exact absurd (by simp) short

section Words

variable {files getstr fresh} {words : List (α × Mask)} {statics : Statics}

/-- What the paths that are listed put in the place of a word. -/
theorem replaces_of_lists {word : α × Mask} (wild : IsWild getstr word) {found : List Text}
    (lists : Lists files (piecesOf (patternOf getstr word)) found) :
    Replaces files getstr mkstr word
      (if found = [] then [word.1] else (sortlist found).map mkstr) := by
  obtain ⟨perm, sorted⟩ := sortlist_spec found
  by_cases empty : found = []
  · rw [if_pos empty]
    refine .kept fun _ path stands => ?_
    have member := (lists.2 path).mpr stands
    rw [empty] at member
    cases member
  · rw [if_neg empty]
    refine .matched wild (fun none => empty ?_) sorted (perm.nodup_iff.mpr lists.1) fun path =>
      perm.mem_iff.trans (lists.2 path)
    rw [none] at perm
    exact perm.nil_eq.symm

/-- `glob0` replaces each word by its matches, unless a call of `glob1` is not harmless. -/
theorem globWords_spec (fits : ∀ word ∈ words, word.2.Fits (getstr word.1))
    (nulFree : ∀ word ∈ words, NulFree (getstr word.1)) (valid : statics.Valid) :
    (HarmlessRun files getstr fresh statics words → ∃ lists after,
      globWords files getstr mkstr fresh words statics = .ok (lists.flatten, after) ∧
        List.Forall₂ (Replaces files getstr mkstr) words lists) ∧
      (¬HarmlessRun files getstr fresh statics words →
        globWords files getstr mkstr fresh words statics = .error .text) := by
  induction words generalizing statics with
  | nil => exact ⟨fun _ => ⟨[], statics, rfl, .nil⟩, fun harmful => absurd trivial harmful⟩
  | cons word words ih =>
    rw [List.forall_mem_cons] at fits nulFree
    rw [HarmlessRun]
    by_cases wild : IsWild getstr word
    · have globbed := glob1_spec fresh files fits.1 nulFree.1 wild valid
      rw [if_pos wild, globWords_wild fits.1 wild]
      by_cases harmless : Harmless fresh files statics (patternOf getstr word)
      · obtain ⟨found, after, called, valid', lists⟩ := globbed.1 harmless
        have rest := ih fits.2 nulFree.2 valid'
        have run_iff : (∀ found after, glob1 (Disk.of files) fresh (getstr word.1) word.2 statics =
            .ok (found, after) → HarmlessRun files getstr fresh after words) ↔
              HarmlessRun files getstr fresh after words := by
          refine ⟨fun run => run found after called, fun run found' after' called' => ?_⟩
          rw [called] at called'
          cases called'
          exact run
        rw [and_iff_right harmless, run_iff, called, ok_bind]
        constructor
        · intro run
          obtain ⟨lists', after', rest, replaced⟩ := rest.1 run
          rw [rest, ok_bind]
          exact ⟨_ :: lists', after', rfl, .cons (replaces_of_lists mkstr wild lists) replaced⟩
        · intro harmful
          rw [rest.2 harmful]
          rfl
      · rw [globbed.2 harmless]
        exact ⟨fun run => absurd run.1 harmless, fun _ => rfl⟩
    · have rest := ih fits.2 nulFree.2 valid
      rw [if_neg wild, globWords_plain fits.1 wild]
      constructor
      · intro run
        obtain ⟨lists, after, rest, replaced⟩ := rest.1 run
        rw [rest, ok_bind]
        exact ⟨[word.1] :: lists, after, rfl,
          .cons (.kept fun wild' => absurd wild' wild) replaced⟩
      · intro harmful
        rw [rest.2 harmful]
        rfl

end Words

/-! ### The two properties -/

/-- `glob1` returns the paths that the pattern stands for, each once. -/
def GlobsExactly (statics : Statics) (pattern : Text) (quote : Mask) : Prop :=
  ∃ found after, glob1 (Disk.of files) fresh pattern quote statics = .ok (found, after) ∧
    found.Nodup ∧ ∀ path, path ∈ found ↔ Stands files (piecesOf (quote.marked pattern)) path

/-- `glob0` replaces each word that has matches by their sorted list, and keeps every other one. -/
def ReplacesEach (statics : Statics) (words : List (α × Mask)) : Prop :=
  ∃ lists after, globWords files getstr mkstr fresh words statics = .ok (lists.flatten, after) ∧
    List.Forall₂ (Replaces files getstr mkstr) words lists

theorem globsExactly_iff {statics : Statics} (valid : statics.Valid) {pattern : Text}
    {quote : Mask} (fits : quote.Fits pattern) (nulFree : NulFree pattern)
    (wild : (quote.marked pattern).any Marked.isWild = true) :
    GlobsExactly files fresh statics pattern quote ↔
      Harmless fresh files statics (quote.marked pattern) := by
  have globbed := glob1_spec fresh files fits nulFree wild valid
  constructor
  · rintro ⟨found, after, called, -⟩
    by_contra harmful
    rw [globbed.2 harmful] at called
    cases called
  · intro harmless
    obtain ⟨found, after, called, -, lists⟩ := globbed.1 harmless
    exact ⟨found, after, called, lists⟩

theorem replacesEach_iff {statics : Statics} (valid : statics.Valid) {words : List (α × Mask)}
    (fits : ∀ word ∈ words, word.2.Fits (getstr word.1))
    (nulFree : ∀ word ∈ words, NulFree (getstr word.1)) :
    ReplacesEach files getstr mkstr fresh statics words ↔
      HarmlessRun files getstr fresh statics words := by
  have replaced : _ ∧ (¬HarmlessRun files getstr fresh statics words → _) :=
    globWords_spec mkstr fits nulFree valid
  refine ⟨fun ⟨lists, after, globbed, _⟩ => ?_, replaced.1⟩
  by_contra harmful
  rw [replaced.2 harmful] at globbed
  cases globbed

/-- The arrays keep their sizes. -/
theorem glob1_valid {statics after : Statics} (valid : statics.Valid) {pattern : Text}
    {quote : Mask} (fits : quote.Fits pattern) (nulFree : NulFree pattern)
    (wild : (quote.marked pattern).any Marked.isWild = true) {found : List Text}
    (called : glob1 (Disk.of files) fresh pattern quote statics = .ok (found, after)) :
    after.Valid := by
  have globbed := glob1_spec fresh files fits nulFree wild valid
  by_cases harmless : Harmless fresh files statics (quote.marked pattern)
  · obtain ⟨_, _, called', valid', -⟩ := globbed.1 harmless
    rw [called] at called'
    cases called'
    exact valid'
  · rw [globbed.2 harmless] at called
    cases called

/-- Globbing finds the paths that match, each once, and puts them where the words were, just where
no comparison reads behind a component. -/
theorem glob_iff (files : Files pathSigns) (fresh : StaticArray → Nat → UInt8) {statics : Statics}
    (valid : statics.Valid) :
    (∀ pattern quote, quote.Fits pattern → NulFree pattern →
      (quote.marked pattern).any Marked.isWild = true →
        (GlobsExactly files fresh statics pattern quote ↔
          Harmless fresh files statics (quote.marked pattern))) ∧
      ∀ (α : Type) (getstr : α → Text) (mkstr : Text → α) (words : List (α × Mask)),
        (∀ word ∈ words, word.2.Fits (getstr word.1)) →
          (∀ word ∈ words, NulFree (getstr word.1)) →
            (ReplacesEach files getstr mkstr fresh statics words ↔
              HarmlessRun files getstr fresh statics words) :=
  ⟨fun _ _ fits nulFree wild => globsExactly_iff files fresh valid fits nulFree wild,
    fun _ getstr mkstr _ fits nulFree =>
      replacesEach_iff files getstr mkstr fresh valid fits nulFree⟩

/-! ### A class that dangles -/

/-- A directory with one file. -/
def oneFile : Files pathSigns where
  root := .directory [(lit "xyz", .file)]
  valid := by
    refine .directory ?_ (List.nodup_singleton _) ?_
    · rw [List.forall_mem_singleton]
      exact ⟨⟨by decide, by decide +kernel⟩, by decide⟩
    · rw [List.forall_mem_singleton]
      exact .file
  entries := [(lit "xyz", .file)]
  up := []
  place := .root

/-- New memory that is zero. -/
def zeroed : StaticArray → Nat → UInt8 := fun _ _ => 0

/-- The first call. -/
theorem glob_iff_first :
    (GlobsExactly oneFile zeroed .initial (lit "x*") .UNQUOTED ↔
      Harmless zeroed oneFile .initial (Mask.UNQUOTED.marked (lit "x*"))) ∧
      (ReplacesEach oneFile id id zeroed .initial [(lit "x*", .UNQUOTED)] ↔
        HarmlessRun oneFile id zeroed .initial [(lit "x*", .UNQUOTED)]) :=
  ⟨(glob_iff oneFile zeroed valid_initial).1 (lit "x*") .UNQUOTED trivial (by decide) (by decide),
    (glob_iff oneFile zeroed valid_initial).2 Text id id [(lit "x*", .UNQUOTED)]
      (List.forall_mem_singleton.mpr trivial) (List.forall_mem_singleton.mpr (by decide))⟩

/-- The arrays that a pattern with quoted letters leaves. -/
def leftArrays : Statics :=
  (Statics.initial.reserve zeroed 8).first (lit "*abcx]*") (lit "rqqqrrr")

theorem glob1_leaves : ∃ found,
    glob1 (Disk.of oneFile) zeroed (lit "*abcx]*") (.marks (lit "rqqqrrr")) .initial =
      .ok (found, leftArrays) := by
  have unfolded := @glob1_first zeroed (Disk.of oneFile) (masked (lit "*abcx]*") (lit "rqqqrrr"))
    (.marks (lit "rqqqrrr")) nofun .initial valid_initial [0] rfl 7 (by decide) (by decide)
  have searched := @dirmatch_spec oneFile [] (lit ".") (masked (lit "*abcx]*") (lit "rqqqrrr"))
    (leads_dot oneFile) (by decide +kernel) nofun [0]
  obtain ⟨list, matched, -⟩ := searched.1 fun _ _ name _ => spared_false _ name
  dsimp only at unfolded
  rw [if_pos (by decide)] at unfolded
  have same : dirmatch (Disk.of oneFile) [] (lit ".")
      (chars ((masked (lit "*abcx]*") (lit "rqqqrrr")).take 7))
      (.of (.marks leftArrays.qdir)) = .ok list := matched
  refine ⟨list, unfolded.trans ?_⟩
  show (dirmatch (Disk.of oneFile) [] (lit ".") _ (.of (.marks leftArrays.qdir)) >>= fun list =>
    .ok (list, leftArrays)) = .ok (list, leftArrays)
  rw [same]
  rfl

/-- A dash at the end of a class that nothing closes. -/
theorem not_spared_dangling :
    ¬Spared true [bare '[', bare 'a', bare '-'] (lit ".") := by
  have unclosed : classOf [bare 'a', bare '-'] = none := by
    simp +decide [classOf, leadingMembers, members, rangeEnd, bare]
  have dangling : classDangles [bare 'a', bare '-'] = true := by
    simp +decide [classDangles, leadingDangles, dangles, bare]
  intro spared
  rw [Spared, scannedAtoms, if_neg (by decide), if_neg (by decide), if_pos rfl, unclosed] at spared
  have allowed : (!(true && classDangles [bare 'a', bare '-'])) = true := spared.1
  rw [dangling] at allowed
  cases allowed

/-- After that, a pattern with an unclosed class reads behind its end. -/
theorem not_globsExactly : ∃ found after,
    glob1 (Disk.of oneFile) zeroed (lit "*abcx]*") (.marks (lit "rqqqrrr")) .initial =
      .ok (found, after) ∧ ¬GlobsExactly oneFile zeroed after (lit "[a-") .UNQUOTED := by
  obtain ⟨found, called⟩ := glob1_leaves
  have mask : (Mask.marks (lit "rqqqrrr")).Fits (lit "*abcx]*") :=
    show IsMask (lit "*abcx]*") (lit "rqqqrrr") by decide +kernel
  have valid := glob1_valid oneFile zeroed valid_initial mask (by decide) (by decide) called
  refine ⟨found, leftArrays, called, fun exact => ?_⟩
  have harmless := (@globsExactly_iff oneFile zeroed leftArrays valid (lit "[a-") .UNQUOTED
    trivial (by decide) (by decide)).mp exact
  have pieces : piecesOf (Mask.UNQUOTED.marked (lit "[a-")) =
      [(0, Mask.UNQUOTED.marked (lit "[a-"))] := by
    rw [piecesOf_cons (by decide), show afterFirst (Mask.UNQUOTED.marked (lit "[a-")) = [] from rfl,
      piecesOf, dif_pos rfl]
    rfl
  rw [Harmless, pieces] at harmless
  have spared := harmless.1 [lit ".", lit "..", lit "xyz"] rfl (lit ".") List.mem_cons_self
  exact not_spared_dangling spared

end Desh
