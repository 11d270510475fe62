/-
This file follows the reading of here documents over texts in which every
document begins with a line of its own length. Where a document ends depends on
the marker it is read up to; where it began can be told from its first line, so
that the documents of such a text show in which order they were read.
-/

import Desh.Heredoc
import Mathlib.Data.List.Forall2
import Mathlib.Data.List.Infix

namespace Desh

open Desh.Tree

/-! ### Matching the marker -/

theorem matched_le (eof l : Text) : matched eof l ≤ l.length := by
  fun_induction matched eof l with
  | case1 eof l e ih =>
    rw [List.length_cons]
    exact Nat.succ_le_succ ih
  | _ => exact Nat.zero_le _

theorem matched_le_marker (eof l : Text) : matched eof l ≤ eof.length := by
  fun_induction matched eof l with
  | case1 eof l e ih =>
    rw [List.length_cons]
    exact Nat.succ_le_succ ih
  | _ => exact Nat.zero_le _

/-- What matches the marker is the marker's. -/
theorem take_matched (eof l : Text) : eof.take (matched eof l) = l.take (matched eof l) := by
  fun_induction matched eof l with
  | case1 eof l e ih => rw [List.take_succ_cons, List.take_succ_cons, ih]
  | _ => rfl

theorem matched_self (eof : Text) : matched eof eof = eof.length := by
  induction eof with
  | nil => rfl
  | cons e eof ih => rw [matched, if_pos rfl, ih, List.length_cons]

/-- A marker without a newline is matched inside a line. -/
theorem matched_line {eof : Text} (single : '\n'.toUInt8 ∉ eof) (l rest : Text) :
    matched eof (l ++ '\n'.toUInt8 :: rest) = matched eof l := by
  fun_induction matched eof l with
  | case1 eof l e ih =>
    rw [List.cons_append, matched, if_pos rfl,
      ih fun member => single (List.mem_cons_of_mem _ member)]
  | case2 e eof c l other => rw [List.cons_append, matched, if_neg other]
  | case3 eof l short =>
    cases eof with
    | nil => cases l <;> rfl
    | cons e eof =>
      cases l with
      | nil =>
        rw [List.nil_append, matched, if_neg]
        intro same
        exact single (same ▸ List.mem_cons_self)
      | cons c l => exact absurd rfl (short _ _ _ _ rfl)

/-! ### One line of a document -/

/-- A line that can be read: it has neither a newline nor a null character. -/
def Line (l : Text) : Prop := '\n'.toUInt8 ∉ l ∧ 0 ∉ l

/-- The first piece of a document. -/
def leads (tree : List Tree) (buf : Text) : Text :=
  match tree with
  | [] => buf
  | nQword s :: _ => s
  | _ => []

/-- The first piece of a document that was read. -/
def leading : Tree → Text
  | nQword s | nList (nQword s) _ => s
  | _ => []

theorem leads_append (tree : List Tree) (buf more : Text) :
    leads tree buf <+: leads tree (buf ++ more) := by
  cases tree with
  | nil => exact List.prefix_append buf more
  | cons t tree => cases t <;> exact List.prefix_rfl

theorem leads_flushed (tree : List Tree) (buf : Text) (var : Tree) :
    leads tree buf <+: leads (flushed tree buf ++ [var]) [] := by
  unfold flushed
  split
  · rename_i empty
    subst empty
    cases tree with
    | nil => exact List.nil_prefix
    | cons t tree => cases t <;> exact List.prefix_rfl
  · cases tree with
    | nil => exact List.prefix_rfl
    | cons t tree => cases t <;> exact List.prefix_rfl

theorem leads_document (tree : List Tree) (buf : Text) :
    leads tree buf <+: leading (document tree buf) := by
  cases tree with
  | nil =>
    have alone : document [] buf = nQword buf := by
      unfold document
      rw [if_neg fun both => both.2 rfl]
      rfl
    rw [alone]
    exact List.prefix_rfl
  | cons t tree =>
    by_cases quoted : ∃ s, t = nQword s
    · obtain ⟨s, rfl⟩ := quoted
      unfold document
      split
      · rename_i piece same
        split at same
        · obtain ⟨rfl, -⟩ := List.cons.inj same
          exact List.prefix_rfl
        · exact absurd (List.cons.inj same).2 (by simp)
      · split <;> exact List.prefix_rfl
    · cases t <;> first | exact List.nil_prefix | exact absurd ⟨_, rfl⟩ quoted

theorem dropped_line (l rest : Text) {k : Nat} (within : k ≤ l.length) :
    (l ++ '\n'.toUInt8 :: rest).drop k = l.drop k ++ '\n'.toUInt8 :: rest :=
  List.drop_append_of_le_length within

theorem head_line {l : Text} (line : Line l) (rest : Text) :
    (l ++ '\n'.toUInt8 :: rest).head? ≠ some 0 ∧
      ((l ++ '\n'.toUInt8 :: rest).head? = some '\n'.toUInt8 ↔ l = []) := by
  cases l with
  | nil => exact ⟨fun same => absurd (Option.some.inj same) (by decide), iff_of_true rfl rfl⟩
  | cons c l =>
    refine ⟨fun same => line.2 ?_, iff_of_false (fun same => line.1 ?_) nofun⟩
    · rw [← Option.some.inj same]
      exact List.mem_cons_self
    · rw [← Option.some.inj same]
      exact List.mem_cons_self

theorem Line.drop {l : Text} (line : Line l) (k : Nat) : Line (l.drop k) :=
  ⟨fun member => line.1 (List.mem_of_mem_drop member), fun member =>
    line.2 (List.mem_of_mem_drop member)⟩

/-- At the start of a line the document ends when the line is the marker; otherwise what matched
belongs to the document. -/
theorem snarf_start {eof : Text} (single : '\n'.toUInt8 ∉ eof) (quoted : Bool) (tree : List Tree)
    (buf : Text) {l : Text} (line : Line l) (rest : Text) :
    snarf eof quoted true tree buf (l ++ '\n'.toUInt8 :: rest) =
      if l = eof then .ok (document tree buf, rest)
      else snarf eof quoted false tree (buf ++ l.take (matched eof l))
        (l.drop (matched eof l) ++ '\n'.toUInt8 :: rest) := by
  have within := matched_le eof l
  have heads := head_line (line.drop (matched eof l)) rest
  have nonempty : l.drop (matched eof l) ++ '\n'.toUInt8 :: rest ≠ [] := by simp
  have ends : (matched eof l = eof.length ∧ l.drop (matched eof l) = []) ↔ l = eof := by
    constructor
    · rintro ⟨whole, empty⟩
      have both := take_matched eof l
      rw [whole, List.take_length] at both
      rw [whole] at empty
      rw [← List.take_append_drop eof.length l, empty, List.append_nil, ← both]
    · rintro rfl
      rw [matched_self]
      exact ⟨rfl, List.drop_length⟩
  rw [snarf.eq_def, if_pos rfl, matched_line single, dropped_line l rest within]
  dsimp only
  rw [if_neg heads.1, take_matched]
  simp only [heads.2, nonempty, false_or]
  by_cases same : l = eof
  · rw [if_pos (ends.mpr same), if_pos same, (ends.mpr same).2]
    rfl
  · rw [if_neg fun both => same (ends.mp both), if_neg same]

/-- A line of a quoted document, or one without a variable, is read as it stands. -/
theorem snarf_plain (eof : Text) (quoted : Bool) (tree : List Tree) (buf : Text) {l : Text}
    (line : Line l) (plain : quoted = true ∨ '$'.toUInt8 ∉ l) (rest : Text) :
    snarf eof quoted false tree buf (l ++ '\n'.toUInt8 :: rest) =
      snarf eof quoted true tree (buf ++ l ++ ['\n'.toUInt8]) rest := by
  induction l generalizing buf with
  | nil =>
    rw [List.nil_append, snarf, if_neg Bool.false_ne_true, if_neg (show '\n'.toUInt8 ≠ 0 by decide),
      if_neg fun both : '\n'.toUInt8 = '$'.toUInt8 ∧ _ => absurd both.1 (by decide),
      List.append_nil]
    rfl
  | cons c l ih =>
    have inner : Line l :=
      ⟨fun member => line.1 (List.mem_cons_of_mem _ member), fun member =>
        line.2 (List.mem_cons_of_mem _ member)⟩
    have nonzero : c ≠ 0 := fun same => line.2 (same ▸ List.mem_cons_self)
    have other : (c == '\n'.toUInt8) = false :=
      beq_eq_false_iff_ne.mpr fun same => line.1 (same ▸ List.mem_cons_self)
    have still := ih (buf ++ [c]) inner (plain.imp_right (mt (List.mem_cons_of_mem _)))
    have plain : ¬(c = '$'.toUInt8 ∧ quoted = false) := by
      rintro ⟨rfl, unquoted⟩
      rcases plain with quoted | plain
      · exact Bool.false_ne_true (unquoted.symm.trans quoted)
      · exact plain List.mem_cons_self
    rw [List.cons_append, snarf, if_neg Bool.false_ne_true, if_neg nonzero, if_neg plain, other,
      still, List.append_assoc buf [c] l]
    rfl

theorem dropWhile_line (l rest : Text) :
    ∃ k, (l ++ '\n'.toUInt8 :: rest).dropWhile (fun c => !dollarNonWord c) =
      l.drop k ++ '\n'.toUInt8 :: rest := by
  induction l with
  | nil =>
    refine ⟨0, ?_⟩
    rw [List.nil_append, List.dropWhile_cons_of_neg (by decide)]
    rfl
  | cons c l ih =>
    by_cases word : (!dollarNonWord c) = true
    · obtain ⟨k, same⟩ := ih
      exact ⟨k + 1, (List.dropWhile_cons_of_pos (p := fun c => !dollarNonWord c) word).trans same⟩
    · exact ⟨0, List.dropWhile_cons_of_neg (p := fun c => !dollarNonWord c) word⟩

/-- A variable ends on its line. -/
theorem getherevar_line {l rest after : Text} {var : Tree}
    (read : getherevar (l ++ '\n'.toUInt8 :: rest) = .ok (var, after)) :
    ∃ k, after = l.drop k ++ '\n'.toUInt8 :: rest := by
  obtain ⟨k, dropped⟩ := dropWhile_line l rest
  rw [getherevar_eq, dropped] at read
  cases read
  split
  · rename_i caret
    refine ⟨k + 1, ?_⟩
    cases left : l.drop k with
    | nil =>
      rw [left] at caret
      exact absurd (Option.some.inj caret) (by decide)
    | cons c l' =>
      have next : l.drop (k + 1) = l' := by rw [← List.drop_drop, left]; rfl
      rw [next]
      rfl
  · exact ⟨k, rfl⟩

/-- The rest of a line is read up to its newline, or reading fails. -/
theorem snarf_inside (eof : Text) (quoted : Bool) (rest : Text) :
    ∀ {l : Text}, Line l → ∀ (tree : List Tree) (buf : Text),
      (∃ error, snarf eof quoted false tree buf (l ++ '\n'.toUInt8 :: rest) = .error error) ∨
      ∃ tree' buf', snarf eof quoted false tree buf (l ++ '\n'.toUInt8 :: rest) =
          snarf eof quoted true tree' buf' rest ∧ leads tree buf <+: leads tree' buf' := by
  intro l
  induction count : l.length using Nat.strongRecOn generalizing l with
  | ind length ih =>
    intro line tree buf
    cases l with
    | nil =>
      refine .inr ⟨tree, buf ++ ['\n'.toUInt8], ?_, leads_append tree buf _⟩
      rw [snarf_plain eof quoted tree buf line (.inr nofun), List.append_nil]
    | cons c l =>
      have nonzero : c ≠ 0 := fun same => line.2 (same ▸ List.mem_cons_self)
      have other : (c == '\n'.toUInt8) = false :=
        beq_eq_false_iff_ne.mpr fun same => line.1 (same ▸ List.mem_cons_self)
      have shorter : ∀ k, (l.drop k).length < length := by
        intro k
        rw [← count, List.length_drop, List.length_cons]
        omega
      have further : ∀ k, Line (l.drop k) := fun k => line.drop (k + 1)
      rw [List.cons_append, snarf, if_neg Bool.false_ne_true, if_neg nonzero]
      split
      · split
        · rename_i dollar
          have tail : (l ++ '\n'.toUInt8 :: rest).tail = l.drop 1 ++ '\n'.toUInt8 :: rest := by
            cases l with
            | nil => exact absurd (Option.some.inj dollar) (by decide)
            | cons _ _ => rfl
          rw [tail]
          rcases ih _ (shorter 1) rfl (further 1) tree (buf ++ [c]) with
            failed | ⟨tree', buf', same, leads'⟩
          · exact .inl failed
          · exact .inr ⟨tree', buf', same, (leads_append tree buf [c]).trans leads'⟩
        · split
          · exact .inl ⟨_, rfl⟩
          · rename_i var after read
            obtain ⟨k, rfl⟩ := getherevar_line read
            rcases ih _ (shorter k) rfl (further k) (flushed tree buf ++ [var]) [] with
              failed | ⟨tree', buf', same, leads'⟩
            · exact .inl failed
            · exact .inr ⟨tree', buf', same, (leads_flushed tree buf var).trans leads'⟩
      · rw [other]
        rcases ih _ (shorter 0) rfl (further 0) tree (buf ++ [c]) with
          failed | ⟨tree', buf', same, leads'⟩
        · exact .inl failed
        · exact .inr ⟨tree', buf', same, (leads_append tree buf [c]).trans leads'⟩

/-- A line that is not the marker is read up to its newline, or reading fails. -/
theorem snarf_line {eof : Text} (single : '\n'.toUInt8 ∉ eof) (quoted : Bool) (tree : List Tree)
    (buf : Text) {l : Text} (line : Line l) (other : l ≠ eof) (rest : Text) :
    (∃ error, snarf eof quoted true tree buf (l ++ '\n'.toUInt8 :: rest) = .error error) ∨
    ∃ tree' buf', snarf eof quoted true tree buf (l ++ '\n'.toUInt8 :: rest) =
        snarf eof quoted true tree' buf' rest ∧ leads tree buf <+: leads tree' buf' := by
  rw [snarf_start single quoted tree buf line rest, if_neg other]
  rcases snarf_inside eof quoted rest (line.drop (matched eof l)) tree
    (buf ++ l.take (matched eof l)) with failed | ⟨tree', buf', same, leads'⟩
  · exact .inl failed
  · exact .inr ⟨tree', buf', same, (leads_append tree buf _).trans leads'⟩

/-! ### Texts of numbered bodies -/

/-- A body: a line of `number` characters, then the marker that ends the document. -/
structure Body where
  number : Nat
  marker : Text
  deriving DecidableEq

/-- A line of a number of characters, without its newline. -/
def ruled (number : Nat) : Text := List.replicate number 'x'.toUInt8

def Body.text (body : Body) : Text :=
  ruled body.number ++ '\n'.toUInt8 :: (body.marker ++ ['\n'.toUInt8])

/-- Bodies one after the other, then a line that is not ended. -/
def written (bodies : List Body) (width : Nat) : Text :=
  bodies.flatMap Body.text ++ ruled width

theorem written_cons (body : Body) (bodies : List Body) (width : Nat) :
    written (body :: bodies) width = ruled body.number ++ '\n'.toUInt8 ::
      (body.marker ++ '\n'.toUInt8 :: written bodies width) := by
  unfold written Body.text
  rw [List.flatMap_cons]
  simp only [List.append_assoc, List.cons_append, List.nil_append]

/-- Does a document begin with the line of a number? -/
def Begins (number : Nat) (doc : Tree) : Prop :=
  ruled number ++ ['\n'.toUInt8] <+: leading doc

theorem mem_ruled {number : Nat} {c : UInt8} (member : c ∈ ruled number) : c = 'x'.toUInt8 :=
  List.eq_of_mem_replicate member

theorem ruled_line (number : Nat) : Line (ruled number) :=
  ⟨fun member => absurd (mem_ruled member) (by decide), fun member =>
    absurd (mem_ruled member) (by decide)⟩

theorem number_of_begins {number number' : Nat} {doc : Tree} (begins : Begins number doc)
    (begins' : Begins number' doc) : number = number' := by
  have count : ∀ {number : Nat}, ruled number ++ ['\n'.toUInt8] <+: leading doc →
      ((leading doc).takeWhile (· == 'x'.toUInt8)).length = number := by
    rintro number ⟨rest, same⟩
    rw [← same, List.append_assoc, ruled, List.takeWhile_append_of_pos, List.length_append,
      List.length_replicate]
    · rfl
    · intro c member
      exact beq_iff_eq.mpr (mem_ruled member)
  rw [← count begins, count begins']

/-- A line that is not ended is read to the end of the text, where reading fails. -/
theorem snarf_unended (eof : Text) (quoted : Bool) (number : Nat) (tree : List Tree) (buf : Text) :
    snarf eof quoted false tree buf (ruled number) =
      .error (.message (lit "incomplete here document")) := by
  induction number generalizing buf with
  | zero => rw [ruled, List.replicate_zero, snarf, if_neg Bool.false_ne_true]
  | succ number ih =>
    have tail : ruled (number + 1) = 'x'.toUInt8 :: ruled number := rfl
    rw [tail, snarf, if_neg Bool.false_ne_true, if_neg (show 'x'.toUInt8 ≠ 0 by decide),
      if_neg fun both : 'x'.toUInt8 = '$'.toUInt8 ∧ _ => absurd both.1 (by decide)]
    exact ih _

theorem snarf_ruled_unended {eof : Text} {number : Nat} (short : eof.length < number)
    (quoted : Bool) (tree : List Tree) (buf : Text) :
    snarf eof quoted true tree buf (ruled number) =
      .error (.message (lit "incomplete here document")) := by
  have within := matched_le_marker eof (ruled number)
  obtain ⟨more, left⟩ : ∃ more, number = matched eof (ruled number) + (more + 1) :=
    ⟨number - matched eof (ruled number) - 1, by omega⟩
  have after : (ruled number).drop (matched eof (ruled number)) = ruled (more + 1) := by
    generalize matched eof (ruled number) = k at left
    rw [left, ruled, List.drop_replicate, Nat.add_sub_cancel_left]
    rfl
  rw [snarf.eq_def, if_pos rfl, after]
  dsimp only
  rw [if_neg (show (ruled (more + 1)).head? ≠ some 0 from fun same =>
    absurd (Option.some.inj same) (by decide)), if_neg, snarf_unended]
  rintro ⟨-, empty | ended⟩
  · cases empty
  · exact absurd (Option.some.inj ended) (by decide)

section Reading

variable {eof : Text} {width : Nat} (single : '\n'.toUInt8 ∉ eof)

/-- A body that can be read, and that begins with a line longer than the marker. -/
def Body.Suits (eof : Text) (body : Body) : Prop := Line body.marker ∧ eof.length < body.number

include single

/-- A document read from inside a body ends with a body, and keeps its first piece. -/
theorem snarf_marker (short : eof.length < width) (quoted : Bool) {bodies : List Body} :
    (∀ body ∈ bodies, body.Suits eof) → ∀ {marker : Text}, Line marker →
    ∀ {tree : List Tree} {buf : Text} {doc : Tree} {rest : Text},
      snarf eof quoted true tree buf (marker ++ '\n'.toUInt8 :: written bodies width) =
        .ok (doc, rest) →
      ∃ others, others <:+ bodies ∧ rest = written others width ∧
        leads tree buf <+: leading doc := by
  induction bodies with
  | nil =>
    intro _ marker line tree buf doc rest read
    by_cases same : marker = eof
    · rw [snarf_start single quoted tree buf line, if_pos same] at read
      cases read
      exact ⟨[], List.suffix_rfl, rfl, leads_document tree buf⟩
    · rcases snarf_line single quoted tree buf line same (written [] width) with
        ⟨error, failed⟩ | ⟨tree', buf', continued, -⟩
      · rw [failed] at read
        cases read
      · rw [continued, written, List.flatMap_nil, List.nil_append,
          snarf_ruled_unended short] at read
        cases read
  | cons body bodies ih =>
    intro suit marker line tree buf doc rest read
    by_cases same : marker = eof
    · rw [snarf_start single quoted tree buf line, if_pos same] at read
      cases read
      exact ⟨body :: bodies, List.suffix_rfl, rfl, leads_document tree buf⟩
    · obtain ⟨⟨clean, longer⟩, others⟩ := List.forall_mem_cons.mp suit
      rcases snarf_line single quoted tree buf line same (written (body :: bodies) width) with
        ⟨error, failed⟩ | ⟨tree', buf', continued, leads'⟩
      · rw [failed] at read
        cases read
      have differs : ruled body.number ≠ eof := by
        rintro rfl
        rw [ruled, List.length_replicate] at longer
        exact Nat.lt_irrefl _ longer
      rw [continued, written_cons] at read
      rcases snarf_line single quoted tree' buf' (ruled_line body.number) differs
        (body.marker ++ '\n'.toUInt8 :: written bodies width) with
        ⟨error, failed⟩ | ⟨tree'', buf'', continued', leads''⟩
      · rw [failed] at read
        cases read
      rw [continued'] at read
      obtain ⟨left, suffix, rfl, last⟩ := ih others clean read
      exact ⟨left, suffix.trans (List.suffix_cons body bodies), rfl,
        (leads'.trans leads'').trans last⟩

/-- The first line of a body is read as it stands. -/
theorem snarf_ruled (quoted : Bool) {number : Nat} (longer : eof.length < number) (rest : Text) :
    snarf eof quoted true [] [] (ruled number ++ '\n'.toUInt8 :: rest) =
      snarf eof quoted true [] (ruled number ++ ['\n'.toUInt8]) rest := by
  have differs : ruled number ≠ eof := by
    rintro rfl
    rw [ruled, List.length_replicate] at longer
    exact Nat.lt_irrefl _ longer
  have plain : '$'.toUInt8 ∉ (ruled number).drop (matched eof (ruled number)) := fun member =>
    absurd (mem_ruled (List.mem_of_mem_drop member)) (by decide)
  rw [snarf_start single quoted [] [] (ruled_line number) rest, if_neg differs,
    snarf_plain eof quoted [] _ ((ruled_line number).drop _) (.inr plain), List.nil_append,
    List.take_append_drop]

/-- A document begins with the first line of the body where it is read, and ends with a body. -/
theorem snarfheredoc_written (short : eof.length < width) {quoted : Bool} {bodies : List Body}
    (suit : ∀ body ∈ bodies, body.Suits eof) {doc : Tree} {rest : Text}
    (read : snarfheredoc eof quoted (written bodies width) = .ok (doc, rest)) :
    ∃ body more others, bodies = body :: more ∧ others <:+ more ∧ rest = written others width ∧
      Begins body.number doc := by
  unfold snarfheredoc at read
  split at read
  · cases read
  cases bodies with
  | nil =>
    rw [written, List.flatMap_nil, List.nil_append, snarf_ruled_unended short] at read
    cases read
  | cons body more =>
    obtain ⟨⟨clean, longer⟩, suit⟩ := List.forall_mem_cons.mp suit
    rw [written_cons, snarf_ruled single quoted longer] at read
    obtain ⟨others, suffix, same, begins⟩ := snarf_marker single short quoted suit clean read
    exact ⟨body, more, others, rfl, suffix, same, begins⟩

/-- A body is read up to its own marker. -/
theorem snarfheredoc_own {quoted : Bool} (plain : quoted = true ∨ '$'.toUInt8 ∉ eof)
    (line : Line eof) {body : Body} (own : body.marker = eof) (longer : eof.length < body.number)
    (bodies : List Body) :
    ∃ doc, snarfheredoc eof quoted (written (body :: bodies) width) =
      .ok (doc, written bodies width) := by
  refine ⟨document [] (ruled body.number ++ ['\n'.toUInt8]), ?_⟩
  have typed : ¬(quoted = false ∧ '$'.toUInt8 ∈ eof) := by
    rintro ⟨rfl, dollar⟩
    exact plain.resolve_left Bool.false_ne_true dollar
  unfold snarfheredoc
  rw [if_neg typed, if_neg single, written_cons, snarf_ruled single quoted longer, own,
    snarf_start single quoted _ _ line, if_pos rfl]

end Reading

/-! ### The documents of a line -/

section Documents

variable (spelling : Text → Text)

/-- The marker of a queued word. -/
def markerOf : Tree → Text
  | nWord s | nQword s => spelling s
  | _ => []

/-- A marker up to which a document can be read: a single literal word on one line, without a
dollar sign unless it is quoted. -/
def Readable : Tree → Prop
  | nWord s => Line (spelling s) ∧ '$'.toUInt8 ∉ spelling s
  | nQword s => Line (spelling s)
  | _ => False

variable {spelling}

theorem Readable.line {eof : Tree} (readable : Readable spelling eof) :
    Line (markerOf spelling eof) := by
  cases eof with
  | nWord s => exact readable.1
  | nQword s => exact readable
  | _ => exact readable.elim

/-- The documents of a queue are read one after the other. -/
theorem readDocuments_cons {eof : Tree} {hereq : List Tree} {input rest : Text}
    {contents : List (Tree × Tree)}
    (read : readDocuments spelling (eof :: hereq) input = .ok (contents, rest)) :
    ∃ quoted doc between others,
      snarfheredoc (markerOf spelling eof) quoted input = .ok (doc, between) ∧
      readDocuments spelling hereq between = .ok (others, rest) ∧
      contents = (eof, doc) :: others := by
  have both : ∀ {snarfed : Except HereError (Tree × Text)},
      (snarfed >>= fun read => readDocuments spelling hereq read.2 >>= fun others =>
        .ok ((eof, read.1) :: others.1, others.2)) = .ok (contents, rest) →
      ∃ doc between others, snarfed = .ok (doc, between) ∧
        readDocuments spelling hereq between = .ok (others, rest) ∧
        contents = (eof, doc) :: others := by
    rintro (error | ⟨doc, between⟩) done
    · cases done
    · change (readDocuments spelling hereq between >>= _) = _ at done
      cases next : readDocuments spelling hereq between with
      | error error =>
        rw [next] at done
        cases done
      | ok result =>
        obtain ⟨others, rest⟩ := result
        rw [next] at done
        cases done
        exact ⟨doc, between, others, rfl, next, rfl⟩
  cases eof with
  | nWord s => exact ⟨false, both read⟩
  | nQword s => exact ⟨true, both read⟩
  | _ => cases read

theorem readDocuments_keys {eofs : List Tree} {input rest : Text} {contents : List (Tree × Tree)}
    (read : readDocuments spelling eofs input = .ok (contents, rest)) :
    contents.map Prod.fst = eofs := by
  induction eofs generalizing input contents with
  | nil =>
    cases read
    rfl
  | cons eof eofs ih =>
    obtain ⟨quoted, doc, between, others, -, next, rfl⟩ := readDocuments_cons read
    rw [List.map_cons, ih next]

/-- The documents read from bodies, by whatever markers, begin with different bodies, in their
order. -/
theorem readDocuments_written {eofs : List Tree} {bodies : List Body} {width : Nat}
    (short : ∀ eof ∈ eofs, (markerOf spelling eof).length < width)
    (suit : ∀ eof ∈ eofs, ∀ body ∈ bodies, body.Suits (markerOf spelling eof)) {rest : Text}
    {contents : List (Tree × Tree)}
    (read : readDocuments spelling eofs (written bodies width) = .ok (contents, rest)) :
    ∃ starts, starts.Sublist bodies ∧
      List.Forall₂ (fun pair body => Begins body.number pair.2) contents starts := by
  induction eofs generalizing bodies contents with
  | nil =>
    cases read
    exact ⟨[], List.nil_sublist bodies, .nil⟩
  | cons eof eofs ih =>
    obtain ⟨quoted, doc, between, others, first, next, rfl⟩ := readDocuments_cons read
    obtain ⟨shorter, short⟩ := List.forall_mem_cons.mp short
    obtain ⟨suits, suit⟩ := List.forall_mem_cons.mp suit
    have single : '\n'.toUInt8 ∉ markerOf spelling eof := by
      intro member
      unfold snarfheredoc at first
      split at first
      · cases first
      · cases first
    obtain ⟨body, more, left, rfl, suffix, rfl, begins⟩ :=
      snarfheredoc_written single shorter suits first
    have remaining : ∀ other ∈ left, other ∈ body :: more := fun other member =>
      List.mem_cons_of_mem body (suffix.subset member)
    obtain ⟨starts, sublist, all⟩ :=
      ih short (fun eof member body kept => suit eof member body (remaining body kept)) next
    exact ⟨body :: starts, .cons_cons body (sublist.trans suffix.sublist), .cons begins all⟩

/-- Bodies with the markers of the queue are read. -/
theorem readDocuments_own {eofs : List Tree} {bodies : List Body} {width : Nat}
    (readable : ∀ eof ∈ eofs, Readable spelling eof)
    (own : List.Forall₂ (fun eof body => body.marker = markerOf spelling eof ∧
      (markerOf spelling eof).length < body.number) eofs bodies) :
    ∃ contents, readDocuments spelling eofs (written bodies width) =
      .ok (contents, written [] width) := by
  induction own with
  | nil => exact ⟨[], rfl⟩
  | @cons eof body eofs bodies first own ih =>
    obtain ⟨reads, readable⟩ := List.forall_mem_cons.mp readable
    obtain ⟨others, rest⟩ := ih readable
    have snarfed : ∀ quoted, quoted = true ∨ '$'.toUInt8 ∉ markerOf spelling eof →
        ∃ doc, snarfheredoc (markerOf spelling eof) quoted (written (body :: bodies) width) =
          .ok (doc, written bodies width) := fun quoted plain =>
      snarfheredoc_own reads.line.1 plain reads.line first.1 first.2 bodies
    cases eof with
    | nWord s =>
      obtain ⟨doc, read⟩ := snarfed false (.inr reads.2)
      refine ⟨(nWord s, doc) :: others, ?_⟩
      rw [readDocuments, show snarfheredoc (spelling s) false _ = _ from read]
      change (readDocuments spelling eofs (written bodies width) >>= fun _ => _) = _
      rw [rest]
      rfl
    | nQword s =>
      obtain ⟨doc, read⟩ := snarfed true (.inl rfl)
      refine ⟨(nQword s, doc) :: others, ?_⟩
      rw [readDocuments, show snarfheredoc (spelling s) true _ = _ from read]
      change (readDocuments spelling eofs (written bodies width) >>= fun _ => _) = _
      rw [rest]
      rfl
    | _ => exact reads.elim

end Documents

end Desh
