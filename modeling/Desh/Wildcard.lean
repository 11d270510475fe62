/-
This file is about wildcard patterns over any alphabet: a pattern is a list of
atoms, each of which stands for one element or, a star, for any string. It says
which strings a pattern denotes, decides it, and splits a denoted string into
the pieces its wildcards stand for, each star being as short as the rest of the
pattern allows.
-/

import Mathlib.Tactic

namespace Wildcard

variable {α : Type}

/-! ### Patterns -/

/-- An atom: a given element, an element of a kind, or any string. The last two are wildcards. -/
inductive Atom (α : Type) where
  | literal (c : α)
  | one (accepts : α → Bool)
  | star

/-- The elements an atom that is no star stands for. -/
def Atom.takes [DecidableEq α] : Atom α → α → Bool
  | literal c, d => d = c
  | one accepts, d => accepts d
  | star, _ => false

/-- The strings a pattern denotes. -/
inductive Denotes [DecidableEq α] : List (Atom α) → List α → Prop where
  | nil : Denotes [] []
  | take {t : Atom α} {ts : List (Atom α)} {c : α} {s : List α} (takes : t.takes c = true)
      (rest : Denotes ts s) : Denotes (t :: ts) (c :: s)
  | star {ts : List (Atom α)} (u : List α) {s : List α} (rest : Denotes ts s) :
      Denotes (.star :: ts) (u ++ s)

section Inversion

variable [DecidableEq α]

/-- A string denoted by a pattern that starts with no star. -/
theorem Denotes.uncons {t : Atom α} {ts : List (Atom α)} {s : List α}
    (denotes : Denotes (t :: ts) s) (single : t ≠ .star) :
    ∃ c rest, s = c :: rest ∧ t.takes c = true ∧ Denotes ts rest := by
  cases denotes with
  | take takes rest => exact ⟨_, _, rfl, takes, rest⟩
  | star => exact absurd rfl single

/-- A string denoted by a pattern that starts with a star. -/
theorem Denotes.unstar {ts : List (Atom α)} {s : List α} (denotes : Denotes (.star :: ts) s) :
    ∃ u v, s = u ++ v ∧ Denotes ts v := by
  cases denotes with
  | take takes => cases takes
  | star u rest => exact ⟨u, _, rfl, rest⟩

end Inversion

/-! ### Matching -/

section Matching

variable [DecidableEq α]

/-- Does the pattern denote the string? -/
def isMatch : List (Atom α) → List α → Bool
  | [], s => s.isEmpty
  | .star :: ts, s => s.tails.any (isMatch ts)
  | t :: ts, s =>
      match s with
      | [] => false
      | c :: s => t.takes c && isMatch ts s

theorem isMatch_nil (s : List α) : isMatch [] s = s.isEmpty := rfl

theorem isMatch_star (ts : List (Atom α)) (s : List α) :
    isMatch (.star :: ts) s = s.tails.any (isMatch ts) := rfl

theorem isMatch_take_nil {t : Atom α} (single : t ≠ .star) (ts : List (Atom α)) :
    isMatch (t :: ts) [] = false := by
  cases t with
  | star => exact absurd rfl single
  | literal _ | one _ => rfl

theorem isMatch_take_cons {t : Atom α} (single : t ≠ .star) (ts : List (Atom α)) (c : α)
    (s : List α) : isMatch (t :: ts) (c :: s) = (t.takes c && isMatch ts s) := by
  cases t with
  | star => exact absurd rfl single
  | literal _ | one _ => rfl

theorem isMatch_star_iff (ts : List (Atom α)) (s : List α) :
    isMatch (.star :: ts) s = true ↔ ∃ u v, s = u ++ v ∧ isMatch ts v = true := by
  rw [isMatch_star, List.any_eq_true]
  constructor
  · rintro ⟨v, member, matched⟩
    obtain ⟨u, same⟩ := (List.mem_tails v s).mp member
    exact ⟨u, v, same.symm, matched⟩
  · rintro ⟨u, v, rfl, matched⟩
    exact ⟨v, (List.mem_tails v _).mpr ⟨u, rfl⟩, matched⟩

/-- A pattern matches exactly the strings it denotes. -/
theorem isMatch_iff (ts : List (Atom α)) (s : List α) : isMatch ts s = true ↔ Denotes ts s := by
  induction ts generalizing s with
  | nil =>
    rw [isMatch_nil, List.isEmpty_iff]
    refine ⟨fun empty => empty ▸ .nil, fun denotes => ?_⟩
    cases denotes
    rfl
  | cons t ts ih =>
    by_cases single : t = .star
    · subst single
      rw [isMatch_star_iff]
      constructor
      · rintro ⟨u, v, rfl, matched⟩
        exact .star u ((ih v).mp matched)
      · intro denotes
        obtain ⟨u, v, same, rest⟩ := denotes.unstar
        exact ⟨u, v, same, (ih v).mpr rest⟩
    · cases s with
      | nil =>
        rw [isMatch_take_nil single]
        refine iff_of_false Bool.false_ne_true fun denotes => ?_
        obtain ⟨_, _, same, -⟩ := denotes.uncons single
        cases same
      | cons c s =>
        rw [isMatch_take_cons single, Bool.and_eq_true, ih]
        constructor
        · rintro ⟨takes, rest⟩
          exact .take takes rest
        · intro denotes
          obtain ⟨_, _, same, takes, rest⟩ := denotes.uncons single
          obtain ⟨rfl, rfl⟩ := List.cons.inj same
          exact ⟨takes, rest⟩

/-- A second star changes nothing. -/
theorem isMatch_star_star (ts : List (Atom α)) (s : List α) :
    isMatch (.star :: .star :: ts) s = isMatch (.star :: ts) s := by
  rw [Bool.eq_iff_iff, isMatch_star_iff, isMatch_star_iff]
  constructor
  · rintro ⟨u, v, rfl, matched⟩
    obtain ⟨u', v', rfl, inner⟩ := (isMatch_star_iff ts v).mp matched
    exact ⟨u ++ u', v', (List.append_assoc u u' v').symm, inner⟩
  · rintro ⟨u, v, rfl, matched⟩
    exact ⟨[], u ++ v, rfl, (isMatch_star_iff ts _).mpr ⟨u, v, rfl, matched⟩⟩

/-- A pattern that ends with a star matches everything its rest is a star for. -/
theorem isMatch_star_only (s : List α) : isMatch [.star] s = true :=
  (isMatch_star_iff [] s).mpr ⟨s, [], (List.append_nil s).symm, rfl⟩

end Matching

/-! ### Suffixes -/

/-- The search for the first suffix, from the longest on and without the empty one, on which a
test succeeds: what is in front of it, and the suffix. -/
def findSuffix (test : List α → Bool) : List α → Option (List α × List α)
  | [] => none
  | c :: s => if test (c :: s) then some ([], c :: s)
      else (findSuffix test s).map fun (u, v) => (c :: u, v)

theorem findSuffix_some {test : List α → Bool} {s u v : List α}
    (found : findSuffix test s = some (u, v)) :
    s = u ++ v ∧ v ≠ [] ∧ test v = true ∧
      ∀ u' v', s = u' ++ v' → test v' = true → v' ≠ [] → u.length ≤ u'.length := by
  induction s generalizing u v with
  | nil => cases found
  | cons c s ih =>
    rw [findSuffix] at found
    split at found
    · rename_i holds
      obtain ⟨rfl, rfl⟩ := Prod.mk.inj (Option.some.inj found)
      exact ⟨rfl, nofun, holds, fun u' _ _ _ _ => Nat.zero_le _⟩
    · rename_i fails
      obtain ⟨⟨u₀, v₀⟩, inner, same⟩ := Option.map_eq_some_iff.mp found
      obtain ⟨rfl, rfl⟩ := Prod.mk.inj same
      obtain ⟨rfl, nonempty, holds, least⟩ := ih inner
      refine ⟨rfl, nonempty, holds, fun u' v' split holds' nonempty' => ?_⟩
      cases u' with
      | nil =>
        rw [List.nil_append] at split
        exact absurd (split ▸ holds') fails
      | cons d u' =>
        have rest := (List.cons.inj split).2
        exact Nat.succ_le_succ (least u' v' rest holds' nonempty')

theorem findSuffix_none {test : List α → Bool} {s : List α} (none : findSuffix test s = none)
    {u v : List α} (split : s = u ++ v) (nonempty : v ≠ []) : test v = false := by
  induction s generalizing u with
  | nil => exact absurd (List.append_eq_nil_iff.mp split.symm).2 nonempty
  | cons c s ih =>
    rw [findSuffix] at none
    split at none
    · cases none
    · rename_i fails
      cases u with
      | nil =>
        rw [List.nil_append] at split
        exact split ▸ Bool.eq_false_iff.mpr fails
      | cons d u => exact ih (Option.map_eq_none_iff.mp none) (List.cons.inj split).2

/-- Behind a star, a pattern that goes on with no star is searched for. -/
theorem isMatch_star_take [DecidableEq α] {t : Atom α} (single : t ≠ .star)
    (ts : List (Atom α)) (s : List α) :
    isMatch (.star :: t :: ts) s = (findSuffix (isMatch (t :: ts)) s).isSome := by
  rw [Bool.eq_iff_iff, isMatch_star_iff]
  cases search : findSuffix (isMatch (t :: ts)) s with
  | none =>
    refine iff_of_false ?_ nofun
    rintro ⟨u, v, split, matched⟩
    by_cases empty : v = []
    · rw [empty, isMatch_take_nil single] at matched
      cases matched
    · rw [findSuffix_none search split empty] at matched
      cases matched
  | some found =>
    obtain ⟨split, -, matched, -⟩ := findSuffix_some search
    exact iff_of_true ⟨found.1, found.2, split, matched⟩ rfl

/-! ### Pieces -/

section Pieces

variable [DecidableEq α]

/-- The pieces of a string that the wildcards of a pattern stand for, in order: each star has the
shortest one that leaves something the rest of the pattern denotes. -/
inductive Pieces : List (Atom α) → List α → List (List α) → Prop where
  | nil : Pieces [] [] []
  | literal {ts : List (Atom α)} (c : α) {s : List α} {pieces : List (List α)}
      (rest : Pieces ts s pieces) : Pieces (.literal c :: ts) (c :: s) pieces
  | one {ts : List (Atom α)} {accepts : α → Bool} {c : α} {s : List α} {pieces : List (List α)}
      (accepted : accepts c = true) (rest : Pieces ts s pieces) :
      Pieces (.one accepts :: ts) (c :: s) ([c] :: pieces)
  | star {ts : List (Atom α)} {u s : List α} {pieces : List (List α)} (rest : Pieces ts s pieces)
      (shortest : ∀ u' s', u ++ s = u' ++ s' → Denotes ts s' → u.length ≤ u'.length) :
      Pieces (.star :: ts) (u ++ s) (u :: pieces)

/-- Is the atom a wildcard? -/
def Atom.isWild : Atom α → Bool
  | literal _ => false
  | one _ | star => true

/-- The pattern with pieces in the places of its wildcards. -/
def fill : List (Atom α) → List (List α) → List α
  | [], _ => []
  | .literal c :: ts, pieces => c :: fill ts pieces
  | _ :: ts, pieces => pieces.headD [] ++ fill ts pieces.tail

/-- There is one piece for each wildcard. -/
theorem Pieces.length {ts : List (Atom α)} {s : List α} {pieces : List (List α)}
    (split : Pieces ts s pieces) : pieces.length = ts.countP Atom.isWild := by
  induction split with
  | nil => rfl
  | literal c _ ih => rw [ih, List.countP_cons_of_neg Bool.false_ne_true]
  | one _ _ ih => rw [List.length_cons, ih, List.countP_cons_of_pos rfl]
  | star _ _ ih => rw [List.length_cons, ih, List.countP_cons_of_pos rfl]

/-- The pieces give back the string. -/
theorem Pieces.fill {ts : List (Atom α)} {s : List α} {pieces : List (List α)}
    (split : Pieces ts s pieces) : Wildcard.fill ts pieces = s := by
  induction split with
  | nil => rfl
  | literal c _ ih => exact congrArg (c :: ·) ih
  | one _ _ ih => exact congrArg (_ :: ·) ih
  | star _ _ ih => exact congrArg (_ ++ ·) ih

/-- A string with pieces is one the pattern denotes. -/
theorem Pieces.denotes {ts : List (Atom α)} {s : List α} {pieces : List (List α)}
    (split : Pieces ts s pieces) : Denotes ts s := by
  induction split with
  | nil => exact .nil
  | literal c _ ih => exact .take (decide_eq_true rfl) ih
  | one accepted _ ih => exact .take accepted ih
  | star _ _ ih => exact .star _ ih

/-- A string has pieces in one way. -/
theorem Pieces.unique {ts : List (Atom α)} {s : List α} {pieces pieces' : List (List α)}
    (split : Pieces ts s pieces) (split' : Pieces ts s pieces') : pieces = pieces' := by
  induction ts generalizing s pieces pieces' with
  | nil =>
    cases split
    cases split'
    rfl
  | cons t ts ih =>
    cases t with
    | literal c =>
      cases split with
      | literal _ rest =>
        cases split' with
        | literal _ rest' => exact ih rest rest'
    | one accepts =>
      cases split with
      | one _ rest =>
        cases split' with
        | one _ rest' => exact congrArg _ (ih rest rest')
    | star =>
      generalize whole : s = s' at split'
      cases split with
      | star rest shortest =>
        cases split' with
        | star rest' shortest' =>
          have lengths := Nat.le_antisymm (shortest _ _ whole rest'.denotes)
            (shortest' _ _ whole.symm rest.denotes)
          obtain ⟨rfl, rfl⟩ := List.append_inj whole lengths
          exact congrArg _ (ih rest rest')

/-- The pieces of a string, `none` when a star that is not the last atom finds no suffix. -/
def extract : List (Atom α) → List α → Option (List (List α))
  | [], _ => some []
  | [.star], s => some [s]
  | .star :: ts, s =>
      match findSuffix (isMatch ts) s with
      | none => none
      | some (u, v) => (extract ts v).map (u :: ·)
  | .literal _ :: ts, s =>
      match s with
      | [] => none
      | _ :: s => extract ts s
  | .one accepts :: ts, s =>
      match s with
      | [] => none
      | c :: s => if accepts c then (extract ts s).map ([c] :: ·) else none

theorem extract_star {ts : List (Atom α)} (several : ts ≠ []) (s : List α) :
    extract (.star :: ts) s =
      match findSuffix (isMatch ts) s with
      | none => none
      | some (u, v) => (extract ts v).map (u :: ·) := by
  cases ts with
  | nil => exact absurd rfl several
  | cons t ts => rfl

/-- What is extracted from a string the pattern denotes are its pieces. -/
theorem pieces_of_extract {ts : List (Atom α)} {s : List α} {pieces : List (List α)}
    (denotes : Denotes ts s) (extracted : extract ts s = some pieces) : Pieces ts s pieces := by
  induction ts generalizing s pieces with
  | nil =>
    cases denotes
    cases extracted
    exact .nil
  | cons t ts ih =>
    cases t with
    | literal c =>
      cases denotes with
      | take takes rest =>
        rw [Atom.takes, decide_eq_true_eq] at takes
        subst takes
        exact .literal _ (ih rest extracted)
    | one accepts =>
      cases denotes with
      | take takes rest =>
        have accepted : accepts _ = true := takes
        rw [extract, if_pos accepted] at extracted
        obtain ⟨inner, found, rfl⟩ := Option.map_eq_some_iff.mp extracted
        exact .one accepted (ih rest found)
    | star =>
      cases ts with
      | nil =>
        obtain rfl : [s] = pieces := Option.some.inj extracted
        have last := Pieces.star (u := s) Pieces.nil fun u' s' split denotes' => by
          cases denotes'
          rw [List.append_nil, List.append_nil] at split
          exact (congrArg List.length split).le
        rwa [List.append_nil] at last
      | cons t ts =>
        rw [extract_star (by nofun)] at extracted
        cases search : findSuffix (isMatch (t :: ts)) s with
        | none =>
          rw [search] at extracted
          cases extracted
        | some found =>
          obtain ⟨u, v⟩ := found
          rw [search] at extracted
          obtain ⟨inner, rest, rfl⟩ := Option.map_eq_some_iff.mp extracted
          obtain ⟨rfl, -, matched, least⟩ := findSuffix_some search
          refine .star (ih ((isMatch_iff _ _).mp matched) rest) fun u' s' split denotes' => ?_
          by_cases empty : s' = []
          · have lengths := congrArg List.length split
            rw [empty, List.append_nil, List.length_append] at lengths
            omega
          · exact least u' s' split ((isMatch_iff _ _).mpr denotes') empty

/-! ### When there are no pieces -/

/-- A pattern that ends with a star denotes every string that continues one it denotes. -/
theorem Denotes.append {ts : List (Atom α)} {s : List α}
    (denotes : Denotes (ts ++ [.star]) s) (w : List α) : Denotes (ts ++ [.star]) (s ++ w) := by
  induction ts generalizing s with
  | nil =>
    cases denotes with
    | take takes => cases takes
    | star u rest =>
      cases rest
      have all := Denotes.star (u ++ w) (Denotes.nil (α := α))
      rwa [List.append_nil] at all ⊢
  | cons t ts ih =>
    by_cases single : t = .star
    · subst single
      obtain ⟨u, v, rfl, rest⟩ := denotes.unstar
      rw [List.append_assoc]
      exact .star u (ih rest)
    · obtain ⟨c, s, rfl, takes, rest⟩ := denotes.uncons single
      exact .take takes (ih rest)

/-- A pattern that denotes a prefix of a string, and part of it further on, denotes a prefix that
ends no later than that part. -/
theorem Denotes.earlier {ts : List (Atom α)} {p r x q w : List α} (first : Denotes ts p)
    (later : Denotes ts q) (same : p ++ r = x ++ q ++ w) :
    ∃ p' r', p ++ r = p' ++ r' ∧ Denotes ts p' ∧ p'.length ≤ x.length + q.length := by
  induction ts generalizing p x q with
  | nil =>
    cases first
    exact ⟨[], r, rfl, .nil, Nat.zero_le _⟩
  | cons t ts ih =>
    by_cases single : t = .star
    · subst single
      obtain ⟨u, v, rfl, rest⟩ := later.unstar
      refine ⟨x ++ (u ++ v), w, same, ?_, (List.length_append).le⟩
      rw [← List.append_assoc]
      exact .star (x ++ u) rest
    · obtain ⟨c, p, rfl, takes, rest⟩ := first.uncons single
      obtain ⟨d, q, rfl, -, rest'⟩ := later.uncons single
      have step : p ++ r = (x ++ [d]).tail ++ q ++ w := by
        cases x with
        | nil => exact (List.cons.inj same).2
        | cons e x =>
          have tails : p ++ r = x ++ d :: q ++ w := (List.cons.inj same).2
          rw [tails, List.cons_append, List.tail_cons, List.append_assoc x [d] q]
          rfl
      obtain ⟨p', r', split, denotes, bound⟩ := ih rest rest' step
      refine ⟨c :: p', r', congrArg (c :: ·) split, .take takes denotes, ?_⟩
      rw [List.length_tail, List.length_append, List.length_singleton] at bound
      rw [List.length_cons, List.length_cons]
      omega

/-- A pattern that denotes the empty string is all stars. -/
theorem Denotes.stars {ts : List (Atom α)} (denotes : Denotes ts []) :
    ts = List.replicate ts.length .star := by
  induction ts with
  | nil => rfl
  | cons t ts ih =>
    by_cases single : t = .star
    · subst single
      obtain ⟨u, v, same, rest⟩ := denotes.unstar
      obtain ⟨-, rfl⟩ := List.append_eq_nil_iff.mp same.symm
      exact congrArg (.star :: ·) (ih rest)
    · obtain ⟨_, _, same, -⟩ := denotes.uncons single
      cases same

/-- Stars, at least one, denote every string. -/
theorem Denotes.of_stars (count : Nat) (s : List α) :
    Denotes (List.replicate (count + 1) .star) s := by
  induction count generalizing s with
  | zero =>
    have all := Denotes.star s (Denotes.nil (α := α))
    rwa [List.append_nil] at all
  | succ count ih => exact .star [] (ih s)

/-- The pieces are missing exactly when the pattern ends with two stars, and no shorter prefix of
the string is denoted: the case of a pattern that starts with a star. -/
theorem extract_star_eq_none_iff {ts : List (Atom α)} {s : List α}
    (denotes : Denotes (.star :: ts) s)
    (rest_iff : ∀ {v : List α}, Denotes ts v → (extract ts v = none ↔
      (∃ front, ts = front ++ [.star, .star]) ∧ ∀ u w, v = u ++ w → w ≠ [] → ¬Denotes ts u)) :
    extract (.star :: ts) s = none ↔ (∃ front, .star :: ts = front ++ [.star, .star]) ∧
      ∀ u v, s = u ++ v → v ≠ [] → ¬Denotes (.star :: ts) u := by
  cases ts with
  | nil =>
    refine iff_of_false nofun ?_
    rintro ⟨⟨front, same⟩, -⟩
    have lengths := congrArg List.length same
    rw [List.length_append, List.length_cons, List.length_cons] at lengths
    simp at lengths
  | cons t ts =>
    rw [extract_star (by nofun)]
    cases search : findSuffix (isMatch (t :: ts)) s with
    | none =>
      refine iff_of_true rfl ?_
      obtain ⟨u, v, rfl, rest⟩ := denotes.unstar
      have empty : v = [] := by
        by_contra nonempty
        have fails := findSuffix_none search rfl nonempty
        rw [(isMatch_iff _ _).mpr rest] at fails
        cases fails
      subst empty
      have stars : t :: ts = List.replicate (ts.length + 1) .star := rest.stars
      have none : u ++ [] = [] := by
        by_contra nonempty
        have fails := findSuffix_none search (List.nil_append (u ++ [])).symm nonempty
        rw [stars, (isMatch_iff _ _).mpr (.of_stars _ _)] at fails
        cases fails
      refine ⟨⟨List.replicate ts.length .star, ?_⟩, fun a b split nonempty => ?_⟩
      · rw [stars, ← List.replicate_succ, List.replicate_succ', List.replicate_succ',
          List.append_assoc]
        rfl
      · rw [none] at split
        exact absurd (List.append_eq_nil_iff.mp split.symm).2 nonempty
    | some found =>
      obtain ⟨u, v⟩ := found
      obtain ⟨rfl, -, matched, least⟩ := findSuffix_some search
      have rest := (isMatch_iff _ _).mp matched
      show (extract (t :: ts) v).map (u :: ·) = none ↔ _
      rw [Option.map_eq_none_iff, rest_iff rest]
      constructor
      · rintro ⟨⟨front, same⟩, none⟩
        refine ⟨⟨.star :: front, congrArg (.star :: ·) same⟩, fun a b split nonempty early => ?_⟩
        obtain ⟨x, q, rfl, inner⟩ := early.unstar
        -- The rest of the pattern ends with a star, so it denotes all that follows.
        have whole : Denotes (t :: ts) (q ++ b) := by
          have last : t :: ts = (front ++ [.star]) ++ [.star] := by
            rw [same, List.append_assoc]
            rfl
          rw [last] at inner ⊢
          exact inner.append b
        rw [List.append_assoc] at split
        have bound := least x (q ++ b) split ((isMatch_iff _ _).mpr whole) fun empty =>
          nonempty (List.append_eq_nil_iff.mp empty).2
        obtain ⟨y, rfl⟩ : ∃ y, x = u ++ y := by
          refine (List.prefix_of_prefix_length_le ⟨v, split⟩ ⟨q ++ b, rfl⟩ bound).imp ?_
          exact fun y same => same.symm
        rw [List.append_assoc, List.append_cancel_left_eq] at split
        obtain ⟨p', r', same', denotes', short⟩ :=
          Denotes.earlier (r := []) (x := y) (w := b) rest inner
            (by rw [List.append_nil, split, List.append_assoc])
        rw [List.append_nil] at same'
        refine none p' r' same' (fun empty => ?_) denotes'
        have lengths := congrArg List.length (same'.symm.trans split)
        have positive := List.length_pos_iff.mpr nonempty
        rw [empty, List.append_nil, List.length_append, List.length_append] at lengths
        omega
      · rintro ⟨⟨front, same⟩, none⟩
        cases front with
        | nil =>
          have last : t :: ts = [.star] := (List.cons.inj same).2
          rw [last] at none
          have nonempty : u ++ v ≠ [] := fun empty => by
            rw [(List.append_eq_nil_iff.mp empty).2] at search
            rw [(List.append_eq_nil_iff.mp empty).1] at search
            cases search
          exact absurd (.star [] (.of_stars 0 [])) (none [] (u ++ v) rfl nonempty)
        | cons x front =>
          refine ⟨⟨front, (List.cons.inj same).2⟩, fun a b split nonempty inner => ?_⟩
          subst split
          exact none (u ++ a) b (List.append_assoc u a b).symm nonempty (.star u inner)

/-- The pieces are missing exactly when the pattern ends with two stars, and no shorter prefix of
the string is denoted. -/
theorem extract_eq_none_iff {ts : List (Atom α)} {s : List α} (denotes : Denotes ts s) :
    extract ts s = none ↔ (∃ front, ts = front ++ [.star, .star]) ∧
      ∀ u v, s = u ++ v → v ≠ [] → ¬Denotes ts u := by
  induction ts generalizing s with
  | nil =>
    refine iff_of_false nofun ?_
    rintro ⟨⟨front, same⟩, -⟩
    exact absurd same.symm (by simp)
  | cons t ts ih =>
    by_cases single : t = .star
    · subst single
      exact extract_star_eq_none_iff denotes fun rest => ih rest
    · obtain ⟨c, s, rfl, takes, rest⟩ := denotes.uncons single
      have step : extract (t :: ts) (c :: s) = none ↔ extract ts s = none := by
        cases t with
        | star => exact absurd rfl single
        | literal _ => exact Iff.rfl
        | one accepts =>
          rw [extract, if_pos (show accepts c = true from takes), Option.map_eq_none_iff]
      rw [step, ih rest]
      refine and_congr ?_ ?_
      · constructor
        · rintro ⟨front, rfl⟩
          exact ⟨t :: front, rfl⟩
        · rintro ⟨_ | ⟨_, front⟩, same⟩
          · exact absurd (List.cons.inj same).1 single
          · exact ⟨front, (List.cons.inj same).2⟩
      · constructor
        · rintro none u v split nonempty denotes'
          obtain ⟨d, u, rfl, -, inner⟩ := denotes'.uncons single
          exact none u v (List.cons.inj split).2 nonempty inner
        · rintro none u v rfl nonempty inner
          exact none (c :: u) v rfl nonempty (.take takes inner)

end Pieces

/-! ### Comparisons a matcher makes -/

section Comparisons

variable [DecidableEq α]

/-- Does a property hold of every suffix but the empty one, from the longest on and up to the first
on which a test succeeds? -/
def UntilFound (test : List α → Bool) (holds : List α → Prop) : List α → Prop
  | [] => True
  | c :: s => holds (c :: s) ∧ (test (c :: s) = false → UntilFound test holds s)

/-- Some atoms of a pattern are marked as allowed. A matcher that reads the string from the left,
takes several stars for one and tries the suffixes behind a star from the longest on compares an
element with an allowed atom only. -/
def Allowed : List (Atom α × Bool) → List α → Prop
  | [], _ => True
  | (.star, _) :: ts, s =>
      match ts with
      | [] => True
      | (.star, _) :: _ => Allowed ts s
      | _ => UntilFound (isMatch (ts.map Prod.fst)) (Allowed ts) s
  | (t, allowed) :: ts, s =>
      match s with
      | [] => True
      | c :: s => allowed = true ∧ (t.takes c = true → Allowed ts s)

theorem allowed_star_star (b b' : Bool) (ts : List (Atom α × Bool)) (s : List α) :
    Allowed ((.star, b) :: (.star, b') :: ts) s = Allowed ((.star, b') :: ts) s := rfl

theorem allowed_star_cons (b : Bool) {t : Atom α} (single : t ≠ .star) (b' : Bool)
    (ts : List (Atom α × Bool)) (s : List α) :
    Allowed ((.star, b) :: (t, b') :: ts) s =
      UntilFound (isMatch (t :: ts.map Prod.fst)) (Allowed ((t, b') :: ts)) s := by
  cases t with
  | star => exact absurd rfl single
  | literal _ | one _ => rfl

theorem allowed_take_nil {t : Atom α} (single : t ≠ .star) (b : Bool)
    (ts : List (Atom α × Bool)) : Allowed ((t, b) :: ts) [] := by
  cases t with
  | star => exact absurd rfl single
  | literal _ | one _ => exact trivial

theorem allowed_take_cons {t : Atom α} (single : t ≠ .star) (b : Bool)
    (ts : List (Atom α × Bool)) (c : α) (s : List α) :
    Allowed ((t, b) :: ts) (c :: s) = (b = true ∧ (t.takes c = true → Allowed ts s)) := by
  cases t with
  | star => exact absurd rfl single
  | literal _ | one _ => rfl

omit [DecidableEq α] in
theorem UntilFound.of_forall {test : List α → Bool} {holds : List α → Prop}
    (all : ∀ s, holds s) (s : List α) : UntilFound test holds s := by
  induction s with
  | nil => exact trivial
  | cons c s ih => exact ⟨all _, fun _ => ih⟩

/-- Every comparison is allowed where every atom is. -/
theorem allowed_of_forall {ts : List (Atom α × Bool)} (all : ∀ t ∈ ts, t.2 = true) (s : List α) :
    Allowed ts s := by
  induction ts generalizing s with
  | nil => exact trivial
  | cons t ts ih =>
    have rest := ih fun t member => all t (List.mem_cons_of_mem _ member)
    obtain ⟨t, b⟩ := t
    have allowed : b = true := all (t, b) List.mem_cons_self
    by_cases single : t = .star
    · subst single
      match ts with
      | [] => exact trivial
      | (.star, _) :: ts => exact rest s
      | (.literal _, _) :: ts | (.one _, _) :: ts => exact .of_forall rest s
    · cases s with
      | nil => exact allowed_take_nil single b ts
      | cons c s =>
        rw [allowed_take_cons single]
        exact ⟨allowed, fun _ => rest s⟩

omit [DecidableEq α] in
/-- The property holds of the suffix that the search finds. -/
theorem UntilFound.found {test : List α → Bool} {holds : List α → Prop} {s u v : List α}
    (until_found : UntilFound test holds s) (search : findSuffix test s = some (u, v)) :
    holds v := by
  induction s generalizing u v with
  | nil => cases search
  | cons c s ih =>
    rw [findSuffix] at search
    split at search
    · obtain ⟨-, rfl⟩ := Prod.mk.inj (Option.some.inj search)
      exact until_found.1
    · rename_i fails
      obtain ⟨⟨u', v'⟩, inner, same⟩ := Option.map_eq_some_iff.mp search
      obtain ⟨-, rfl⟩ := Prod.mk.inj same
      exact ih (until_found.2 (Bool.eq_false_iff.mpr fails)) inner

/-- Behind a star the suffixes of a string that matches are tried until one matches. -/
theorem Allowed.untilFound {b : Bool} {ts : List (Atom α × Bool)} {s : List α}
    (allowed : Allowed ((.star, b) :: ts) s) (several : ts ≠ [])
    (matched : isMatch (.star :: ts.map Prod.fst) s = true) :
    UntilFound (isMatch (ts.map Prod.fst)) (Allowed ts) s := by
  match ts with
  | [] => exact absurd rfl several
  | (.literal _, _) :: ts | (.one _, _) :: ts => exact allowed
  | (.star, b') :: ts =>
    rw [List.map_cons, isMatch_star_star] at matched
    cases s with
    | nil => exact trivial
    | cons c s => exact ⟨allowed, fun fails => absurd (matched.symm.trans fails) nofun⟩

end Comparisons

end Wildcard
