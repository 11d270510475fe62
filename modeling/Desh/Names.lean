/-
This file proves what protects a name in the environment and what does not.
`%F` prints an identifier, from which `%N` reads the name again whatever stands
behind it in memory. A name nobody printed may end inside an escape, and there
`%N` takes the NUL for a digit and reads on behind it.
-/

import Desh.Initenv

namespace Desh

/-! ### Identifiers -/

/-- The names other shells know: letters, digits and underscores, and no digit in front. -/
structure IsIdentifier (s : Text) : Prop where
  nonempty : s ≠ []
  word : ∀ c ∈ s, isalnum c ∨ c = underscore
  start : ∀ c ∈ s.head?, isdigit c = false

theorem hexDigits_spec (c : UInt8) :
    ∃ a b h1 h2, hexDigits c = [a, b] ∧ isalnum a ∧ isalnum b ∧ hexIndex a = some h1 ∧
      hexIndex b = some h2 ∧ UInt8.ofNat (h1 <<< 4 ||| h2) = c := by
  refine forall_byte (fun value => ?_) c
  have each : ∀ value : Fin 256, ∃ a b, hexDigits (UInt8.ofNat value) = [a, b] ∧
      (isalnum a && isalnum b && (hexIndex a).any fun h1 => (hexIndex b).any fun h2 =>
        UInt8.ofNat (h1 <<< 4 ||| h2) == UInt8.ofNat value) := by
    intro value
    refine ⟨(Nat.digitChar ((UInt8.ofNat value).toNat / 16)).toUInt8,
      (Nat.digitChar ((UInt8.ofNat value).toNat % 16)).toUInt8, rfl, ?_⟩
    revert value
    decide +kernel
  obtain ⟨a, b, same, holds⟩ := each value
  rw [Bool.and_eq_true, Bool.and_eq_true, Option.any_eq_true] at holds
  obtain ⟨⟨alnumA, alnumB⟩, h1, isH1, holds⟩ := holds
  rw [Option.any_eq_true] at holds
  obtain ⟨h2, isH2, byte⟩ := holds
  exact ⟨a, b, h1, h2, same, alnumA, alnumB, isH1, isH2, beq_iff_eq.mp byte⟩

/-- The byte of `%F`'s loop is copied. -/
def isCopied (first : Bool) (c : UInt8) (s : Text) : Bool :=
  (if first then isalpha c else isalnum c) || (c == 95 && s.head? != some 95)

theorem fconvLoop_cons (first : Bool) (c : UInt8) (s : Text) :
    fconvLoop first (c :: s) =
      (if isCopied first c s then [c] else lit "__" ++ hexDigits c) ++ fconvLoop false s := rfl

theorem fconvLoop_word (first : Bool) (s : Text) :
    ∀ c ∈ fconvLoop first s, isalnum c ∨ c = underscore := by
  induction s generalizing first with
  | nil => exact nofun
  | cons c s ih =>
    rw [fconvLoop_cons]
    refine List.forall_mem_append.mpr ⟨?_, ih false⟩
    split
    · rename_i copied
      refine List.forall_mem_singleton.mpr ?_
      rcases Bool.or_eq_true _ _ ▸ copied with letter | raw
      · left
        cases first
        · exact letter
        · exact Bool.or_eq_true _ _ ▸ .inl letter
      · exact .inr (beq_iff_eq.mp (Bool.and_eq_true _ _ ▸ raw).1)
    · obtain ⟨a, b, h1, h2, same, alnumA, alnumB, -⟩ := hexDigits_spec c
      rw [same]
      exact List.forall_mem_cons.mpr ⟨.inr rfl, List.forall_mem_cons.mpr ⟨.inr rfl,
        List.forall_mem_cons.mpr ⟨.inl alnumA, List.forall_mem_singleton.mpr (.inl alnumB)⟩⟩⟩

theorem isIdentifier_fconv {name : Text} (nonempty : name ≠ []) : IsIdentifier (fconv name) := by
  cases name with
  | nil => exact absurd rfl nonempty
  | cons c s =>
    refine ⟨?_, fconvLoop_word true (c :: s), ?_⟩
    · rw [fconv, fconvLoop_cons]
      split <;> exact List.cons_ne_nil _ _
    · rw [fconv, fconvLoop_cons]
      split
      · rename_i copied
        rintro _ ⟨⟩
        have each : ∀ c : UInt8, isalpha c = true ∨ c = 95 → isdigit c = false :=
          fun c => forall_byte (by decide +kernel) c
        refine each c ?_
        rcases Bool.or_eq_true _ _ ▸ copied with letter | raw
        · exact .inl letter
        · exact .inr (beq_iff_eq.mp (Bool.and_eq_true _ _ ▸ raw).1)
      · rintro _ ⟨⟩
        decide

/-! ### Reading a printed name -/

/-- An escape `%F` printed is read as its byte. -/
theorem nconv_hexDigits (c : UInt8) (memory : Text) :
    nconv (lit "__" ++ hexDigits c ++ memory) = (nconv memory).map (c :: ·) := by
  obtain ⟨a, b, h1, h2, same, -, -, isH1, isH2, byte⟩ := hexDigits_spec c
  have shape : lit "__" ++ [a, b] ++ memory = underscore :: underscore :: a :: b :: memory := rfl
  rw [same, shape, nconv, if_neg (by decide), if_pos ⟨rfl, rfl⟩, isH1, isH2]
  simp only [byte]

/-- An underscore in front of an escape is read as itself. -/
theorem nconv_raw (b : UInt8) (memory : Text) :
    nconv (underscore :: underscore :: underscore :: b :: memory) =
      (nconv (underscore :: underscore :: b :: memory)).map (underscore :: ·) := by
  have other : hexIndex underscore = none := by decide
  rw [nconv, if_neg (by decide), if_pos ⟨rfl, rfl⟩, other]

/-- A copied underscore has no underscore behind it in the name. -/
theorem head_of_copied {first : Bool} {d : UInt8} {s : Text}
    (copied : isCopied first underscore (d :: s) = true) : d ≠ underscore := by
  rintro rfl
  have noLetter : isalpha underscore = false := by decide
  have noWord : isalnum underscore = false := by decide
  have raw : (underscore == 95) = true := by decide
  have same : (some underscore != some (95 : UInt8)) = false := by decide
  rw [isCopied, noLetter, noWord, ite_self, raw, List.head?_cons, same] at copied
  cases copied

/-- What follows a byte that was copied is read after it. -/
theorem nconv_copied {first : Bool} {c : UInt8} {s : Text} (behind : Text) (nonzero : c ≠ 0)
    (copied : isCopied first c s = true) :
    nconv (c :: (fconvLoop false s ++ 0 :: behind)) =
      (nconv (fconvLoop false s ++ 0 :: behind)).map (c :: ·) := by
  cases s with
  | nil => exact nconv_plain _ nonzero fun both => absurd both.2 (by decide)
  | cons d s =>
    rw [fconvLoop_cons]
    split
    · refine nconv_plain _ nonzero fun both => ?_
      obtain ⟨rfl, same⟩ := both
      exact head_of_copied copied same
    · by_cases raw : c = underscore
      · obtain ⟨a, b, -, -, same, -⟩ := hexDigits_spec d
        rw [raw, same]
        exact nconv_raw a _
      · exact nconv_plain _ nonzero fun both => raw both.1

/-- `%N` reads what `%F` prints, and nothing behind it. -/
theorem nconv_fconvLoop (first : Bool) (s behind : Text) (nulFree : NulFree s) :
    nconv (fconvLoop first s ++ 0 :: behind) = some s := by
  induction s generalizing first with
  | nil => exact nconv_zero behind
  | cons c s ih =>
    obtain ⟨nonzero, nulFree⟩ := nulFree_cons.mp nulFree
    rw [fconvLoop_cons]
    split
    · rename_i copied
      rw [List.singleton_append, List.cons_append, nconv_copied behind nonzero copied,
        ih false nulFree]
      rfl
    · rw [List.append_assoc, nconv_hexDigits, ih false nulFree]
      rfl

/-- A name that is printed for the environment is an identifier, from which it is read back;
different names are printed differently. -/
theorem fconv_roundTrip :
    (∀ name : Text, name ≠ [] → NulFree name →
      IsIdentifier (fconv name) ∧ ∀ behind, nconv (fconv name ++ 0 :: behind) = some name) ∧
    ∀ name name' : Text, NulFree name → NulFree name' → fconv name = fconv name' →
      name = name' := by
  refine ⟨fun name nonempty nulFree => ⟨isIdentifier_fconv nonempty, fun behind =>
    nconv_fconvLoop true name behind nulFree⟩, fun name name' nulFree nulFree' same => ?_⟩
  have read := nconv_fconvLoop true name [] nulFree
  have read' := nconv_fconvLoop true name' [] nulFree'
  rw [show fconvLoop true name = fconvLoop true name' from same, read'] at read
  exact (Option.some.inj read).symm

theorem fconv_roundTrip_underscores :
    fconv (lit "__-a") = lit "__5f___2da" ∧
      nconv (fconv (lit "__-a") ++ [0]) = some (lit "__-a") ∧ fconv (lit "_") ≠ fconv (lit "__") :=
  ⟨by decide, (fconv_roundTrip.1 (lit "__-a") (by decide) (by decide)).2 [], fun same =>
    absurd (fconv_roundTrip.2 (lit "_") (lit "__") (by decide) (by decide) same) (by decide)⟩

/-! ### Reading any name -/

/-- `%N` reads a name, stops at its NUL, and takes two underscores for an escape only where two
digits follow them, whatever stands behind the NUL, and also where no memory does. -/
def DecodesInside (name : Text) : Prop :=
  ∀ behind, nconv (name ++ 0 :: behind) = some (unfconv name)

/-- Does a name end inside an escape, with two underscores that no escape before them takes, or
with these and one digit? -/
def endsInEscape : Text → Bool
  | c :: u :: a :: b :: rest =>
      if c = underscore ∧ u = underscore ∧ (hexDigit a).isSome ∧ (hexDigit b).isSome then
        endsInEscape rest
      else endsInEscape (u :: a :: b :: rest)
  | [c, u, a] =>
      if c = underscore ∧ u = underscore ∧ (hexDigit a).isSome then true
      else endsInEscape [u, a]
  | [c, u] => c == underscore && u == underscore
  | _ => false

/-- A name is overread behind some memory, and so behind none, when it ends inside an escape. -/
theorem overreads_nil (name : Text) : overreads [] name = endsInEscape name := by
  induction name using overreads.induct with
  | case1 c u a b rest escape ih => rw [overreads, if_pos escape, endsInEscape, if_pos escape, ih]
  | case2 c u a b rest other ih => rw [overreads, if_neg other, endsInEscape, if_neg other, ih]
  | case3 c u a escape => rw [overreads, if_pos escape, endsInEscape, if_pos escape]
  | case4 c u a other ih => rw [overreads, if_neg other, endsInEscape, if_neg other, ih]
  | case5 c u both =>
    obtain ⟨rfl, rfl⟩ := both
    rfl
  | case6 c u other =>
    rw [overreads, if_neg other, endsInEscape]
    by_cases same : c = underscore
    · rw [beq_eq_false_iff_ne.mpr fun also => other ⟨same, also⟩, Bool.and_false]
    · rw [beq_eq_false_iff_ne.mpr same, Bool.false_and]
  | case7 name not4 not3 not2 =>
    rcases name with - | ⟨c, - | ⟨u, - | ⟨a, - | ⟨b, rest⟩⟩⟩⟩
    · rfl
    · rfl
    · exact absurd rfl (not2 c u)
    · exact absurd rfl (not3 c u a)
    · exact absurd rfl (not4 c u a b rest)

theorem overreads_of_behind {behind name : Text} (overread : overreads behind name = true) :
    overreads [] name = true := by
  induction name using overreads.induct with
  | case1 c u a b rest escape ih =>
    rw [overreads, if_pos escape] at overread ⊢
    exact ih overread
  | case2 c u a b rest other ih =>
    rw [overreads, if_neg other] at overread ⊢
    exact ih overread
  | case3 c u a escape => rw [overreads, if_pos escape]
  | case4 c u a other ih =>
    rw [overreads, if_neg other] at overread ⊢
    exact ih overread
  | case5 c u both =>
    obtain ⟨rfl, rfl⟩ := both
    rfl
  | case6 c u other =>
    rw [overreads, if_neg other] at overread
    cases overread
  | case7 name not4 not3 not2 =>
    rcases name with - | ⟨c, - | ⟨u, - | ⟨a, - | ⟨b, rest⟩⟩⟩⟩
    · cases overread
    · cases overread
    · exact absurd rfl (not2 c u)
    · exact absurd rfl (not3 c u a)
    · exact absurd rfl (not4 c u a b rest)

/-- Decoding stays inside a name exactly when the name does not end inside an escape. -/
theorem decodesInside_iff (name : Text) (nulFree : NulFree name) :
    DecodesInside name ↔ endsInEscape name = false := by
  rw [← overreads_nil]
  constructor
  · exact fun inside => (nconv_eq_iff [] name nulFree).mp (inside [])
  · intro whole behind
    refine (nconv_eq_iff behind name nulFree).mpr ?_
    rw [← Bool.not_eq_true]
    intro overread
    rw [overreads_of_behind overread] at whole
    cases whole

theorem decodesInside_escape : DecodesInside (lit "a__2d") :=
  (decodesInside_iff (lit "a__2d") (by decide)).mpr (by decide)

/-- Behind the name `A__`, which any parent process can export, the decoder reads on. -/
theorem not_decodesInside_underscores :
    ¬DecodesInside (lit "A__") ∧ nconv (lit "A__" ++ 0 :: lit "2=x" ++ [0]) ≠ some (lit "A__") := by
  refine ⟨fun inside => ?_, by decide⟩
  have read : nconv (lit "A__" ++ [0]) = some (unfconv (lit "A__")) := inside []
  exact absurd read (by decide)

end Desh
