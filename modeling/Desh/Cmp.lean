/-
This file models `$&cmp` (`prim-rel.cpp`) and the comparison of decimals below it
(`decimal.c`), which looks at the class of a difference. The decimal library and
`strcoll` are parameters that do what their standards say.

The difference of two infinities of the same sign is no number, which counts as
greater, and the difference of a negative and a positive zero is a negative zero,
which counts as less. The file proves that for all other strings the comparison
is antisymmetric and follows the order of the values.
-/

import Desh.Decimal
import Desh.Subscript

namespace Desh

open Decimal

/-! ### Numbers as strings -/

/-- What a numeric string denotes. -/
inductive Numeral where
  | inf (negative : Bool)
  | finite (negative : Bool) (value : ℚ)

/-- Whether a minus sign stands in front, and what stands behind the sign. -/
def signed (s : Text) : Bool × Text :=
  match s with
  | c :: rest =>
      if c = '-'.toUInt8 then (true, rest)
      else if c = '+'.toUInt8 then (false, rest)
      else (false, s)
  | [] => (false, s)

/-- The exponent of a numeric string. -/
def exponentOf (s : Text) : Option Int :=
  match s with
  | [] => some 0
  | c :: rest =>
      if c = 'e'.toUInt8 ∨ c = 'E'.toUInt8 then
        let (negative, digits) := signed rest
        if digits ≠ [] ∧ digits.all isdigit then
          some (if negative then -digitsValue digits else digitsValue digits)
        else none
      else none

/-- The spellings of an infinity, in small letters. -/
def isInfinity (s : Text) : Bool :=
  let small := s.map fun c => if 65 ≤ c ∧ c ≤ 90 then c + 32 else c
  small == lit "inf" || small == lit "infinity"

/-- What a string denotes, if it is a numeric string: digits with a decimal point among them, an
exponent and a sign, or an infinity. -/
def denoted (s : Text) : Option Numeral :=
  let (negative, s) := signed s
  if isInfinity s then some (.inf negative)
  else
    let whole := s.takeWhile isdigit
    let rest := s.dropWhile isdigit
    let fraction := if rest.head? = some '.'.toUInt8 then rest.tail.takeWhile isdigit else []
    let rest := if rest.head? = some '.'.toUInt8 then rest.tail.dropWhile isdigit else rest
    if whole ++ fraction = [] then none
    else
      (exponentOf rest).map fun exponent : Int =>
        .finite negative ((if negative then -1 else 1) * (digitsValue (whole ++ fraction) : ℚ) *
          10 ^ (exponent - fraction.length))

/-- A datum is the value, with its sign. -/
def Numeral.Exact {format : Format} : Numeral → Datum format → Prop
  | .inf negative, x => x = .inf negative
  | .finite negative v, .finite negative' coefficient exponent _ =>
      negative = negative' ∧ v = value negative' coefficient exponent
  | .finite .., _ => False

/-- Where a value stands in the order. -/
def Numeral.extended : Numeral → WithBot (WithTop ℚ)
  | .inf negative => if negative then ⊥ else ((⊤ : WithTop ℚ) : WithBot (WithTop ℚ))
  | .finite _ v => ((v : WithTop ℚ) : WithBot (WithTop ℚ))

/-! ### The libraries -/

/-- The format of `decimal128`. -/
def decimal128 : Format := ⟨34, -6176, 6111, by decide, by decide⟩

abbrev Decimal128 := Datum decimal128

/-- The decimal library: it reads a numeric string whose value is a datum as that datum, and
subtracts and classifies as the standard says. -/
structure DecNumber where
  decimal128FromString : Text → Decimal128
  decNumberSubtract : Decimal128 → Decimal128 → Decimal128
  decNumberClass : Decimal128 → DatumClass
  exact : ∀ s v, denoted s = some v → (∃ x : Decimal128, v.Exact x) →
    v.Exact (decimal128FromString s)
  subtracts : ∀ x y, Datum.Subtracts x y (decNumberSubtract x y)
  class_eq : ∀ x, decNumberClass x = x.class

/-- `strcoll`, a total preorder. -/
structure Collation where
  strcoll : Text → Text → Int
  swap : ∀ a b, (strcoll b a).sign = -(strcoll a b).sign
  trans : ∀ a b c, strcoll a b ≤ 0 → strcoll b c ≤ 0 → strcoll a c ≤ 0

/-! ### The comparison -/

section

variable (dec : DecNumber) (collation : Collation)

/-- `es_dec128_isinf`. -/
def es_dec128_isinf (x : Decimal128) : Bool :=
  match dec.decNumberClass x with
  | .NEG_INF | .POS_INF => true
  | _ => false

/-- `es_dec128_isnan`. -/
def es_dec128_isnan (x : Decimal128) : Bool :=
  match dec.decNumberClass x with
  | .SNAN | .QNAN => true
  | _ => false

/-- `es_dec128_compare`. -/
def es_dec128_compare (l r : Decimal128) : Int :=
  match dec.decNumberClass (dec.decNumberSubtract l r) with
  | .NEG_INF | .NEG_NORMAL | .NEG_SUBNORMAL | .NEG_ZERO => -1
  | .POS_NORMAL | .POS_SUBNORMAL | .POS_INF => 1
  | .POS_ZERO => 0
  | .SNAN | .QNAN => 2

/-- `es_dec128_lt`. -/
def es_dec128_lt (l r : Decimal128) : Bool := es_dec128_compare dec l r < 0

/-- `es_dec128_gt`. -/
def es_dec128_gt (l r : Decimal128) : Bool := es_dec128_compare dec l r > 0

/-- What `prim_cmp` finds for two strings. -/
def cmpValue (a b : Text) : Int :=
  let n := dec.decimal128FromString a
  if es_dec128_isnan dec n then collation.strcoll a b
  else
    let m := dec.decimal128FromString b
    if es_dec128_isnan dec m then collation.strcoll a b
    else if es_dec128_gt dec n m then 1
    else if es_dec128_lt dec n m then -1
    else 0

/-- `prim_cmp`. -/
def prim_cmp (list : List Text) : List Text :=
  let r :=
    match list with
    | a :: b :: _ => cmpValue dec collation a b
    | _ => 0
  [if r > 0 then lit "1" else if r < 0 then lit "-1" else lit "0"]

/-! ### What a comparison finds -/

theorem isnan_iff (x : Decimal128) : es_dec128_isnan dec x = true ↔ x.IsNan := by
  rw [es_dec128_isnan, dec.class_eq]
  cases x with
  | nan signaling => cases signaling <;> exact ⟨fun _ => trivial, fun _ => rfl⟩
  | inf negative => cases negative <;> simp [Datum.class, Datum.IsNan]
  | finite negative =>
    rw [Datum.class]
    split_ifs <;> simp [Datum.IsNan]

variable {dec}

theorem isinf_iff (x : Decimal128) :
    es_dec128_isinf dec x = true ↔ ∃ negative, x = .inf negative := by
  rw [es_dec128_isinf, dec.class_eq]
  cases x with
  | nan signaling => cases signaling <;> simp [Datum.class]
  | inf negative => cases negative <;> exact ⟨fun _ => ⟨_, rfl⟩, fun _ => rfl⟩
  | finite negative =>
    rw [Datum.class]
    split_ifs <;> simp

/-- What the class of a difference counts as. -/
theorem compare_rounds {l r : Decimal128} {d : ℚ} (large : (10 : ℚ) ^ decimal128.emin ≤ |d|)
    (rounds : (dec.decNumberSubtract l r).Rounds d) :
    es_dec128_compare dec l r = if d < 0 then -1 else 1 := by
  rw [es_dec128_compare, dec.class_eq]
  cases result : dec.decNumberSubtract l r with
  | nan signaling =>
    rw [result] at rounds
    exact rounds.elim
  | inf negative =>
    rw [result] at rounds
    obtain ⟨sign, -⟩ := rounds
    by_cases below : d < 0
    · rw [decide_eq_true below] at sign
      rw [if_pos below, sign]
      rfl
    · rw [decide_eq_false below] at sign
      rw [if_neg below, sign]
      rfl
  | finite negative coefficient exponent fits =>
    rw [result] at rounds
    have nonzero := coefficient_ne_zero large rounds
    obtain ⟨sign, -⟩ := rounds
    rw [Datum.class, if_neg nonzero]
    by_cases below : d < 0
    · rw [decide_eq_true below] at sign
      rw [if_pos below, sign, if_pos rfl, if_pos rfl]
      split_ifs <;> rfl
    · rw [decide_eq_false below] at sign
      rw [if_neg below, sign, if_neg Bool.false_ne_true, if_neg Bool.false_ne_true]
      split_ifs <;> rfl

theorem compare_finite (negative negative' : Bool) (coefficient coefficient' : Nat)
    (exponent exponent' : Int) (fits : decimal128.Fits coefficient exponent)
    (fits' : decimal128.Fits coefficient' exponent') :
    es_dec128_compare dec (.finite negative coefficient exponent fits)
        (.finite negative' coefficient' exponent' fits') =
      if value negative coefficient exponent < value negative' coefficient' exponent' then -1
      else if value negative' coefficient' exponent' < value negative coefficient exponent then 1
      else if negative && !negative' then -1 else 0 := by
  have subtracts := dec.subtracts (.finite negative coefficient exponent fits)
    (.finite negative' coefficient' exponent' fits')
  rw [Datum.Subtracts] at subtracts
  by_cases same : value negative coefficient exponent - value negative' coefficient' exponent' = 0
  · rw [if_pos same] at subtracts
    rw [sub_eq_zero] at same
    rw [if_neg same.not_lt, if_neg same.not_gt, es_dec128_compare, dec.class_eq]
    cases result : dec.decNumberSubtract (.finite negative coefficient exponent fits)
        (.finite negative' coefficient' exponent' fits') with
    | nan signaling | inf sign =>
      rw [result] at subtracts
      exact subtracts.elim
    | finite sign none' =>
      rw [result] at subtracts
      obtain ⟨rfl, rfl⟩ := subtracts
      rw [Datum.class, if_pos rfl]
      cases negative && !negative' <;> rfl
  · rw [if_neg same] at subtracts
    rw [compare_rounds (smallest_le_abs_sub fits fits' same) subtracts]
    rw [← ne_eq, sub_ne_zero] at same
    rcases lt_or_gt_of_ne same with less | less
    · rw [if_pos less, if_pos (sub_neg.mpr less)]
    · rw [if_neg less.not_gt, if_pos less, if_neg (by rw [sub_neg]; exact less.not_gt)]

theorem compare_inf (negative negative' : Bool) :
    es_dec128_compare dec (.inf negative) (.inf negative') =
      if negative = negative' then 2 else if negative then -1 else 1 := by
  have subtracts := dec.subtracts (.inf negative) (.inf negative')
  rw [Datum.Subtracts] at subtracts
  rw [es_dec128_compare, dec.class_eq]
  by_cases same : negative = negative'
  · rw [if_pos same] at subtracts ⊢
    cases result : dec.decNumberSubtract (.inf negative) (.inf negative') with
    | nan signaling => cases signaling <;> rfl
    | inf | finite =>
      rw [result] at subtracts
      exact subtracts.elim
  · rw [if_neg same] at subtracts ⊢
    rw [subtracts]
    cases negative <;> rfl

theorem compare_inf_finite (negative negative' : Bool) (coefficient : Nat) (exponent : Int)
    (fits : decimal128.Fits coefficient exponent) :
    es_dec128_compare dec (.inf negative) (.finite negative' coefficient exponent fits) =
      if negative then -1 else 1 := by
  have subtracts : _ = _ :=
    dec.subtracts (.inf negative) (.finite negative' coefficient exponent fits)
  rw [es_dec128_compare, dec.class_eq, subtracts]
  cases negative <;> rfl

theorem compare_finite_inf (negative negative' : Bool) (coefficient : Nat) (exponent : Int)
    (fits : decimal128.Fits coefficient exponent) :
    es_dec128_compare dec (.finite negative' coefficient exponent fits) (.inf negative) =
      if negative then 1 else -1 := by
  have subtracts : _ = _ :=
    dec.subtracts (.finite negative' coefficient exponent fits) (.inf negative)
  rw [es_dec128_compare, dec.class_eq, subtracts]
  cases negative <;> rfl

variable {collation}

/-- Two numbers. -/
theorem cmpValue_numbers {a b : Text} (left : ¬(dec.decimal128FromString a).IsNan)
    (right : ¬(dec.decimal128FromString b).IsNan) :
    cmpValue dec collation a b =
      (es_dec128_compare dec (dec.decimal128FromString a) (dec.decimal128FromString b)).sign := by
  rw [← isnan_iff dec] at left right
  rw [cmpValue, if_neg left, if_neg right, es_dec128_gt, es_dec128_lt]
  generalize es_dec128_compare dec _ _ = r
  simp only [decide_eq_true_eq]
  rcases lt_trichotomy r 0 with below | rfl | above
  · rw [if_neg (by omega), if_pos below, Int.sign_eq_neg_one_of_neg below]
  · rfl
  · rw [if_pos above, Int.sign_eq_one_of_pos above]

/-- A string that is no number. -/
theorem cmpValue_nan {a b : Text}
    (no : (dec.decimal128FromString a).IsNan ∨ (dec.decimal128FromString b).IsNan) :
    cmpValue dec collation a b = collation.strcoll a b := by
  rw [← isnan_iff dec, ← isnan_iff dec] at no
  unfold cmpValue
  dsimp only
  rcases no with left | right
  · rw [if_pos left]
  · rw [if_pos right, ite_self]

/-- The string for a result. -/
def answer (r : Int) : Text := if r > 0 then lit "1" else if r < 0 then lit "-1" else lit "0"

theorem prim_cmp_eq (a b : Text) :
    prim_cmp dec collation [a, b] = [answer (cmpValue dec collation a b)] := rfl

/-- The negation of a result. -/
def negation (s : Text) : Text :=
  if s = lit "1" then lit "-1" else if s = lit "-1" then lit "1" else s

theorem answer_sign (r : Int) : answer r.sign = answer r := by
  rcases lt_trichotomy r 0 with below | rfl | above
  · rw [Int.sign_eq_neg_one_of_neg below, answer, answer, if_neg (by omega : ¬ r > 0), if_pos below]
    rfl
  · rfl
  · rw [Int.sign_eq_one_of_pos above, answer, answer, if_pos above]
    rfl

theorem answer_eq_iff (r r' : Int) : answer r = answer r' ↔ r.sign = r'.sign := by
  refine ⟨fun same => ?_, fun same => by rw [← answer_sign, same, answer_sign]⟩
  rw [← answer_sign, ← answer_sign r'] at same
  rcases Int.sign_trichotomy r with h | h | h <;>
    rcases Int.sign_trichotomy r' with h' | h' | h' <;>
      rw [h, h'] at same ⊢ <;> revert same <;> decide

theorem negation_answer (r : Int) : negation (answer r) = answer (-r) := by
  rw [← answer_sign, ← answer_sign (-r), Int.sign_neg]
  rcases Int.sign_trichotomy r with h | h | h <;> rw [h] <;> decide

/-! ### When the comparison is consistent -/

theorem class_zero_iff (x : Decimal128) (negative : Bool) :
    x.class = (if negative then DatumClass.NEG_ZERO else DatumClass.POS_ZERO) ↔
      ∃ exponent fits, x = .finite negative 0 exponent fits := by
  constructor
  · intro isZero
    cases x with
    | nan signaling => cases signaling <;> cases negative <;> cases isZero
    | inf sign => cases sign <;> cases negative <;> cases isZero
    | finite sign coefficient exponent fits =>
      by_cases none' : coefficient = 0
      · subst none'
        rw [Datum.class, if_pos rfl] at isZero
        cases sign <;> cases negative <;> first | exact ⟨_, _, rfl⟩ | cases isZero
      · rw [Datum.class, if_neg none'] at isZero
        split_ifs at isZero
  · rintro ⟨exponent, fits, rfl⟩
    rw [Datum.class, if_pos rfl]

/-- The order of two values. -/
def ordering (e f : WithBot (WithTop ℚ)) : Int := if e < f then -1 else if f < e then 1 else 0

variable (dec collation) in
/-- A string compares equal to itself, swapping two strings negates the result, and values that the
format has are compared by their order. -/
structure Consistent (a b : Text) : Prop where
  reflexive : prim_cmp dec collation [a, a] = [lit "0"]
  swap : prim_cmp dec collation [b, a] = (prim_cmp dec collation [a, b]).map negation
  order : ∀ v w, denoted a = some v → denoted b = some w →
    (∃ x : Decimal128, v.Exact x) → (∃ y : Decimal128, w.Exact y) →
      prim_cmp dec collation [a, b] = [answer (ordering v.extended w.extended)]

variable (dec) in
/-- The first string is not read as an infinity, nor the two as zeros of different sign. -/
structure Regular (a b : Text) : Prop where
  notInf : es_dec128_isinf dec (dec.decimal128FromString a) = false
  notZeros : ¬(dec.decNumberClass (dec.decimal128FromString a) = .NEG_ZERO ∧
    dec.decNumberClass (dec.decimal128FromString b) = .POS_ZERO)
  notZeros' : ¬(dec.decNumberClass (dec.decimal128FromString a) = .POS_ZERO ∧
    dec.decNumberClass (dec.decimal128FromString b) = .NEG_ZERO)

theorem swap_iff (a b : Text) :
    prim_cmp dec collation [b, a] = (prim_cmp dec collation [a, b]).map negation ↔
      (cmpValue dec collation b a).sign = -(cmpValue dec collation a b).sign := by
  rw [prim_cmp_eq, prim_cmp_eq, List.map_singleton, negation_answer, List.singleton_inj,
    answer_eq_iff, Int.sign_neg]

theorem reflexive_iff (a : Text) :
    prim_cmp dec collation [a, a] = [lit "0"] ↔ (cmpValue dec collation a a).sign = 0 := by
  rw [prim_cmp_eq, show [lit "0"] = [answer 0] from rfl, List.singleton_inj, answer_eq_iff]
  rfl

theorem value_zero (negative : Bool) (exponent : Int) : value negative 0 exponent = 0 := by
  cases negative <;> simp [value]

/-- Values of different sign that are equal are zero. -/
theorem coefficient_eq_zero {negative negative' : Bool} {coefficient coefficient' : Nat}
    {exponent exponent' : Int}
    (same : value negative coefficient exponent = value negative' coefficient' exponent')
    (differ : (negative && !negative') = true) : coefficient = 0 ∧ coefficient' = 0 := by
  rw [Bool.and_eq_true, Bool.not_eq_true'] at differ
  rw [differ.1, differ.2, value, value, if_pos rfl, if_neg Bool.false_ne_true] at same
  have positive : (0 : ℚ) < 10 ^ exponent := zpow_pos (by norm_num) _
  have positive' : (0 : ℚ) < 10 ^ exponent' := zpow_pos (by norm_num) _
  have left : (0 : ℚ) ≤ coefficient * 10 ^ exponent := by positivity
  have right : (0 : ℚ) ≤ coefficient' * 10 ^ exponent' := by positivity
  have none' : (coefficient : ℚ) * 10 ^ exponent = 0 := by linarith
  have none'' : (coefficient' : ℚ) * 10 ^ exponent' = 0 := by linarith
  rw [mul_eq_zero, or_iff_left positive.ne'] at none'
  rw [mul_eq_zero, or_iff_left positive'.ne'] at none''
  exact ⟨by exact_mod_cast none', by exact_mod_cast none''⟩

/-- Two strings read as zeros of different sign. -/
theorem not_zeros_of_swap {a b : Text}
    (swap : (cmpValue dec collation b a).sign = -(cmpValue dec collation a b).sign) :
    ¬(dec.decNumberClass (dec.decimal128FromString a) = .NEG_ZERO ∧
      dec.decNumberClass (dec.decimal128FromString b) = .POS_ZERO) := by
  rintro ⟨left, right⟩
  rw [dec.class_eq] at left right
  obtain ⟨exponent, fits, x⟩ := (class_zero_iff _ true).mp left
  obtain ⟨exponent', fits', y⟩ := (class_zero_iff _ false).mp right
  rw [cmpValue_numbers (by rw [y]; exact id) (by rw [x]; exact id),
    cmpValue_numbers (by rw [x]; exact id) (by rw [y]; exact id), x, y, compare_finite,
    compare_finite] at swap
  simp [value_zero] at swap

theorem ordering_coe (v w : ℚ) :
    ordering ((v : WithTop ℚ) : WithBot (WithTop ℚ)) ((w : WithTop ℚ) : WithBot (WithTop ℚ)) =
      if v < w then -1 else if w < v then 1 else 0 := by
  unfold ordering
  simp only [WithBot.coe_lt_coe, WithTop.coe_lt_coe]

/-- Numbers that are no zeros of different sign, one of them finite, are compared by their order. -/
theorem compare_ordering {negative : Bool} {coefficient : Nat} {exponent : Int}
    {fits : decimal128.Fits coefficient exponent} {x y : Decimal128}
    (finite : x = .finite negative coefficient exponent fits) (number : ¬y.IsNan)
    (notZeros : ¬(x.class = .NEG_ZERO ∧ y.class = .POS_ZERO))
    (notZeros' : ¬(x.class = .POS_ZERO ∧ y.class = .NEG_ZERO)) :
    ∃ e f, x.extended = some e ∧ y.extended = some f ∧
      es_dec128_compare dec x y = ordering e f ∧ es_dec128_compare dec y x = ordering f e := by
  subst finite
  cases y with
  | nan signaling => exact absurd trivial number
  | inf negative' =>
    refine ⟨_, _, rfl, rfl, ?_⟩
    rw [compare_inf_finite, compare_finite_inf]
    cases negative' with
    | true =>
      have above := WithBot.bot_lt_coe ((value negative coefficient exponent : ℚ) : WithTop ℚ)
      rw [if_pos rfl, if_pos rfl, if_pos rfl, ordering, ordering, if_neg above.not_gt, if_pos above,
        if_pos above]
      exact ⟨rfl, rfl⟩
    | false =>
      have below := WithBot.coe_lt_coe.mpr
        (WithTop.coe_lt_top (value negative coefficient exponent : ℚ))
      rw [if_neg Bool.false_ne_true, if_neg Bool.false_ne_true, if_neg Bool.false_ne_true, ordering,
        ordering, if_pos below, if_neg below.not_gt, if_pos below]
      exact ⟨rfl, rfl⟩
  | finite negative' coefficient' exponent' fits' =>
    refine ⟨_, _, rfl, rfl, ?_⟩
    rw [ordering_coe, ordering_coe, compare_finite, compare_finite]
    rcases lt_trichotomy (value negative coefficient exponent)
      (value negative' coefficient' exponent') with less | same | less
    · rw [if_pos less, if_pos less, if_neg less.not_gt, if_pos less, if_neg less.not_gt,
        if_pos less]
      exact ⟨rfl, rfl⟩
    · have first : (negative && !negative') = false := by
        by_contra differ
        rw [Bool.not_eq_false] at differ
        obtain ⟨rfl, rfl⟩ := coefficient_eq_zero same differ
        rw [Bool.and_eq_true, Bool.not_eq_true'] at differ
        obtain ⟨rfl, rfl⟩ := differ
        exact notZeros ⟨(class_zero_iff _ true).mpr ⟨_, _, rfl⟩,
          (class_zero_iff _ false).mpr ⟨_, _, rfl⟩⟩
      have second : (negative' && !negative) = false := by
        by_contra differ
        rw [Bool.not_eq_false] at differ
        obtain ⟨rfl, rfl⟩ := coefficient_eq_zero same.symm differ
        rw [Bool.and_eq_true, Bool.not_eq_true'] at differ
        obtain ⟨rfl, rfl⟩ := differ
        exact notZeros' ⟨(class_zero_iff _ false).mpr ⟨_, _, rfl⟩,
          (class_zero_iff _ true).mpr ⟨_, _, rfl⟩⟩
      rw [first, second, same]
      simp
    · rw [if_neg less.not_gt, if_pos less, if_neg less.not_gt, if_pos less, if_pos less,
        if_pos less]
      exact ⟨rfl, rfl⟩

/-- A datum that is a value stands where the value does. -/
theorem Numeral.Exact.extended {v : Numeral} {x : Decimal128} (exact : v.Exact x) :
    x.extended = some v.extended ∧ ¬x.IsNan := by
  cases v with
  | inf negative =>
    obtain rfl : x = _ := exact
    exact ⟨rfl, id⟩
  | finite negative v =>
    cases x with
    | nan | inf => exact exact.elim
    | finite negative' coefficient exponent fits =>
      obtain ⟨-, rfl⟩ := exact
      exact ⟨rfl, id⟩

/-- The comparison of two strings is consistent exactly when they are regular. -/
theorem cmp_consistent_iff (dec : DecNumber) (collation : Collation) (a b : Text) :
    Consistent dec collation a b ↔ Regular dec a b := by
  constructor
  · rintro ⟨reflexive, swap, -⟩
    rw [reflexive_iff] at reflexive
    rw [swap_iff] at swap
    refine ⟨?_, not_zeros_of_swap swap, fun zeros => ?_⟩
    · by_contra infinite
      rw [Bool.not_eq_false, isinf_iff] at infinite
      obtain ⟨negative, x⟩ := infinite
      rw [cmpValue_numbers (by rw [x]; exact id) (by rw [x]; exact id), x, compare_inf,
        if_pos rfl] at reflexive
      cases reflexive
    · exact not_zeros_of_swap (by rw [swap, neg_neg]) zeros.symm
  · rintro ⟨notInf, notZeros, notZeros'⟩
    rw [dec.class_eq, dec.class_eq] at notZeros notZeros'
    have regular : ¬(dec.decimal128FromString a).IsNan → ¬(dec.decimal128FromString b).IsNan →
        ∃ e f, (dec.decimal128FromString a).extended = some e ∧
          (dec.decimal128FromString b).extended = some f ∧
          es_dec128_compare dec (dec.decimal128FromString a) (dec.decimal128FromString b) =
            ordering e f ∧
          es_dec128_compare dec (dec.decimal128FromString b) (dec.decimal128FromString a) =
            ordering f e := by
      intro number number'
      cases x : dec.decimal128FromString a with
      | nan signaling => exact absurd (x ▸ trivial) number
      | inf negative =>
        rw [Bool.eq_false_iff, ne_eq, isinf_iff] at notInf
        exact absurd ⟨negative, x⟩ notInf
      | finite negative coefficient exponent fits =>
        rw [x] at notZeros notZeros'
        exact compare_ordering rfl number' notZeros notZeros'
    refine ⟨?_, ?_, ?_⟩
    · rw [reflexive_iff]
      by_cases no : (dec.decimal128FromString a).IsNan
      · rw [cmpValue_nan (.inl no)]
        have swap := collation.swap a a
        omega
      · rw [cmpValue_numbers no no]
        cases x : dec.decimal128FromString a with
        | nan signaling => exact absurd (x ▸ trivial) no
        | inf negative =>
          rw [Bool.eq_false_iff, ne_eq, isinf_iff] at notInf
          exact absurd ⟨negative, x⟩ notInf
        | finite negative coefficient exponent fits =>
          rw [compare_finite, if_neg (lt_irrefl _), if_neg (lt_irrefl _), Bool.and_not_self]
          rfl
    · rw [swap_iff]
      by_cases no : (dec.decimal128FromString a).IsNan ∨ (dec.decimal128FromString b).IsNan
      · rw [cmpValue_nan no, cmpValue_nan no.symm, collation.swap]
      · rw [not_or] at no
        rw [cmpValue_numbers no.1 no.2, cmpValue_numbers no.2 no.1]
        obtain ⟨e, f, -, -, forth, back⟩ := regular no.1 no.2
        rw [forth, back, Int.sign_sign, Int.sign_sign, ordering, ordering]
        rcases lt_trichotomy e f with less | rfl | less
        · rw [if_neg less.not_gt, if_pos less, if_pos less]
          rfl
        · rw [if_neg (lt_irrefl _), if_neg (lt_irrefl _)]
          rfl
        · rw [if_pos less, if_neg less.not_gt, if_pos less]
          rfl
    · intro v w left right isDatum isDatum'
      obtain ⟨x, number⟩ := (dec.exact a v left isDatum).extended
      obtain ⟨y, number'⟩ := (dec.exact b w right isDatum').extended
      obtain ⟨e, f, isLeft, isRight, forth, -⟩ := regular number number'
      obtain rfl := Option.some.inj (isLeft.symm.trans x)
      obtain rfl := Option.some.inj (isRight.symm.trans y)
      rw [prim_cmp_eq, cmpValue_numbers number number', answer_sign, forth]

end

/-- A datum that is zero has the class of its sign. -/
theorem Numeral.Exact.class_zero {negative : Bool} {v : ℚ} {x : Decimal128}
    (exact : (Numeral.finite negative v).Exact x) (none' : v = 0) :
    x.class = if negative then DatumClass.NEG_ZERO else DatumClass.POS_ZERO := by
  cases x with
  | nan | inf => exact exact.elim
  | finite negative' coefficient exponent fits =>
    obtain ⟨rfl, rfl⟩ := exact
    rw [value, mul_eq_zero, or_iff_left (zpow_ne_zero _ (by norm_num))] at none'
    obtain rfl : coefficient = 0 := by
      split_ifs at none' <;> simpa using none'
    exact (class_zero_iff _ negative).mpr ⟨_, _, rfl⟩

/-! ### Examples -/

open Classical in
/-- A decimal library that does what the standard says. -/
noncomputable def standard : DecNumber where
  decimal128FromString := fun s =>
    match denoted s with
    | none => .nan false
    | some v =>
        if isDatum : ∃ x : Decimal128, v.Exact x then isDatum.choose
        else
          match v with
          | .inf negative => .inf negative
          | .finite negative v =>
              let nearest := exists_nearest decimal128 negative v
              .finite negative nearest.choose nearest.choose_spec.choose
                nearest.choose_spec.choose_spec.1
  decNumberSubtract := fun x y => (exists_subtracts x y).choose
  decNumberClass := Datum.class
  exact := by
    intro s v isValue isDatum
    rw [isValue]
    dsimp only
    rw [dif_pos isDatum]
    exact isDatum.choose_spec
  subtracts := fun x y => (exists_subtracts x y).choose_spec
  class_eq := fun _ => rfl

/-- Strings by their lengths. -/
def byLength : Collation where
  strcoll := fun a b => (a.length : Int) - b.length
  swap := by
    intro a b
    rw [← Int.sign_neg, neg_sub]
  trans := by
    intro a b c
    omega

/-- An infinity is greater than itself, and `-0` is less than `0`, which equals it. -/
theorem not_cmp_consistent :
    ¬Consistent standard byLength (lit "Infinity") (lit "Infinity") ∧
      ¬Consistent standard byLength (lit "-0") (lit "0") := by
  constructor
  · intro consistent
    have infinite := standard.exact (lit "Infinity") (.inf false) rfl ⟨.inf false, rfl⟩
    have x : standard.decimal128FromString (lit "Infinity") = .inf false := infinite
    have reflexive := (reflexive_iff _).mp consistent.reflexive
    rw [cmpValue_numbers (by rw [x]; exact id) (by rw [x]; exact id), x, compare_inf,
      if_pos rfl] at reflexive
    cases reflexive
  · intro consistent
    have fits : decimal128.Fits 0 0 := ⟨by decide, by decide, by decide⟩
    have left := standard.exact (lit "-0") (.finite true (-1 * 0 * 10 ^ (0 : ℤ))) rfl
      ⟨.finite true 0 0 fits, rfl, by simp [value]⟩
    have right := standard.exact (lit "0") (.finite false (1 * 0 * 10 ^ (0 : ℤ))) rfl
      ⟨.finite false 0 0 fits, rfl, by simp [value]⟩
    refine not_zeros_of_swap ((swap_iff _ _).mp consistent.swap) ⟨?_, ?_⟩
    · exact (left.class_zero (by norm_num) :)
    · exact (right.class_zero (by norm_num) :)

end Desh
