/-
This file states the decimal floating-point arithmetic of IEEE 754 as far as a
comparison by subtraction needs it: the data of a format, their classes and
what a subtraction may give. A difference that is not zero is a multiple of the
smallest positive datum, so it is rounded to a datum of its sign and not to
zero.

Nothing here depends on the shell.
-/

import Mathlib.Data.Rat.Cast.Order
import Mathlib.Order.WithBot
import Mathlib.Tactic

namespace Desh

namespace Decimal

/-! ### Data -/

/-- A format: the digits of a coefficient and the exponents of the last digit. -/
structure Format where
  precision : Nat
  emin : Int
  emax : Int
  positive : 0 < precision
  nonempty : emin ≤ emax

/-- The coefficient and the exponent are in the format. -/
def Format.Fits (format : Format) (coefficient : Nat) (exponent : Int) : Prop :=
  coefficient < 10 ^ format.precision ∧ format.emin ≤ exponent ∧ exponent ≤ format.emax

inductive Datum (format : Format) where
  | nan (signaling : Bool)
  | inf (negative : Bool)
  | finite (negative : Bool) (coefficient : Nat) (exponent : Int)
      (fits : format.Fits coefficient exponent)

/-- The value of a finite datum. -/
def value (negative : Bool) (coefficient : Nat) (exponent : Int) : ℚ :=
  (if negative then -(coefficient : ℚ) else coefficient) * 10 ^ exponent

/-- The classes of data. -/
inductive DatumClass where
  | SNAN | QNAN
  | NEG_INF | NEG_NORMAL | NEG_SUBNORMAL | NEG_ZERO
  | POS_ZERO | POS_SUBNORMAL | POS_NORMAL | POS_INF
  deriving DecidableEq

variable {format : Format}

namespace Datum

/-- The operation `class`. -/
def «class» : Datum format → DatumClass
  | nan signaling => if signaling then .SNAN else .QNAN
  | inf negative => if negative then .NEG_INF else .POS_INF
  | finite negative coefficient exponent _ =>
      if coefficient = 0 then (if negative then .NEG_ZERO else .POS_ZERO)
      else if value false coefficient exponent < 10 ^ (format.emin + format.precision - 1) then
        (if negative then .NEG_SUBNORMAL else .POS_SUBNORMAL)
      else (if negative then .NEG_NORMAL else .POS_NORMAL)

/-- Where a datum stands in the order of values. -/
def extended : Datum format → Option (WithBot (WithTop ℚ))
  | nan _ => none
  | inf negative => some (if negative then ⊥ else ((⊤ : WithTop ℚ) : WithBot (WithTop ℚ)))
  | finite negative coefficient exponent _ =>
      some (((value negative coefficient exponent : ℚ) : WithTop ℚ) : WithBot (WithTop ℚ))

/-- A value that is not zero is rounded: the datum has its sign, and no other of that sign is
nearer, or it is infinite and no finite one is as large. -/
def Rounds (d : ℚ) : Datum format → Prop
  | nan _ => False
  | inf negative =>
      negative = decide (d < 0) ∧
        ∀ coefficient exponent, format.Fits coefficient exponent →
          |value negative coefficient exponent| < |d|
  | finite negative coefficient exponent _ =>
      negative = decide (d < 0) ∧
        ∀ other otherExponent, format.Fits other otherExponent →
          |d - value negative coefficient exponent| ≤ |d - value negative other otherExponent|

/-- The result of a subtraction that is exactly zero. -/
def IsZero (negative : Bool) : Datum format → Prop
  | finite sign coefficient _ _ => sign = negative ∧ coefficient = 0
  | _ => False

def IsNan : Datum format → Prop
  | nan _ => True
  | _ => False

/-- What the operation `subtract` may give, rounding to nearest. -/
def Subtracts : Datum format → Datum format → Datum format → Prop
  | nan _, _, result | _, nan _, result => result.IsNan
  | inf negative, inf negative', result =>
      if negative = negative' then result.IsNan else result = inf negative
  | inf negative, finite .., result => result = inf negative
  | finite .., inf negative, result => result = inf (!negative)
  | finite negative coefficient exponent _, finite negative' coefficient' exponent' _, result =>
      let d := value negative coefficient exponent - value negative' coefficient' exponent'
      if d = 0 then result.IsZero (negative && !negative') else result.Rounds d

end Datum

/-! ### Differences -/

/-- Finite values are multiples of the smallest positive one. -/
theorem exists_value_eq (negative : Bool) {coefficient : Nat} {exponent : Int}
    (fits : format.Fits coefficient exponent) :
    ∃ n : ℤ, value negative coefficient exponent = n * 10 ^ format.emin := by
  obtain ⟨k, isExponent⟩ := Int.le.dest fits.2.1
  refine ⟨(if negative then -(coefficient : ℤ) else coefficient) * 10 ^ k, ?_⟩
  rw [value, ← isExponent, zpow_add₀ (by norm_num), zpow_natCast]
  cases negative <;> push_cast <;> ring

/-- A difference that is not zero is at least the smallest positive value. -/
theorem smallest_le_abs_sub {negative negative' : Bool} {coefficient coefficient' : Nat}
    {exponent exponent' : Int} (fits : format.Fits coefficient exponent)
    (fits' : format.Fits coefficient' exponent')
    (differ : value negative coefficient exponent - value negative' coefficient' exponent' ≠ 0) :
    (10 : ℚ) ^ format.emin ≤
      |value negative coefficient exponent - value negative' coefficient' exponent'| := by
  obtain ⟨n, isValue⟩ := exists_value_eq negative fits
  obtain ⟨n', isValue'⟩ := exists_value_eq negative' fits'
  have positive : (0 : ℚ) < 10 ^ format.emin := zpow_pos (by norm_num) _
  rw [isValue, isValue', ← sub_mul] at differ ⊢
  have apart : n - n' ≠ 0 := by
    intro same
    rw [sub_eq_zero] at same
    exact differ (by rw [same, sub_self, zero_mul])
  rw [abs_mul, abs_of_pos positive, ← Int.cast_sub, ← Int.cast_abs]
  have one : (1 : ℚ) ≤ (|n - n'| : ℤ) := by exact_mod_cast Int.one_le_abs apart
  exact le_mul_of_one_le_left positive.le one

/-- A difference that is not zero is not rounded to zero. -/
theorem coefficient_ne_zero {d : ℚ} {negative : Bool} {coefficient : Nat} {exponent : Int}
    {fits : format.Fits coefficient exponent} (large : (10 : ℚ) ^ format.emin ≤ |d|)
    (rounds : (Datum.finite negative coefficient exponent fits).Rounds d) : coefficient ≠ 0 := by
  rintro rfl
  obtain ⟨sign, nearest⟩ := rounds
  have smallest : format.Fits 1 format.emin :=
    ⟨Nat.one_lt_pow format.positive.ne' (by norm_num), le_rfl, format.nonempty⟩
  have positive : (0 : ℚ) < 10 ^ format.emin := zpow_pos (by norm_num) _
  have nearer := nearest 1 format.emin smallest
  have zero : value negative 0 exponent = 0 := by
    cases negative <;> simp [value]
  rw [zero, sub_zero, sign] at nearer
  by_cases below : d < 0
  · rw [abs_of_neg below] at large nearer
    rw [decide_eq_true below, value, if_pos rfl, Nat.cast_one, neg_one_mul, sub_neg_eq_add,
      abs_of_nonpos (by linarith)] at nearer
    linarith
  · rw [not_lt] at below
    rw [abs_of_nonneg below] at large nearer
    rw [decide_eq_false (not_lt.mpr below), value, if_neg nofun, Nat.cast_one, one_mul,
      abs_of_nonneg (by linarith)] at nearer
    linarith

/-! ### Every difference has a result -/

/-- A finite datum that no other of its sign is nearer than. -/
theorem exists_nearest (format : Format) (negative : Bool) (d : ℚ) :
    ∃ coefficient exponent, format.Fits coefficient exponent ∧
      ∀ other otherExponent, format.Fits other otherExponent →
        |d - value negative coefficient exponent| ≤ |d - value negative other otherExponent| := by
  let Entry := Set.Iio (10 ^ format.precision) × Set.Icc format.emin format.emax
  have some' : Nonempty Entry := ⟨⟨⟨0, Nat.pos_of_ne_zero (by simp)⟩,
    ⟨format.emin, le_rfl, format.nonempty⟩⟩⟩
  obtain ⟨⟨⟨coefficient, small⟩, ⟨exponent, inside⟩⟩, nearest⟩ :=
    Finite.exists_min fun entry : Entry => |d - value negative entry.1 entry.2|
  refine ⟨coefficient, exponent, ⟨small, inside⟩, fun other otherExponent fits => ?_⟩
  exact nearest ⟨⟨other, fits.1⟩, ⟨otherExponent, fits.2⟩⟩

theorem exists_subtracts (x y : Datum format) : ∃ result, Datum.Subtracts x y result := by
  have zero : format.Fits 0 format.emin :=
    ⟨Nat.pos_of_ne_zero (by simp), le_rfl, format.nonempty⟩
  cases x with
  | nan signaling => exact ⟨.nan false, trivial⟩
  | inf negative =>
    cases y with
    | nan signaling => exact ⟨.nan false, trivial⟩
    | inf negative' =>
      by_cases same : negative = negative'
      · exact ⟨.nan false, by rw [Datum.Subtracts, if_pos same]; trivial⟩
      · exact ⟨.inf negative, by rw [Datum.Subtracts, if_neg same]⟩
    | finite => exact ⟨.inf negative, rfl⟩
  | finite negative coefficient exponent fits =>
    cases y with
    | nan signaling => exact ⟨.nan false, trivial⟩
    | inf negative' => exact ⟨.inf (!negative'), rfl⟩
    | finite negative' coefficient' exponent' fits' =>
      let d := value negative coefficient exponent - value negative' coefficient' exponent'
      by_cases same : d = 0
      · exact ⟨.finite (negative && !negative') 0 format.emin zero, by
          rw [Datum.Subtracts, if_pos same]; exact ⟨rfl, rfl⟩⟩
      · obtain ⟨nearest, nearestExponent, inside, isNearest⟩ :=
          exists_nearest format (decide (d < 0)) d
        exact ⟨.finite _ nearest nearestExponent inside, by
          rw [Datum.Subtracts, if_neg same]; exact ⟨rfl, isNearest⟩⟩

end Decimal

end Desh
