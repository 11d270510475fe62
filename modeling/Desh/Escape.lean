/-
This file proves when a numeric escape stands for the byte that is written. The
digits are accumulated in an `int`, however many there are, and the number is
tested before it is cut down to a character: that it is a byte is tested
nowhere.
-/

import Desh.Status
import Desh.Token

namespace Desh

/-! ### Numeric escapes -/

/-- The two kinds of numeric escapes; the letter in front of hexadecimal digits may be upper
case. -/
inductive EscapeKind where
  | hex (upper : Bool)
  | octal
  deriving DecidableEq

namespace EscapeKind

/-- What is between the backslash and the digits. -/
def letter : EscapeKind → Text
  | hex upper => if upper then lit "X" else lit "x"
  | octal => []

/-- The number of bits of a digit. -/
def shift : EscapeKind → Nat
  | hex _ => 4
  | octal => 3

def isDigit : EscapeKind → UInt8 → Bool
  | hex _ => isxdigit
  | octal => isodigit

/-- The `int` of a run of digits. -/
def number : EscapeKind → Text → UInt32
  | hex _ => hexNumber
  | octal => octalNumber

/-- The `int` overflows where it is shifted for some digit. -/
def Overflows (kind : EscapeKind) (digits : Text) : Prop :=
  ∃ before c after, digits = before ++ c :: after ∧
    2 ^ 31 ≤ (kind.number before).toNat * 2 ^ kind.shift

/-- The number that digits write. -/
def value (kind : EscapeKind) (digits : Text) : Nat := valueOf (2 ^ kind.shift) digits

end EscapeKind

/-- A numeric escape: an octal one has a digit. -/
structure NumericEscape where
  kind : EscapeKind
  digits : Text
  areDigits : ∀ c ∈ digits, kind.isDigit c = true
  nonempty : kind = .octal → digits ≠ []

namespace NumericEscape

/-- The characters behind the backslash. -/
def text (escape : NumericEscape) : Text := escape.kind.letter ++ escape.digits

/-- The number that is written. -/
def written (escape : NumericEscape) : Nat := escape.kind.value escape.digits

end NumericEscape

/-- `yylex`, called again where a free caret is put in front of the token. -/
def yylexPastCaret (lexer : Lexer) : Token × Lexer :=
  match yylex lexer with
  | (.char c, next) => if c = '^'.toUInt8 then yylex next else (.char c, next)
  | result => result

/-- A numeric escape gives a quoted word of one byte, which is what is written, or it is reported,
and the number does not overflow on the way. -/
def NumericEscape.Denotes (escape : NumericEscape) (lexer : Lexer) : Prop :=
  ((∃ c : UInt8, c ≠ 0 ∧ c.toNat = escape.written ∧ (yylexPastCaret lexer).1 = .QWORD [c]) ∨
      ∃ before, yylexPastCaret lexer = (.ERROR, scanerror (lit "bad backslash escape") before)) ∧
    ¬escape.kind.Overflows escape.digits

/-! ### The accumulated number -/

section

variable {shift : Nat} {n d : UInt32}

/-- A digit is shifted in, as long as there is room for it. -/
theorem toNat_shift_or (small : shift < 32) (digit : d.toNat < 2 ^ shift)
    (room : n.toNat * 2 ^ shift < 2 ^ 32) :
    ((n <<< UInt32.ofNat shift) ||| d).toNat = n.toNat * 2 ^ shift + d.toNat := by
  have amount : (UInt32.ofNat shift).toNat % 32 = shift := by
    rw [UInt32.toNat_ofNat']
    omega
  rw [UInt32.toNat_or, UInt32.toNat_shiftLeft, amount, Nat.shiftLeft_eq, Nat.mod_eq_of_lt room,
    ← Nat.shiftLeft_eq, Nat.shiftLeft_add_eq_or_of_lt digit]

end

namespace EscapeKind

variable (kind : EscapeKind)

theorem number_nil : kind.number [] = 0 := by cases kind <;> rfl

theorem shift_lt : kind.shift < 32 := by
  cases kind with
  | hex upper => exact show 4 < 32 by decide
  | octal => exact show 3 < 32 by decide

theorem digitOf_lt {c : UInt8} (isDigit : kind.isDigit c = true) : digitOf c < 2 ^ kind.shift := by
  cases kind with
  | hex upper =>
    have each : ∀ c, isxdigit c = true → digitOf c < 2 ^ 4 := forall_byte (by decide +kernel)
    exact each c isDigit
  | octal =>
    have each : ∀ c, isodigit c = true → digitOf c < 2 ^ 3 := forall_byte (by decide +kernel)
    exact each c isDigit

/-- The digits are read as they are in C. -/
theorem number_snoc {digits : Text} {c : UInt8} (isDigit : kind.isDigit c = true) :
    kind.number (digits ++ [c]) =
      (kind.number digits <<< UInt32.ofNat kind.shift) ||| UInt32.ofNat (digitOf c) := by
  cases kind with
  | hex upper =>
    have each : ∀ c, isxdigit c = true → hexValue c = UInt32.ofNat (digitOf c) :=
      forall_byte (by decide +kernel)
    rw [number, hexNumber, hexNumber, List.foldl_append, List.foldl_cons, List.foldl_nil,
      each c isDigit]
    rfl
  | octal =>
    have each : ∀ c, isodigit c = true →
        (c - '0'.toUInt8).toUInt32 = UInt32.ofNat (digitOf c) := forall_byte (by decide +kernel)
    rw [number, octalNumber, octalNumber, List.foldl_append, List.foldl_cons, List.foldl_nil,
      each c isDigit]
    rfl

theorem value_snoc (digits : Text) (c : UInt8) :
    kind.value (digits ++ [c]) = kind.value digits * 2 ^ kind.shift + digitOf c :=
  valueOf_snoc ..

/-- A number that fits an `int` is what is written. -/
theorem toNat_number {digits : Text} (areDigits : ∀ c ∈ digits, kind.isDigit c = true)
    (fits : kind.value digits < 2 ^ 31) : (kind.number digits).toNat = kind.value digits := by
  induction digits using List.reverseRecOn with
  | nil =>
    rw [number_nil]
    rfl
  | append_singleton digits c inductionHypothesis =>
    obtain ⟨before, last⟩ := List.forall_mem_append.mp areDigits
    have isDigit := last c List.mem_cons_self
    rw [value_snoc] at fits ⊢
    have less : kind.value digits ≤ kind.value digits * 2 ^ kind.shift :=
      Nat.le_mul_of_pos_right _ (Nat.two_pow_pos _)
    have same := inductionHypothesis before (by omega)
    have digit := kind.digitOf_lt isDigit
    have byte : digitOf c < 2 ^ 32 :=
      lt_of_lt_of_le digit (Nat.pow_le_pow_right (by omega) kind.shift_lt.le)
    have whole : (UInt32.ofNat (digitOf c)).toNat = digitOf c := UInt32.toNat_ofNat_of_lt byte
    rw [kind.number_snoc isDigit,
      toNat_shift_or kind.shift_lt (by rwa [whole]) (by rw [same]; omega), same, whole]

theorem value_le_append (before after : Text) :
    kind.value before ≤ kind.value (before ++ after) := by
  induction after using List.reverseRecOn with
  | nil => rw [List.append_nil]
  | append_singleton after c inductionHypothesis =>
    rw [← List.append_assoc, value_snoc]
    calc kind.value before ≤ kind.value (before ++ after) := inductionHypothesis
      _ ≤ kind.value (before ++ after) * 2 ^ kind.shift :=
          Nat.le_mul_of_pos_right _ (Nat.two_pow_pos _)
      _ ≤ _ := Nat.le_add_right ..

/-- A multiple of the base does not fit an `int` if it does not with a digit more. -/
theorem room_of_digit {n d : Nat} (digit : d < 2 ^ kind.shift)
    (large : 2 ^ 31 ≤ n * 2 ^ kind.shift + d) : 2 ^ 31 ≤ n * 2 ^ kind.shift := by
  cases kind with
  | hex upper =>
    have base : 2 ^ (hex upper).shift = 16 := rfl
    rw [base] at digit large ⊢
    omega
  | octal =>
    have base : 2 ^ octal.shift = 8 := rfl
    rw [base] at digit large ⊢
    omega

/-- The number overflows just if what is written does not fit an `int`. -/
theorem overflows_iff {digits : Text} (areDigits : ∀ c ∈ digits, kind.isDigit c = true) :
    kind.Overflows digits ↔ 2 ^ 31 ≤ kind.value digits := by
  constructor
  · rintro ⟨before, c, after, rfl, large⟩
    by_contra fits
    rw [not_le] at fits
    have grows := kind.value_le_append (before ++ [c]) after
    rw [List.append_assoc, List.singleton_append, value_snoc] at grows
    have less : kind.value before ≤ kind.value before * 2 ^ kind.shift :=
      Nat.le_mul_of_pos_right _ (Nat.two_pow_pos _)
    rw [kind.toNat_number (fun d member => areDigits d (List.mem_append_left _ member))
      (by omega)] at large
    omega
  · intro large
    induction digits using List.reverseRecOn with
    | nil => exact absurd large (by rw [value, valueOf, List.foldl_nil]; decide)
    | append_singleton digits c inductionHypothesis =>
      obtain ⟨areBefore, last⟩ := List.forall_mem_append.mp areDigits
      by_cases overflowed : 2 ^ 31 ≤ kind.value digits
      · obtain ⟨before, d, after, rfl, room⟩ := inductionHypothesis areBefore overflowed
        exact ⟨before, d, after ++ [c], by rw [List.append_assoc]; rfl, room⟩
      · refine ⟨digits, c, [], rfl, ?_⟩
        rw [kind.toNat_number areBefore (not_le.mp overflowed)]
        rw [value_snoc] at large
        exact kind.room_of_digit (kind.digitOf_lt (last c List.mem_cons_self)) large

end EscapeKind

/-! ### The token of an escape -/

namespace NumericEscape

variable {escape : NumericEscape} {rest : Text}

theorem lexEscape_text (lexer : Lexer)
    (ends : ∀ c, rest.head? = some c → escape.kind.isDigit c = false) :
    ∃ c tail, escape.text ++ rest = c :: tail ∧ c ≠ '\n'.toUInt8 ∧
      lexEscape lexer c tail = lexNumber lexer (escape.kind.number escape.digits) rest := by
  obtain ⟨kind, digits, areDigits, nonempty⟩ := escape
  cases kind with
  | hex upper =>
    obtain ⟨taken, dropped⟩ := takeWhile_run areDigits ends
    have read : ∀ c, c = 'x'.toUInt8 ∨ c = 'X'.toUInt8 →
        lexEscape lexer c (digits ++ rest) = lexNumber lexer (hexNumber digits) rest := by
      rintro c (rfl | rfl) <;>
      · unfold lexEscape
        rw [if_neg (by decide), if_neg (by decide), if_neg (by decide), if_neg (by decide),
          if_neg (by decide), if_neg (by decide), if_neg (by decide), if_neg (by decide),
          if_pos (by decide)]
        exact congrArg₂ (fun digits rest => lexNumber lexer (hexNumber digits) rest) taken dropped
    cases upper with
    | true => exact ⟨'X'.toUInt8, digits ++ rest, rfl, by decide, read _ (.inr rfl)⟩
    | false => exact ⟨'x'.toUInt8, digits ++ rest, rfl, by decide, read _ (.inl rfl)⟩
  | octal =>
    cases digits with
    | nil => exact absurd rfl (nonempty rfl)
    | cons c digits =>
      obtain ⟨octal, others⟩ := List.forall_mem_cons.mp areDigits
      obtain ⟨taken, dropped⟩ := takeWhile_run others ends
      refine ⟨c, digits ++ rest, rfl, ?_, ?_⟩
      · rintro rfl
        exact absurd octal (by decide)
      · rw [lexEscape_octal lexer _ octal]
        exact congrArg₂ (fun digits rest => lexNumber lexer (octalNumber (c :: digits)) rest) taken
          dropped

/-- An escape is read after the caret it may need. -/
theorem yylexPastCaret_eq {lexer : Lexer} (ready : lexer.goterror = false)
    (next : (skipBlank lexer.w lexer.input).2 = 92 :: (escape.text ++ rest))
    (ends : ∀ c, rest.head? = some c → escape.kind.isDigit c = false) :
    ∃ before, yylexPastCaret lexer = lexNumber before (escape.kind.number escape.digits) rest := by
  obtain ⟨c, tail, text, line, -⟩ := lexEscape_text lexer ends
  have read : ∀ before, lexEscape before c tail =
      lexNumber before (escape.kind.number escape.digits) rest := by
    intro before
    obtain ⟨_, _, text', -, read⟩ := lexEscape_text before ends
    cases text.symm.trans text'
    exact read
  have number : ∀ other before, yylex other = lexEscape before c tail →
      yylexPastCaret other = lexNumber before (escape.kind.number escape.digits) rest := by
    intro other before same
    unfold yylexPastCaret
    rw [same, read, lexNumber]
    split_ifs <;> rfl
  rw [text] at next
  have skipped : skipBlank lexer.w lexer.input =
      ((skipBlank lexer.w lexer.input).1, 92 :: c :: tail) := Prod.ext rfl next
  have first := yylex_backslash ready skipped
  split_ifs at first with free
  · exact ⟨_, number _ _ first⟩
  · refine ⟨{ lexer with input := 92 :: c :: tail, w := .realWord, dollar := false }, ?_⟩
    unfold yylexPastCaret
    rw [first]
    dsimp only
    rw [if_pos rfl, ← read]
    refine (yylex_backslash ?_ (skipBlank_escape .nonWord tail line)).trans (if_pos rfl)
    exact ready

/-- An escape denotes a byte, or is reported, just if the number that is written is a byte. -/
theorem denotes_iff {lexer : Lexer} (ready : lexer.goterror = false)
    (next : (skipBlank lexer.w lexer.input).2 = 92 :: (escape.text ++ rest))
    (ends : ∀ c, rest.head? = some c → escape.kind.isDigit c = false) :
    escape.Denotes lexer ↔ escape.written ≤ 255 := by
  obtain ⟨before, token⟩ := yylexPastCaret_eq ready next ends
  have overflow := escape.kind.overflows_iff escape.areDigits
  rw [← show escape.written = escape.kind.value escape.digits from rfl] at overflow
  unfold Denotes
  rw [token, overflow, not_le]
  constructor
  · rintro ⟨⟨c, -, same, -⟩ | ⟨reported, error⟩, fits⟩
    · rw [← same]
      exact Nat.le_of_lt_succ c.toNat_lt
    · have number := escape.kind.toNat_number escape.areDigits fits
      rw [lexNumber] at error
      split_ifs at error with zero
      · rw [zero] at number
        exact number.symm.trans_le (Nat.zero_le _)
      · cases error
  · intro byte
    have fits : escape.written < 2 ^ 31 := by omega
    have number := escape.kind.toNat_number escape.areDigits fits
    refine ⟨?_, fits⟩
    rw [lexNumber]
    by_cases zero : escape.kind.number escape.digits = 0
    · rw [if_pos zero]
      exact .inr ⟨_, rfl⟩
    · have small : (escape.kind.number escape.digits).toUInt8.toNat = escape.written := by
        rw [UInt32.toNat_toUInt8, number]
        exact Nat.mod_eq_of_lt (Nat.lt_succ_of_le byte)
      have nonzero : (escape.kind.number escape.digits).toUInt8 ≠ 0 := by
        intro none
        rw [none] at small
        exact zero (UInt32.toNat_inj.mp (number.trans small.symm))
      rw [if_neg zero, oneByte, if_neg nonzero]
      exact .inl ⟨_, nonzero, small, rfl⟩

end NumericEscape

/-- The escape `\x100`, whose number is not a byte. -/
def wideEscape : NumericEscape where
  kind := .hex false
  digits := lit "100"
  areDigits := by decide +kernel
  nonempty := nofun

/-- The escape `\x41`. -/
def letterEscape : NumericEscape where
  kind := .hex false
  digits := lit "41"
  areDigits := by decide +kernel
  nonempty := nofun

theorem letterEscape_denotes : letterEscape.Denotes (inityy (92 :: lit "x41")) :=
  (@NumericEscape.denotes_iff letterEscape [] _ rfl rfl nofun).mpr (by decide)

/-- `\x100` is an empty string. -/
theorem not_wideEscape_denotes : yylexPastCaret (inityy (92 :: lit "x100")) =
      (.QWORD [], reading .realWord []) ∧
    ¬wideEscape.Denotes (inityy (92 :: lit "x100")) := by
  have token : yylexPastCaret (inityy (92 :: lit "x100")) =
      (.QWORD [], reading .realWord []) := by decide
  refine ⟨token, ?_⟩
  rintro ⟨⟨c, -, -, word⟩ | ⟨before, error⟩, -⟩
  · rw [token] at word
    cases word
  · rw [token] at error
    cases error

end Desh
