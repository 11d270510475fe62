/-
This file proves that the arrays of characters `dump.c` prints hold the strings:
the initializer of a string is read as C reads it. A string literal has its
characters and a terminator; a list in braces has character constants and
decimal numbers. Trigraphs are not replaced.
-/

import Desh.Dump
import Desh.Limit

namespace Desh

namespace Dump

/-! ### Initializers in C -/

/-- The character of an escape. The octal escape is that of the terminator. -/
def escaped (c : UInt8) : Option UInt8 :=
  if c = 'a'.toUInt8 then some 7
  else if c = 'b'.toUInt8 then some 8
  else if c = 'f'.toUInt8 then some 12
  else if c = 'n'.toUInt8 then some 10
  else if c = 'r'.toUInt8 then some 13
  else if c = 't'.toUInt8 then some 9
  else if c = '0'.toUInt8 then some 0
  else if c = '\''.toUInt8 ∨ c = '"'.toUInt8 ∨ c = '\\'.toUInt8 then some c
  else none

/-- A character between quotes, and what is behind it. -/
def readCharacter (quote : UInt8) : Text → Option (UInt8 × Text)
  | [] => none
  | c :: rest =>
      if c = '\\'.toUInt8 then
        match rest with
        | [] => none
        | e :: rest => (escaped e).map (·, rest)
      else if c = quote ∨ c = '\n'.toUInt8 then none
      else some (c, rest)

/-- The characters of a string literal up to its end, with the terminator. -/
def readLiteral : Nat → Text → Option Text
  | 0, _ => none
  | fuel + 1, text =>
      if text = lit "\"" then some [0]
      else do
        let (c, rest) ← readCharacter '"'.toUInt8 text
        let s ← readLiteral fuel rest
        some (c :: s)

/-- An element of a list in braces: a character constant, or a decimal number. -/
def readElement : Text → Option (UInt8 × Text)
  | [] => none
  | c :: rest =>
      if c = '\''.toUInt8 then do
        let (c, rest) ← readCharacter '\''.toUInt8 rest
        if rest.head? = some '\''.toUInt8 then some (c, rest.tail) else none
      else
        let digits := (c :: rest).takeWhile isdigit
        if digits = [] ∨ (c = '0'.toUInt8 ∧ digits.length ≠ 1) then none
        else some (UInt8.ofNat (valueOf 10 digits), (c :: rest).dropWhile isdigit)

/-- The elements of a list up to its brace. Each has a comma behind it. -/
def readElements : Nat → Text → Option Text
  | 0, _ => none
  | fuel + 1, text =>
      let text := text.dropWhile (· = ' '.toUInt8)
      if text = lit "\x7d" then some []
      else do
        let (c, rest) ← readElement text
        if rest.head? = some ','.toUInt8 then
          let s ← readElements fuel rest.tail
          some (c :: s)
        else none

/-- What an array holds after it has been given an initializer. -/
def readInitializer : Text → Option Text
  | [] => none
  | c :: rest =>
      if c = '"'.toUInt8 then readLiteral (rest.length + 1) rest
      else if c = '{'.toUInt8 then readElements (rest.length + 1) rest
      else none

/-! ### Literals -/

theorem readCharacter_plain {quote c : UInt8} (plain : c ≠ '\\'.toUInt8)
    (inside : ¬(c = quote ∨ c = '\n'.toUInt8)) (rest : Text) :
    readCharacter quote (c :: rest) = some (c, rest) := by
  unfold readCharacter
  dsimp only
  rw [if_neg plain, if_neg inside]

theorem readLiteral_printable {s : Text} (printable : allprintable s = true) (fuel : Nat) :
    readLiteral (s.length + 1 + fuel) (s ++ lit "\"") = some (s ++ [0]) := by
  induction s with
  | nil =>
    rw [Nat.add_comm, List.length_nil, readLiteral]
    rfl
  | cons c s ih =>
    rw [allprintable, List.all_cons, Bool.and_eq_true] at printable
    have each : ∀ c : UInt8, (isprint c && c != '"'.toUInt8 && c != '\\'.toUInt8) = true →
        c ≠ '\\'.toUInt8 ∧ ¬(c = '"'.toUInt8 ∨ c = '\n'.toUInt8) :=
      fun c => forall_byte (by decide +kernel) c
    obtain ⟨plain, inside⟩ := each c printable.1
    have more : (c :: s) ++ lit "\"" ≠ lit "\"" := fun same => by
      have lengths := congrArg List.length same
      rw [List.length_append] at lengths
      exact absurd lengths (by simp)
    rw [show (c :: s).length + 1 + fuel = s.length + 1 + fuel + 1 by simp; omega, readLiteral,
      if_neg more, List.cons_append, readCharacter_plain plain inside]
    show (readLiteral (s.length + 1 + fuel) (s ++ lit "\"") >>= fun s => some (c :: s)) = _
    rw [ih printable.2]
    rfl

/-! ### Lists of characters -/

/-- An element is a character constant or a number. -/
inductive IsElement (c : UInt8) : Text → Prop
  | escape {e : UInt8} (escapes : escaped e = some c) :
      IsElement c ['\''.toUInt8, '\\'.toUInt8, e, '\''.toUInt8]
  | plain (noEscape : c ≠ '\\'.toUInt8) (inside : ¬(c = '\''.toUInt8 ∨ c = '\n'.toUInt8)) :
      IsElement c ['\''.toUInt8, c, '\''.toUInt8]
  | number {d : UInt8} {digits : Text} (areDigits : ∀ e ∈ d :: digits, isdigit e = true)
      (value : valueOf 10 (d :: digits) = c.toNat) (zero : d = '0'.toUInt8 → digits = []) :
      IsElement c (d :: digits)

theorem isElement_element (c : UInt8) : IsElement c (element c) := by
  unfold element
  split
  · rename_i same; subst same; exact .escape rfl
  split
  · rename_i same; subst same; exact .escape rfl
  split
  · rename_i same; subst same; exact .escape rfl
  split
  · rename_i same; subst same; exact .escape rfl
  split
  · rename_i same; subst same; exact .escape rfl
  split
  · rename_i same; subst same; exact .escape rfl
  split
  · rename_i same; subst same; exact .escape rfl
  split
  · rename_i same; subst same; exact .escape rfl
  split
  · rename_i noQuote noEscape printable
    have inside : ∀ c : UInt8, isprint c = true → c ≠ '\n'.toUInt8 :=
      fun c => forall_byte (by decide +kernel) c
    exact .plain noEscape (not_or.mpr ⟨noQuote, inside c printable⟩)
  · obtain ⟨d, digits, text, areDigits, value, zero⟩ := utoa_spec c.toNat
    have small : ∀ c : UInt8, c.toUInt64.toUInt32.toInt32.toInt = c.toNat :=
      fun c => forall_byte (by decide +kernel) c
    have number : dconv .none c.toUInt64 = d :: digits := by
      rw [dconv_none, small, if_pos (Int.natCast_nonneg _), Int.natAbs_natCast, text,
        List.nil_append]
    rw [number]
    exact .number areDigits value fun isZero => (zero isZero).2

/-- An element that is printed is read as its character. -/
theorem IsElement.read {c : UInt8} {text : Text} (isElement : IsElement c text) (rest : Text) :
    readElement (text ++ ','.toUInt8 :: rest) = some (c, ','.toUInt8 :: rest) := by
  cases isElement with
  | @escape e escapes =>
    show ((escaped e).map (·, '\''.toUInt8 :: ','.toUInt8 :: rest) >>= _) = _
    rw [escapes]
    rfl
  | plain noEscape inside =>
    show (readCharacter '\''.toUInt8 (c :: '\''.toUInt8 :: ','.toUInt8 :: rest) >>= _) = _
    rw [readCharacter_plain noEscape inside]
    rfl
  | @number d digits areDigits value zero =>
    have quote : d ≠ '\''.toUInt8 := by
      rintro rfl
      exact absurd (areDigits _ List.mem_cons_self) (by decide)
    have run := @takeWhile_run isdigit (d :: digits) (','.toUInt8 :: rest) areDigits (by
      rintro _ ⟨⟩
      decide)
    rw [List.cons_append, readElement, if_neg quote, ← List.cons_append]
    dsimp only
    rw [run.1, run.2, if_neg, value]
    · simp
    · rintro (none | ⟨isZero, more⟩)
      · cases none
      · rw [zero isZero] at more
        exact more rfl

theorem readElements_blank (fuel : Nat) (text : Text) :
    readElements fuel (' '.toUInt8 :: text) = readElements fuel text := by
  cases fuel <;> rfl

/-- An element in front of others. -/
theorem IsElement.readElements {c : UInt8} {text : Text} (isElement : IsElement c text)
    (fuel : Nat) (rest : Text) :
    readElements (fuel + 1) (text ++ lit ", " ++ rest) =
      (readElements fuel rest).map (c :: ·) := by
  have head : ∃ d ds, text = d :: ds ∧ d ≠ ' '.toUInt8 ∧ d ≠ '}'.toUInt8 := by
    cases isElement with
    | escape => exact ⟨_, _, rfl, by decide, by decide⟩
    | plain => exact ⟨_, _, rfl, by decide, by decide⟩
    | number areDigits =>
      have isDigit := areDigits _ List.mem_cons_self
      refine ⟨_, _, rfl, ?_, ?_⟩ <;> rintro rfl <;> exact absurd isDigit (by decide)
  obtain ⟨d, ds, rfl, noBlank, noBrace⟩ := head
  have read := isElement.read (' '.toUInt8 :: rest)
  have shape : (d :: ds) ++ lit ", " ++ rest = (d :: ds) ++ ','.toUInt8 :: ' '.toUInt8 :: rest := by
    rw [List.append_assoc]
    rfl
  have blanks : ((d :: ds) ++ ','.toUInt8 :: ' '.toUInt8 :: rest).dropWhile (· = ' '.toUInt8) =
      (d :: ds) ++ ','.toUInt8 :: ' '.toUInt8 :: rest := by
    rw [List.cons_append, List.dropWhile_cons_of_neg (by simpa using noBlank)]
  have more : (d :: ds) ++ ','.toUInt8 :: ' '.toUInt8 :: rest ≠ lit "\x7d" :=
    fun same => noBrace (List.cons.inj same).1
  rw [shape, Dump.readElements]
  dsimp only
  rw [blanks, if_neg more, read]
  show (Dump.readElements fuel (' '.toUInt8 :: rest) >>= fun s => some (c :: s)) = _
  rw [readElements_blank]
  cases Dump.readElements fuel rest <;> rfl

theorem readElements_flatMap (s : Text) (fuel : Nat) :
    readElements (s.length + 2 + fuel)
        (s.flatMap (fun c => element c ++ lit ", ") ++ lit "'\\0', \x7d") = some (s ++ [0]) := by
  induction s with
  | nil =>
    have last : IsElement 0 (lit "'\\0'") := .escape rfl
    have read := last.readElements (fuel + 1) (lit "\x7d")
    rw [List.length_nil, Nat.zero_add, Nat.add_comm]
    exact read
  | cons c s ih =>
    rw [List.flatMap_cons, List.append_assoc, List.length_cons,
      show s.length + 1 + 2 + fuel = s.length + 2 + fuel + 1 by omega,
      (isElement_element c).readElements, ih]
    rfl

theorem length_le_flatMap (s : Text) :
    s.length ≤ (s.flatMap fun c => element c ++ lit ", ").length := by
  induction s with
  | nil => exact Nat.zero_le _
  | cons c s ih =>
    rw [List.flatMap_cons, List.length_append, List.length_append, List.length_cons,
      show (lit ", ").length = 2 from rfl]
    omega

/-- The array of characters for a string holds it, with its terminator. -/
theorem readInitializer_initializer (s : Text) :
    readInitializer (initializer s) = some (s ++ [0]) := by
  unfold initializer
  split
  · rename_i printable
    show readLiteral ((s ++ lit "\"").length + 1) (s ++ lit "\"") = _
    rw [List.length_append]
    exact readLiteral_printable printable 1
  · show readElements _ (' '.toUInt8 :: (s.flatMap (fun c => element c ++ lit ", ") ++ _)) = _
    have longer := length_le_flatMap s
    obtain ⟨fuel, same⟩ := Nat.exists_eq_add_of_le (show s.length + 2 ≤
      ((s.flatMap fun c => element c ++ lit ", ") ++ lit "'\\0', \x7d").length + 2 by
        rw [List.length_append]
        omega)
    rw [readElements_blank]
    refine Eq.trans (congrArg (readElements · _) ?_) (readElements_flatMap s fuel)
    exact same

end Dump

end Desh
