/-
This file says what a pattern of the shell denotes, a pattern being a list of
characters each of which is masked or not. An unmasked `?`, `*` or class is a
wildcard; a class is read up to its closing bracket, and a bracket that nothing
closes stands for itself.
-/

import Desh.Match
import Desh.Wildcard

namespace Desh

open Wildcard (Atom)

/-- A character of a pattern, and whether it is masked. -/
abbrev Marked := UInt8 × Bool

/-- The pattern's characters. -/
def chars (p : List Marked) : Text := p.map Prod.fst

/-- The mask with a byte for every character. -/
def maskOf (p : List Marked) : Text :=
  p.map fun x => if x.2 then 'q'.toUInt8 else 'r'.toUInt8

/-- An unmasked character. -/
def bare (c : Char) : Marked := (c.toUInt8, false)

/-! ### Classes -/

/-- A member of a class. -/
inductive Member where
  | char (c : UInt8)
  | range (lo hi : UInt8)

def Member.has : Member → UInt8 → Bool
  | char a, c => a = c
  | range lo hi, c => between lo c hi

/-- The upper end of a range whose lower end the pattern follows: behind an unmasked `-`, unless
that is the last character of the class. -/
def rangeEnd : List Marked → Option UInt8
  | dash :: y :: _ => if dash = bare '-' ∧ y ≠ bare ']' then some y.1 else none
  | _ => none

/-- The members of a class up to the bracket that closes it, and the number of characters with the
bracket. -/
def members (p : List Marked) : Option (List Member × Nat) :=
  match p with
  | [] => none
  | x :: p =>
      if x = bare ']' then some ([], 1)
      else
        match rangeEnd p with
        | some hi => (members (p.drop 2)).map fun (ms, n) => (.range x.1 hi :: ms, n + 3)
        | none => (members p).map fun (ms, n) => (.char x.1 :: ms, n + 1)
termination_by p.length

/-- The characters of a class: they are of it when one of the members has them, or when none has
and it is negated. -/
structure Class where
  negated : Bool
  members : List Member

def Class.accepts (cls : Class) (c : UInt8) : Bool :=
  (cls.members.any fun member => member.has c) != cls.negated

/-- The members of a class, a leading bracket being one. -/
def leadingMembers (p : List Marked) : Option (List Member × Nat) :=
  if p.head? = some (bare ']') then
    (members p.tail).map fun (ms, n) => (.char ']'.toUInt8 :: ms, n + 1)
  else members p

/-- The class whose opening bracket the pattern follows, and the number of its characters. -/
def classOf (p : List Marked) : Option (Class × Nat) :=
  if p.head? = some (bare '~') then
    (leadingMembers p.tail).map fun (ms, n) => (⟨true, ms⟩, n + 1)
  else (leadingMembers p).map fun (ms, n) => (⟨false, ms⟩, n)

/-! ### Which bytes of a mask the scan of a class reads -/

section Scans

variable (inside : Nat → Nat → Bool)

/-- Is every byte of the mask inside it that is read to find out whether a `-` makes a range? The
byte `n` further on than number `k` is read from there only if `inside k n`. -/
def dashScans (k : Nat) : List Marked → Bool
  | [] => true
  | [dash] => (dash.1 ≠ '-'.toUInt8 || inside k 1) && (dash ≠ bare '-' || inside k 2)
  | dash :: y :: _ =>
      (dash.1 ≠ '-'.toUInt8 || inside k 1) &&
        (dash ≠ bare '-' || y.1 ≠ ']'.toUInt8 || inside k 2)

/-- Is every byte of the mask inside it that the scan of a class reads from its character number
`k` on? -/
def memberScans (k : Nat) (p : List Marked) : Bool :=
  match p with
  | [] => true
  | x :: p =>
      (x.1 ≠ ']'.toUInt8 || inside k 0) &&
        (x = bare ']' || dashScans inside k p &&
          match rangeEnd p with
          | some _ => memberScans (k + 3) (p.drop 2)
          | none => memberScans (k + 1) p)
termination_by p.length

/-- The same, where a leading bracket is a member. -/
def leadingScans (k : Nat) (p : List Marked) : Bool :=
  (p.head?.map Prod.fst ≠ some ']'.toUInt8 || inside k 0) &&
    if p.head? = some (bare ']') then memberScans inside (k + 1) p.tail
    else memberScans inside k p

def classScans (p : List Marked) : Bool :=
  (p.head?.map Prod.fst ≠ some '~'.toUInt8 || inside 0 0) &&
    if p.head? = some (bare '~') then leadingScans inside 1 p.tail else leadingScans inside 0 p

end Scans

/-- The four bytes of `UNQUOTED`: its address is recognised only before the first step. -/
def insideRAW (k n : Nat) : Bool := k = 0 || k + n < 4

/-! ### Patterns -/

/-- The atoms of a pattern. With each stands whether reading it with the mask `UNQUOTED` reads
the bytes of that array only. -/
def parse (p : List Marked) : List (Atom UInt8 × Bool) :=
  match p with
  | [] => []
  | x :: p =>
      if x = bare '?' then (.one fun _ => true, true) :: parse p
      else if x = bare '*' then (.star, true) :: parse p
      else if x = bare '[' then
        match classOf p with
        | some (cls, n) => (.one cls.accepts, classScans insideRAW p) :: parse (p.drop n)
        | none => (.literal x.1, classScans insideRAW p) :: parse p
      else (.literal x.1, true) :: parse p
termination_by p.length

theorem parse_question (p : List Marked) :
    parse (bare '?' :: p) = (.one fun _ => true, true) :: parse p := by
  rw [parse, if_pos rfl]

theorem parse_star (p : List Marked) : parse (bare '*' :: p) = (.star, true) :: parse p := by
  rw [parse, if_neg (by decide), if_pos rfl]

theorem parse_class {p : List Marked} {cls : Class} {n : Nat}
    (found : classOf p = some (cls, n)) :
    parse (bare '[' :: p) = (.one cls.accepts, classScans insideRAW p) :: parse (p.drop n) := by
  rw [parse, if_neg (by decide), if_neg (by decide), if_pos rfl, found]

theorem parse_bracket {p : List Marked} (none : classOf p = none) :
    parse (bare '[' :: p) = (.literal '['.toUInt8, classScans insideRAW p) :: parse p := by
  rw [parse, if_neg (by decide), if_neg (by decide), if_pos rfl, none]
  rfl

theorem parse_literal {x : Marked} (noQuestion : x ≠ bare '?') (noStar : x ≠ bare '*')
    (noBracket : x ≠ bare '[') (p : List Marked) :
    parse (x :: p) = (.literal x.1, true) :: parse p := by
  rw [parse, if_neg noQuestion, if_neg noStar, if_neg noBracket]

/-- The atoms of a pattern. -/
def atoms (p : List Marked) : List (Atom UInt8) := (parse p).map Prod.fst

end Desh
