/-
This file models how completion is handed to the shell (`tty_completion`,
`input.cpp`): a function is chosen by the kind of completion and the name of the
command, and a call of it is put together in an array on the stack, to be read
like a line that was typed. The line editor is not part of the repository; what
it has found is a parameter, the arguments by their texts.

The file proves that the call never leaves the array, which it may fill to the
last byte, and that the number of the argument is wrong in two cases.
-/

import Desh.Completion
import Desh.Limit

namespace Desh

/-! ### The function -/

/-- `CompleteType`. -/
inductive CompleteType where
  | any
  | files
  | dirs
  | exes
  | hist
  | scan
  | env
  | fzf
  | help
  | man
  | next
  deriving DecidableEq

/-- The name that the function is told. -/
def CompleteType.text : CompleteType → Text
  | any => lit "any"
  | files => lit "files"
  | dirs => lit "dirs"
  | exes => lit "exes"
  | hist => lit "hist"
  | scan => lit "scan"
  | env => lit "env"
  | fzf => lit "fzf"
  | help => lit "help"
  | man => lit "man"
  | next => lit "next"

/-- A function, if there is one; `defined` are the names of the variables. -/
def completeNamed (defined : Text → Bool) (name : Text) : Option Text :=
  if defined (lit "fn-" ++ name) then some name else none

/-- The function that is called, where `cmd` is the name of the command. -/
def completeFunction (defined : Text → Bool) (ctype : CompleteType) (cmd : Text) : Option Text :=
  match ctype with
  | .hist => completeNamed defined (lit "_history_complete")
  | .help => completeNamed defined (lit "_help_complete")
  | .man => completeNamed defined (lit "_man_complete")
  | .next => completeNamed defined (lit "_next_complete")
  | .fzf => completeNamed defined (lit "default_complete")
  | _ =>
    (completeNamed defined (cmd ++ lit "_complete")).or
      (completeNamed defined (lit "default_complete"))

/-! ### The call -/

/-- `sizeof (complete)`. -/
def completeSize : Nat := 1024

/-- `sizeof (func)`. -/
def funcSize : Nat := 128

/-- The digits of a number as completion writes them. -/
def argDigits (number : Nat) : Text :=
  (if number > 100 then [(number / 100).toUInt8 + '0'.toUInt8] else []) ++
    (if number > 10 then [(number / 10 % 10).toUInt8 + '0'.toUInt8] else []) ++
    [(number % 10).toUInt8 + '0'.toUInt8]

/-- The loop over the arguments, from the offset it writes at. -/
def completeArgs : Nat → List Text → Text
  | _, [] => []
  | off, arg :: args =>
    if off + 4 + arg.length + 2 > completeSize then []
    else
      let text := ' '.toUInt8 :: copyTerm (off + 1) (completeSize - 6) arg
      text ++ completeArgs (off + text.length) args

/-- The call up to the number of the argument. -/
def completeHead (fn : Text) (ctype : CompleteType) (term : Text) : Text :=
  let head := lit "compreply = <=\x7b" ++ fn ++ lit " " ++ ctype.text ++ lit " "
  head ++ copyTerm head.length (completeSize - 10) term ++ lit " "

/-- The call. -/
def completeCall (fn : Text) (ctype : CompleteType) (term : Text) (number : Nat)
    (args : List Text) : Text :=
  let head := completeHead fn ctype term ++ argDigits (number + 1)
  head ++ completeArgs head.length args ++ lit "\x7d\n"

/-- What `tty_completion` gives: an error, nothing, or a line. -/
inductive TTYCompletion where
  | error
  | internal
  | line (text : Text)
  deriving DecidableEq

/-- `tty_completion`, given the term or not, and the arguments or not. -/
def ttyCompletion (defined : Text → Bool) (ctype : CompleteType) (term : Option Text)
    (number : Nat) : Option (List Text) → TTYCompletion
  | some (cmd :: args) =>
    match term with
    | none => .error
    | some term =>
      if cmd = [] ∨ cmd.length > funcSize - 16 then .error
      else
        match completeFunction defined ctype cmd with
        | none => .internal
        | some fn => .line (completeCall fn ctype term number (cmd :: args))
  | _ => .error

/-! ### The array -/

/-- The loop of `copy_term` stops in time, and leaves what it has not copied. -/
theorem length_copyLoop (max off : Nat) (t : Text) :
    off + (copyLoop max off t).1.length ≤ off ⊔ (max - 2) := by
  fun_induction copyLoop max off t with
  | case1 off c d t full => simp
  | case2 off c d t space doubled written left loop inductionHypothesis =>
    rw [loop] at inductionHypothesis
    dsimp only at inductionHypothesis
    have two : doubled.length ≤ 2 := by
      simp only [doubled]
      split <;> simp
    simp only [List.length_append]
    omega
  | case3 off t short => simp

theorem length_copyLast (t : Text) : (copyLast t).length ≤ 1 := by
  unfold copyLast
  split
  · split <;> simp
  · simp

theorem length_copyFirst (c : UInt8) : (copyFirst c).length ≤ 2 := by
  unfold copyFirst
  split <;> simp

/-- A copy ends at the limit, or not far behind its beginning. -/
theorem length_copyTerm (off limit : Nat) (t : Text) :
    off + (copyTerm off limit t).length ≤ max (off + min t.length 2 + 2) limit := by
  match t with
  | [] =>
    show off + 2 ≤ _
    simp
  | c :: t =>
    rw [copyTerm]
    split
    · show off + 2 ≤ _
      omega
    next more =>
    have looped := length_copyLoop limit (off + (copyFirst c).length) t
    have last := length_copyLast (copyLoop limit (off + (copyFirst c).length) t).2
    have first := length_copyFirst c
    simp only [List.length_append, List.length_cons, List.length_nil]
    cases t with
    | nil =>
      -- a lone character is not a quote, and nothing is behind it
      have looped : (copyLoop limit (off + (copyFirst c).length) []) = ([], []) := rfl
      rw [looped]
      simp only [copyLast, List.length_nil]
      omega
    | cons d t =>
      simp only [List.length_cons]
      omega

/-- The loop over the arguments leaves room for the end of the call. -/
theorem length_completeArgs {off : Nat} (args : List Text) (room : off ≤ completeSize - 3) :
    off + (completeArgs off args).length ≤ completeSize - 3 := by
  induction args generalizing off with
  | nil => simpa [completeArgs] using room
  | cons arg args ih =>
    rw [completeArgs]
    split
    · simpa using room
    next fits =>
      have copied := length_copyTerm (off + 1) (completeSize - 6) arg
      have ends := @ih (off + (' '.toUInt8 :: copyTerm (off + 1) (completeSize - 6) arg).length) (by
        simp only [completeSize, List.length_cons] at fits copied ⊢
        omega)
      simp only [List.length_append] at ends ⊢
      omega

/-- The digits of a number are three at most. -/
theorem length_argDigits (number : Nat) : (argDigits number).length ≤ 3 := by
  unfold argDigits
  split <;> split <;> simp

theorem length_text (ctype : CompleteType) : ctype.text.length ≤ 5 := by
  cases ctype <;> decide

/-- The function has a name that fits, since the name of the command does. -/
theorem length_completeFunction {defined : Text → Bool} {ctype : CompleteType} {cmd fn : Text}
    (short : cmd.length ≤ funcSize - 16) (chosen : completeFunction defined ctype cmd = some fn) :
    3 + fn.length + 1 ≤ funcSize := by
  have named : ∀ {name : Text}, completeNamed defined name = some fn → fn = name := by
    intro name eq
    rw [completeNamed] at eq
    split at eq
    · exact (Option.some.inj eq).symm
    · cases eq
  have command : (completeNamed defined (cmd ++ lit "_complete")).or
      (completeNamed defined (lit "default_complete")) = some fn →
        3 + fn.length + 1 ≤ funcSize := by
    intro eq
    rcases Option.or_eq_some_iff.mp eq with eq | ⟨-, eq⟩
    · rw [named eq, List.length_append]
      have ending : (lit "_complete").length = 9 := rfl
      simp only [funcSize] at short ⊢
      omega
    · rw [named eq]
      decide
  cases ctype with
  | hist => rw [named chosen]; decide
  | help => rw [named chosen]; decide
  | man => rw [named chosen]; decide
  | next => rw [named chosen]; decide
  | fzf => rw [named chosen]; decide
  | _ => exact command chosen

/-- The call without its end leaves room for that. -/
theorem length_completeCall {fn : Text} (short : 3 + fn.length + 1 ≤ funcSize)
    (ctype : CompleteType) (term : Text) (number : Nat) (args : List Text) :
    (completeCall fn ctype term number args).length + 1 ≤ completeSize := by
  set front := lit "compreply = <=\x7b" ++ fn ++ lit " " ++ ctype.text ++ lit " " with isFront
  have size : front.length ≤ 146 := by
    have kind := length_text ctype
    have opening : (lit "compreply = <=\x7b").length = 15 := rfl
    have blank : (lit " ").length = 1 := rfl
    simp only [isFront, List.length_append, opening, blank]
    simp only [funcSize] at short
    omega
  have copied := length_copyTerm front.length (completeSize - 10) term
  have digits := length_argDigits (number + 1)
  set head := completeHead fn ctype term ++ argDigits (number + 1) with isHead
  have headSize : head.length ≤ completeSize - 3 := by
    have whole : completeHead fn ctype term =
        front ++ copyTerm front.length (completeSize - 10) term ++ lit " " := rfl
    have blank : (lit " ").length = 1 := rfl
    simp only [isHead, whole, List.length_append, blank]
    simp only [completeSize] at copied ⊢
    omega
  have ends := length_completeArgs args headSize
  have closing : (lit "\x7d\n").length = 2 := rfl
  have whole : completeCall fn ctype term number args =
      head ++ completeArgs head.length args ++ lit "\x7d\n" := rfl
  rw [whole, List.length_append, List.length_append, closing]
  simp only [completeSize] at ends ⊢
  omega

/-- Whatever is completed, the call stays inside its array with the terminator, and so does the
name of the function that is looked up for it. -/
theorem ttyCompletion_fits {defined : Text → Bool} {ctype : CompleteType} {term : Option Text}
    {number : Nat} {args : Option (List Text)} {text : Text}
    (gives : ttyCompletion defined ctype term number args = .line text) :
    text.length + 1 ≤ completeSize ∧
      ∃ cmd rest, args = some (cmd :: rest) ∧
        (lit "fn-" ++ cmd ++ lit "_complete").length + 1 ≤ funcSize := by
  unfold ttyCompletion at gives
  split at gives
  next cmd rest =>
    split at gives
    · cases gives
    split at gives
    · cases gives
    next short =>
    split at gives
    · cases gives
    next fn chosen =>
    have small : cmd.length ≤ funcSize - 16 := Nat.not_lt.mp fun long => short (.inr long)
    cases gives
    refine ⟨length_completeCall (length_completeFunction small chosen) .., cmd, rest, rfl, ?_⟩
    have opening : (lit "fn-").length = 3 := rfl
    have ending : (lit "_complete").length = 9 := rfl
    simp only [List.length_append, opening, ending]
    simp only [funcSize] at small ⊢
    omega
  · cases gives

/-- Arguments without end, each of them empty, fill the array to the last byte. -/
theorem ttyCompletion_fits_full :
    ∃ text, ttyCompletion (fun _ => true) .fzf (some (lit "t")) 0
        (some (lit "cmd" :: List.replicate 400 [])) = .line text ∧
      text.length + 1 ≤ completeSize ∧
        ∃ cmd rest, some (lit "cmd" :: List.replicate 400 []) = some (cmd :: rest) ∧
          (lit "fn-" ++ cmd ++ lit "_complete").length + 1 ≤ funcSize := by
  have short : ¬(lit "cmd" = [] ∨ (lit "cmd").length > funcSize - 16) := by decide
  have gives : ttyCompletion (fun _ => true) .fzf (some (lit "t")) 0
      (some (lit "cmd" :: List.replicate 400 [])) =
      .line (completeCall (lit "default_complete") .fzf (lit "t") 0
        (lit "cmd" :: List.replicate 400 [])) := by
    simp only [ttyCompletion, if_neg short]
    rfl
  exact ⟨_, gives, ttyCompletion_fits gives⟩

/-- The digits of a number below a thousand. -/
theorem utoa_small {number : Nat} (small : number < 1000) :
    utoa number 10 (digitTable false) =
      (if number ≥ 100 then [(number / 100).toUInt8 + '0'.toUInt8] else []) ++
        (if number ≥ 10 then [(number / 10 % 10).toUInt8 + '0'.toUInt8] else []) ++
        [(number % 10).toUInt8 + '0'.toUInt8] := by
  have digit : ∀ k < 10, (digitTable false).getD k 0 = k.toUInt8 + '0'.toUInt8 := by
    decide +kernel
  have one : ∀ k < 10, utoa k 10 (digitTable false) = [k.toUInt8 + '0'.toUInt8] := by
    intro k less
    rw [utoa, if_neg (Nat.not_le.mpr less), digit k less]
  by_cases hundred : number ≥ 100
  · rw [utoa, if_pos (show number ≥ 10 by omega), utoa, if_pos (show number / 10 ≥ 10 by omega),
      Nat.div_div_eq_div_mul, one _ (show number / (10 * 10) < 10 by omega),
      digit _ (Nat.mod_lt _ (by decide)), digit _ (Nat.mod_lt _ (by decide)), if_pos hundred,
      if_pos (show number ≥ 10 by omega)]
  by_cases ten : number ≥ 10
  · rw [utoa, if_pos ten, one _ (show number / 10 < 10 by omega),
      digit _ (Nat.mod_lt _ (by decide)), if_neg hundred, if_pos ten,
      Nat.mod_eq_of_lt (show number / 10 < 10 by omega), List.nil_append]
  · rw [one _ (show number < 10 by omega), if_neg hundred, if_neg ten,
      Nat.mod_eq_of_lt (show number < 10 by omega), List.nil_append, List.nil_append]

/-- The number of the argument is written as it is, unless it is 10 or 100. -/
theorem argDigits_eq_iff {number : Nat} (small : number < 1000) :
    argDigits number = utoa number 10 (digitTable false) ↔ number ≠ 10 ∧ number ≠ 100 := by
  rw [utoa_small small]
  constructor
  · intro same
    constructor
    · rintro rfl
      exact absurd same (by decide)
    · rintro rfl
      exact absurd same (by decide)
  · rintro ⟨ten, hundred⟩
    have hundreds : number > 100 ↔ number ≥ 100 := by omega
    have tens : number > 10 ↔ number ≥ 10 := by omega
    rw [argDigits, if_congr hundreds rfl rfl, if_congr tens rfl rfl]

end Desh
