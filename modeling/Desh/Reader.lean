/-
This file has programs that read characters with `GETC` and push them back with
`UNGETC`. A program runs on an `Input`, and it runs on a list of characters;
the file proves that the two agree for every program that pushes back no null
character, as long as no assertion of `unget` fails, and that none does while at
most `MAXUNGET` characters are outstanding.
-/

import Desh.Input

namespace Desh

/-! ### Programs -/

/-- A program, character by character. It is `unfinished` where a loop has not ended in the rounds
it was given. -/
inductive Reader (α : Type) where
  | ret (value : α)
  | unfinished
  | getc (k : Ch → Reader α)
  | ungetc (c : Ch) (k : Reader α)

namespace Reader

variable {α β : Type}

/-- One program after another. -/
def bind (next : α → Reader β) : Reader α → Reader β
  | .ret value => next value
  | .unfinished => .unfinished
  | .getc k => .getc fun c => bind next (k c)
  | .ungetc c k => .ungetc c (bind next k)

instance : Monad Reader where
  pure := .ret
  bind program next := program.bind next

/-! ### Runs -/

/-- A run on an input: nothing where an assertion fails. -/
def runs : Reader α → Input → Option (Option α × Input)
  | .ret value, input => some (some value, input)
  | .unfinished, input => some (none, input)
  | .getc k, input =>
      match input.GETC with
      | some (c, input) => (k c).runs input
      | none => none
  | .ungetc c k, input =>
      match input.UNGETC c with
      | some input => k.runs input
      | none => none

/-- A run on the characters to come. After the last one there is always another `EOF`. -/
def onList : Reader α → List Ch → Option α × List Ch
  | .ret value, chars => (some value, chars)
  | .unfinished, chars => (none, chars)
  | .getc k, chars => (k (chars.headD none)).onList chars.tail
  | .ungetc c k, chars => k.onList (c :: chars)

/-- No null character is pushed back, on an input without null characters. -/
def PushesNoNull : Reader α → Prop
  | .ret _ => True
  | .unfinished => True
  | .getc k => ∀ c, c ≠ some 0 → (k c).PushesNoNull
  | .ungetc c k => c ≠ some 0 ∧ k.PushesNoNull

/-- On an input of allowed characters, with so many of them outstanding at first, there are never
more than `MAXUNGET`, and only allowed ones are pushed back; and what holds at the end of the number
outstanding then and of the value. -/
def Bounded (allowed : Ch → Prop) (ends : Nat → α → Prop) : Nat → Reader α → Prop
  | n, .ret value => ends n value
  | _, .unfinished => True
  | n, .getc k => ∀ c, allowed c → Bounded allowed ends (n - 1) (k c)
  | n, .ungetc c k => allowed c ∧ n + 1 ≤ MAXUNGET ∧ Bounded allowed ends (n + 1) k

section

variable {allowed : Ch → Prop} {ends : Nat → α → Prop} {n : Nat} {program : Reader α}

theorem Bounded.pushesNoNull (bounded : program.Bounded (· ≠ some 0) ends n) :
    program.PushesNoNull := by
  induction program generalizing n with
  | ret value => exact trivial
  | unfinished => exact trivial
  | getc k ih => exact fun c nonzero => ih c (bounded c nonzero)
  | ungetc c k ih => exact ⟨bounded.1, ih bounded.2.2⟩

theorem Bounded.bind {next : α → Reader β} {last : Nat → β → Prop}
    (bounded : program.Bounded allowed ends n)
    (follows : ∀ m value, ends m value → (next value).Bounded allowed last m) :
    (program >>= next).Bounded allowed last n := by
  induction program generalizing n with
  | ret value => exact follows _ _ bounded
  | unfinished => exact trivial
  | getc k ih => exact fun c nonzero => ih c (bounded c nonzero)
  | ungetc c k ih => exact ⟨bounded.1, bounded.2.1, ih bounded.2.2⟩

end

/-- A run on an input is the run on its characters, and with `-v` what has been read is what has
been echoed. It ends in a failed assertion only if more than `MAXUNGET` characters are
outstanding. -/
theorem runs_eq (program : Reader α) {input : Input} (sound : input.Sound)
    (clean : program.PushesNoNull) {n : Nat} (outstanding : input.unget.length ≤ n)
    (ends : Nat → α → Prop) :
    program.runs input = none ∧ ¬program.Bounded (· ≠ some 0) ends n ∨
      ∃ later, program.runs input = some ((program.onList input.upcoming).1, later) ∧ later.Sound ∧
        later.upcoming = (program.onList input.upcoming).2 ∧
        later.echoinput = input.echoinput ∧
        (input.echoinput = true → later.echoed ++ later.unread = input.echoed ++ input.unread) ∧
        (input.echoinput = false → later.echoed = input.echoed) := by
  induction program generalizing input n with
  | ret value => exact .inr ⟨input, rfl, sound, rfl, rfl, fun _ => rfl, fun _ => rfl⟩
  | unfinished => exact .inr ⟨input, rfl, sound, rfl, rfl, fun _ => rfl, fun _ => rfl⟩
  | getc k ih =>
    obtain ⟨next, got, sound', upcoming, unget, echoinput, echoed, silent⟩ := sound.GETC
    have nonzero := sound.first_ne
    have fewer : next.unget.length ≤ n - 1 := by
      rw [unget, List.length_tail]
      omega
    obtain ⟨failed, many⟩ | ⟨later, ran, sound'', same, echoinput', echoed', silent'⟩ :=
      ih _ sound' (clean _ nonzero) fewer
    · refine .inl ⟨?_, fun bounded => many (bounded _ nonzero)⟩
      rw [runs, got]
      exact failed
    · refine .inr ⟨later, ?_, sound'', ?_, echoinput'.trans echoinput, ?_, ?_⟩
      · rw [runs, got, onList, ← upcoming]
        exact ran
      · rw [same, onList, upcoming]
      · exact fun echo => (echoed' (echoinput.trans echo)).trans (echoed echo)
      · exact fun echo => (silent' (echoinput.trans echo)).trans (silent echo)
  | ungetc c k ih =>
    obtain ⟨nonzero, clean⟩ := clean
    obtain ⟨many, failed⟩ | ⟨next, pushed, sound', upcoming, unget, echoinput, unread, echoed⟩ :=
      sound.UNGETC nonzero
    · refine .inl ⟨?_, fun bounded => ?_⟩
      · rw [runs, failed]
      · have room := bounded.2.1
        omega
    · obtain ⟨failed, more⟩ | ⟨later, ran, sound'', same, echoinput', echoed', silent'⟩ :=
        ih sound' clean (unget.trans (Nat.add_le_add_right outstanding 1))
      · refine .inl ⟨?_, fun bounded => more bounded.2.2⟩
        rw [runs, pushed]
        exact failed
      · refine .inr ⟨later, ?_, sound'', ?_, echoinput'.trans echoinput, ?_, ?_⟩
        · rw [runs, pushed, onList, ← upcoming]
          exact ran
        · rw [same, onList, upcoming]
        · intro echo
          rw [echoed' (echoinput.trans echo), echoed, unread echo]
        · exact fun echo => (silent' (echoinput.trans echo)).trans echoed

end Reader

end Desh
