/-
This file models how the shell reads characters (`input.cpp`): a buffer that is
filled from a descriptor, or holds a string, and two ways to push a character
back. One steps back in the buffer; the other keeps the character apart and has
`fill` bring it back. With `-v` every character that is read is echoed.

The file proves that for a NUL-free input all of this is a list of characters,
from which `GETC` takes the first and to which `UNGETC` adds one in front, and
that the echo is what has been read of the input.
-/

import Desh.Text

namespace Desh

/-! ### Inputs -/

/-- A character, or `EOF`. -/
abbrev Ch := Option UInt8

/-- At most so many characters are pushed back. -/
def MAXUNGET : Nat := 2

/-- The routines that fill the buffer. -/
inductive Fill where
  | eoffill
  | stringfill
  | fdfill
  | ungetfill
  deriving DecidableEq

/-- `Input`. The buffer from `bufbegin` to `bufend` is `bytes`, and `buf` and `rbuf` are offsets in
it. `unget` has the first `ungot` elements of the array, the last one first. `fd` has what each
`read` is still to bring up to the end of the file, and is nothing when the descriptor is closed.
`echoed` is what has been written to standard error. -/
structure Input where
  bytes : Text
  buf : Nat
  rbuf : Option Nat
  fill : Fill
  rfill : Option Fill
  unget : List Ch
  fd : Option (List Text)
  echoinput : Bool
  interrupt : Bool
  echoed : Text
  deriving DecidableEq

namespace Input

/-- The input of `runfd`. -/
def ofReads (reads : List Text) (echoinput : Bool) : Input where
  bytes := []
  buf := 0
  rbuf := none
  fill := .fdfill
  rfill := none
  unget := []
  fd := some reads
  echoinput
  interrupt := false
  echoed := []

/-- The input of `runstring` and `parsestring`. -/
def ofString (str : Text) (echoinput : Bool) : Input where
  bytes := str
  buf := 0
  rbuf := none
  fill := .stringfill
  rfill := none
  unget := []
  fd := none
  echoinput
  interrupt := false
  echoed := []

/-! ### Filling the buffer -/

/-- `eoffill`. -/
def eoffill (input : Input) : Option (Ch × Input) :=
  if input.fd.isNone then some (none, input) else none

/-- `stringfill`. -/
def stringfill (input : Input) : Option (Ch × Input) :=
  some (none, { input with fill := .eoffill })

/-- `fdfill`, when no read fails. -/
def fdfill (input : Input) : Option (Ch × Input) :=
  if input.buf ≠ input.bytes.length then none
  else
    match input.fd with
    | none => none
    | some ((c :: bytes) :: reads) =>
        some (some c, { input with bytes := c :: bytes, buf := 1, fd := some reads })
    | some _ => some (none, { input with fd := none, fill := .eoffill })

/-- `ungetfill`. -/
def ungetfill (input : Input) : Option (Ch × Input) :=
  match input.unget with
  | [] => none
  | [c] =>
      match input.rfill, input.rbuf with
      | some fill, some buf =>
          some (c, { input with unget := [], fill, rfill := none, buf, rbuf := none })
      | _, _ => none
  | c :: unget => some (c, { input with unget })

/-- The call of `fill`. -/
def refill (input : Input) : Option (Ch × Input) :=
  match input.fill with
  | .eoffill => input.eoffill
  | .stringfill => input.stringfill
  | .fdfill => input.fdfill
  | .ungetfill => input.ungetfill

/-! ### Getting and pushing back -/

/-- A character, from the buffer or from `fill`. -/
def fetch (input : Input) : Option (Ch × Input) :=
  match input.bytes[input.buf]? with
  | some c => some (some c, { input with buf := input.buf + 1 })
  | none => input.refill

/-- The loop of `get`, for so many rounds. -/
def getLoop : Nat → Input → Option (Ch × Input)
  | 0, _ => none
  | rounds + 1, input => do
      let (c, input) ← input.fetch
      if c ≠ some 0 then some (c, input)
      else if input.interrupt then some (c, { input with interrupt := false })
      else getLoop rounds input

/-- The bytes of the input that have not been read: those of the buffer and those of the reads to
come. -/
def unread (input : Input) : Text :=
  input.bytes.drop (input.rbuf.getD input.buf) ++ (input.fd.getD []).flatten

/-- The characters to come, up to the end of the input. -/
def upcoming (input : Input) : List Ch :=
  input.unget ++ input.unread.map some

/-- `get`, whose loop has at most one round for each null character and one more. -/
def get (input : Input) : Option (Ch × Input) :=
  input.getLoop (input.upcoming.length + 1)

/-- `getverbose`. -/
def getverbose (input : Input) : Option (Ch × Input) :=
  if input.fill = .ungetfill then input.get
  else do
    let (c, input) ← input.get
    match c with
    | none => some (c, input)
    | some byte => some (c, { input with echoed := input.echoed ++ [byte] })

/-- `GETC`: `runinput` sets `get` by the flag. -/
def GETC (input : Input) : Option (Ch × Input) :=
  if input.echoinput then input.getverbose else input.get

/-- `unget`, and `UNGETC`. -/
def UNGETC (c : Ch) (input : Input) : Option Input :=
  if input.unget ≠ [] then
    if input.unget.length < MAXUNGET then some { input with unget := c :: input.unget } else none
  else if 0 < input.buf ∧ input.bytes[input.buf - 1]? = c ∧ c ≠ none ∧ !input.echoinput then
    some { input with buf := input.buf - 1 }
  else if input.rfill = none ∧ input.rbuf = none then
    some { input with
      rfill := some input.fill
      fill := .ungetfill
      rbuf := some input.buf
      buf := input.bytes.length
      unget := [c] }
  else none

/-! ### What holds of an input -/

/-- The two kinds of pushback do not get in each other's way: while characters are kept apart the
buffer looks empty, and `rfill` and `rbuf` have what belongs there. Nothing to come is a null
character, and only the end of the file is a read of nothing. -/
structure Sound (input : Input) : Prop where
  bound : input.rbuf.getD input.buf ≤ input.bytes.length
  idle : input.unget = [] → input.rfill = none ∧ input.rbuf = none ∧ input.fill ≠ .ungetfill
  pushed : input.unget ≠ [] → input.fill = .ungetfill ∧ input.buf = input.bytes.length ∧
    ∃ fill buf, input.rfill = some fill ∧ fill ≠ .ungetfill ∧ input.rbuf = some buf
  opened : input.rfill.getD input.fill = .fdfill ↔ input.fd.isSome
  reads : ∀ bytes ∈ input.fd.getD [], bytes ≠ []
  nulFree : some 0 ∉ input.upcoming

theorem sound_ofReads {reads : List Text} (nonempty : ∀ bytes ∈ reads, bytes ≠ [])
    (nulFree : NulFree reads.flatten) (echoinput : Bool) : (ofReads reads echoinput).Sound where
  bound := le_refl _
  idle _ := ⟨rfl, rfl, Fill.noConfusion⟩
  pushed apart := absurd rfl apart
  opened := iff_of_true rfl rfl
  reads := nonempty
  nulFree member := by
    obtain ⟨c, inside, same⟩ := List.mem_map.mp member
    cases same
    exact nulFree inside

theorem sound_ofString {str : Text} (nulFree : NulFree str) (echoinput : Bool) :
    (ofString str echoinput).Sound where
  bound := Nat.zero_le _
  idle _ := ⟨rfl, rfl, Fill.noConfusion⟩
  pushed apart := absurd rfl apart
  opened := iff_of_false Fill.noConfusion Bool.noConfusion
  reads := nofun
  nulFree member := by
    obtain ⟨c, inside, same⟩ := List.mem_map.mp member
    cases same
    refine nulFree ?_
    simpa [unread, ofString] using inside

/-- What is left when the first character has been taken. -/
structure Taken (input later : Input) : Prop where
  sound : later.Sound
  upcoming : later.upcoming = input.upcoming.tail
  unget : later.unget = input.unget.tail
  unread : later.unread = if input.unget = [] then input.unread.tail else input.unread
  echoinput : later.echoinput = input.echoinput
  echoed : later.echoed = input.echoed

section

variable {input : Input}

theorem Sound.unread_idle (sound : input.Sound) (apart : input.unget = []) :
    input.unread = input.bytes.drop input.buf ++ (input.fd.getD []).flatten := by
  rw [unread, (sound.idle apart).2.1]
  rfl

theorem Sound.ungetfill (sound : input.Sound) (apart : input.unget ≠ []) :
    ∃ later, input.ungetfill = some (input.upcoming.headD none, later) ∧ Taken input later := by
  obtain ⟨bytes, buf, rbuf, fill, rfill, unget, fd, echoinput, interrupt, echoed⟩ := input
  obtain ⟨filled, ended, under, saved, rfl, ne, rfl⟩ := sound.pushed apart
  have nulFree := sound.nulFree
  match unget, apart with
  | [c], _ =>
    refine ⟨_, rfl, ⟨⟨sound.bound, fun _ => ⟨rfl, rfl, ne⟩, fun apart => absurd rfl apart,
      sound.opened, sound.reads, ?_⟩, rfl, rfl, rfl, rfl, rfl⟩⟩
    exact fun member => nulFree (List.mem_cons_of_mem c member)
  | c :: d :: rest, _ =>
    refine ⟨_, rfl, ⟨⟨sound.bound, nofun, fun _ => ⟨filled, ended, under, saved, rfl, ne, rfl⟩,
      sound.opened, sound.reads, ?_⟩, rfl, rfl, rfl, rfl, rfl⟩⟩
    exact fun member => nulFree (List.mem_cons_of_mem c member)

/-- At the end of the input there is nothing to take. -/
theorem taken_ended {later : Input} (sound : later.Sound) (apart : input.unget = [])
    (ended : input.unread = []) (apart' : later.unget = []) (ended' : later.unread = [])
    (echoinput : later.echoinput = input.echoinput) (echoed : later.echoed = input.echoed) :
    input.upcoming.headD none = none ∧ Taken input later := by
  have nothing : input.upcoming = [] := by rw [upcoming, apart, ended]; rfl
  have nothing' : later.upcoming = [] := by rw [upcoming, apart', ended']; rfl
  refine ⟨by rw [nothing]; rfl, sound, by rw [nothing, nothing']; rfl, by rw [apart, apart']; rfl,
    ?_, echoinput, echoed⟩
  rw [if_pos apart, ended, ended']
  rfl

theorem Sound.closed (sound : input.Sound) (apart : input.unget = [])
    (other : input.fill ≠ .fdfill) : input.fd = none := by
  have opened := sound.opened
  rw [(sound.idle apart).1] at opened
  cases fd : input.fd with
  | none => rfl
  | some reads => exact absurd (opened.mpr (by rw [fd]; rfl)) other

/-- The end of the input has been met. -/
theorem Sound.ended (sound : input.Sound) (apart : input.unget = [])
    (nothing : input.unread = []) :
    ({ input with fd := none, fill := .eoffill } : Input).Sound ∧
      ({ input with fd := none, fill := .eoffill } : Input).unread = [] := by
  have none' : ({ input with fd := none, fill := .eoffill } : Input).unread = [] := by
    rw [unread] at nothing ⊢
    exact List.append_eq_nil_iff.mpr ⟨(List.append_eq_nil_iff.mp nothing).1, rfl⟩
  refine ⟨⟨sound.bound, fun _ => ⟨(sound.idle apart).1, (sound.idle apart).2.1,
    Fill.noConfusion⟩, fun other => absurd apart other, ?_, nofun, ?_⟩, none'⟩
  · show input.rfill.getD .eoffill = .fdfill ↔ _
    rw [(sound.idle apart).1]
    exact iff_of_false Fill.noConfusion Bool.noConfusion
  · rw [upcoming, none']
    show some 0 ∉ input.unget ++ []
    rw [apart]
    exact List.not_mem_nil

theorem Sound.refill (sound : input.Sound) (apart : input.unget = [])
    (ended : input.buf = input.bytes.length) :
    ∃ later, input.refill = some (input.upcoming.headD none, later) ∧ Taken input later := by
  have idle := sound.idle apart
  have rest : input.unread = (input.fd.getD []).flatten := by
    rw [sound.unread_idle apart, ended, List.drop_length, List.nil_append]
  unfold Input.refill
  cases filled : input.fill with
  | ungetfill => exact absurd filled idle.2.2
  | eoffill =>
    have closed : input.fd = none := sound.closed apart (by rw [filled]; exact Fill.noConfusion)
    have nothing : input.unread = [] := by rw [rest, closed]; rfl
    obtain ⟨first, taken⟩ := taken_ended sound apart nothing apart nothing rfl rfl
    refine ⟨input, ?_, taken⟩
    rw [first]
    show input.eoffill = _
    rw [eoffill, closed]
    rfl
  | stringfill =>
    have closed : input.fd = none := sound.closed apart (by rw [filled]; exact Fill.noConfusion)
    have nothing : input.unread = [] := by rw [rest, closed]; rfl
    obtain ⟨later, ended'⟩ := sound.ended apart nothing
    obtain ⟨first, taken⟩ := taken_ended later apart nothing apart ended' rfl rfl
    refine ⟨_, ?_, taken⟩
    rw [first, ← closed]
    rfl
  | fdfill =>
    show ∃ later, input.fdfill = _ ∧ _
    unfold fdfill
    rw [if_neg (not_not.mpr ended)]
    have isOpen : input.fd.isSome := sound.opened.mp (by rw [idle.1]; exact filled)
    obtain ⟨reads, fd⟩ := Option.isSome_iff_exists.mp isOpen
    cases reads with
    | nil =>
      have nothing : input.unread = [] := by rw [rest, fd]; rfl
      obtain ⟨later, ended'⟩ := sound.ended apart nothing
      obtain ⟨first, taken⟩ := taken_ended later apart nothing apart ended' rfl rfl
      refine ⟨_, ?_, taken⟩
      rw [first, fd]
    | cons read reads =>
      cases read with
      | nil =>
        refine absurd rfl (sound.reads [] ?_)
        rw [fd]
        exact List.mem_cons_self
      | cons c read =>
        have before : input.upcoming = some c :: (read ++ reads.flatten).map some := by
          rw [upcoming, apart, rest, fd]
          rfl
        have unread : ({ input with bytes := c :: read, buf := 1, fd := some reads } :
            Input).unread = read ++ reads.flatten := by
          rw [Input.unread]
          show (c :: read).drop (input.rbuf.getD 1) ++ _ = _
          rw [idle.2.1]
          rfl
        have after : ({ input with bytes := c :: read, buf := 1, fd := some reads } :
            Input).upcoming = (read ++ reads.flatten).map some := by
          rw [upcoming, unread]
          show input.unget ++ _ = _
          rw [apart]
          rfl
        refine ⟨{ input with bytes := c :: read, buf := 1, fd := some reads }, ?_,
          ⟨⟨?_, fun _ => idle, fun other => absurd apart other, ?_, ?_, ?_⟩, ?_, ?_, ?_, rfl, rfl⟩⟩
        · rw [before, fd]
          rfl
        · show input.rbuf.getD 1 ≤ read.length + 1
          rw [idle.2.1]
          exact Nat.le_add_left 1 _
        · show input.rfill.getD input.fill = _ ↔ _
          rw [idle.1]
          exact iff_of_true filled rfl
        · intro bytes member
          refine sound.reads bytes ?_
          rw [fd]
          exact List.mem_cons_of_mem _ member
        · rw [after]
          intro member
          refine sound.nulFree ?_
          rw [before]
          exact List.mem_cons_of_mem _ member
        · rw [after, before]
          rfl
        · show input.unget = _
          rw [apart]
          rfl
        · rw [if_pos apart, unread, rest, fd]
          rfl

theorem Sound.first_ne (sound : input.Sound) : input.upcoming.headD none ≠ some 0 := by
  have nulFree := sound.nulFree
  cases upcoming : input.upcoming with
  | nil => exact nofun
  | cons c rest =>
    rw [upcoming] at nulFree
    exact fun same => nulFree (same ▸ List.mem_cons_self)

theorem Sound.fetch (sound : input.Sound) :
    ∃ later, input.fetch = some (input.upcoming.headD none, later) ∧ Taken input later := by
  unfold Input.fetch
  cases get : input.bytes[input.buf]? with
  | none =>
    by_cases apart : input.unget = []
    · have bound := sound.bound
      rw [(sound.idle apart).2.1] at bound
      exact sound.refill apart (le_antisymm bound (List.getElem?_eq_none_iff.mp get))
    · show ∃ later, input.refill = _ ∧ _
      rw [Input.refill, (sound.pushed apart).1]
      exact sound.ungetfill apart
  | some c =>
    have inside := (List.getElem?_eq_some_iff.mp get).1
    have apart : input.unget = [] := by
      by_contra other
      exact absurd (sound.pushed other).2.1 (by omega)
    have idle := sound.idle apart
    have split : input.bytes.drop input.buf = c :: input.bytes.drop (input.buf + 1) := by
      rw [List.drop_eq_getElem_cons inside, (List.getElem?_eq_some_iff.mp get).2]
    have before : input.unread =
        c :: (input.bytes.drop (input.buf + 1) ++ (input.fd.getD []).flatten) := by
      rw [sound.unread_idle apart, split]
      rfl
    have after : ({ input with buf := input.buf + 1 } : Input).unread =
        input.bytes.drop (input.buf + 1) ++ (input.fd.getD []).flatten := by
      rw [unread]
      show input.bytes.drop (input.rbuf.getD _) ++ _ = _
      rw [idle.2.1]
      rfl
    have whole : input.upcoming =
        some c :: ({ input with buf := input.buf + 1 } : Input).upcoming := by
      rw [upcoming, upcoming, before, after]
      show input.unget ++ _ = some c :: (input.unget ++ _)
      rw [apart]
      rfl
    refine ⟨{ input with buf := input.buf + 1 }, ?_, ⟨⟨?_, fun _ => idle,
      fun other => absurd apart other, sound.opened, sound.reads, ?_⟩, ?_, ?_, ?_, rfl, rfl⟩⟩
    · rw [whole]
      rfl
    · show input.rbuf.getD (input.buf + 1) ≤ input.bytes.length
      rw [idle.2.1]
      exact inside
    · intro member
      refine sound.nulFree ?_
      rw [whole]
      exact List.mem_cons_of_mem _ member
    · rw [whole]
      rfl
    · show input.unget = _
      rw [apart]
      rfl
    · rw [if_pos apart, after, before]
      rfl

/-- `get` takes the first character, and needs no second round for it. -/
theorem Sound.get (sound : input.Sound) :
    ∃ later, input.get = some (input.upcoming.headD none, later) ∧ Taken input later := by
  obtain ⟨later, first, taken⟩ := sound.fetch
  refine ⟨later, ?_, taken⟩
  rw [Input.get, getLoop]
  exact Option.bind_eq_some_iff.mpr ⟨_, first, if_pos sound.first_ne⟩

/-- `GETC` takes the first character, and echoes it unless it was pushed back. -/
theorem Sound.GETC (sound : input.Sound) :
    ∃ later, input.GETC = some (input.upcoming.headD none, later) ∧ later.Sound ∧
      later.upcoming = input.upcoming.tail ∧ later.unget = input.unget.tail ∧
      later.echoinput = input.echoinput ∧
      (input.echoinput = true → later.echoed ++ later.unread = input.echoed ++ input.unread) ∧
      (input.echoinput = false → later.echoed = input.echoed) := by
  obtain ⟨later, got, taken⟩ := sound.get
  unfold Input.GETC
  cases echo : input.echoinput with
  | false =>
    exact ⟨later, got, taken.sound, taken.upcoming, taken.unget, taken.echoinput.trans echo,
      nofun, fun _ => taken.echoed⟩
  | true =>
    rw [if_pos rfl, getverbose]
    have unread := taken.unread
    by_cases apart : input.unget = []
    · rw [if_pos apart] at unread
      rw [if_neg (sound.idle apart).2.2, got]
      have whole : input.upcoming = input.unread.map some := by rw [upcoming, apart]; rfl
      cases rest : input.unread with
      | nil =>
        refine ⟨later, by rw [whole, rest]; rfl, taken.sound, taken.upcoming, taken.unget,
          taken.echoinput.trans echo, fun _ => ?_, nofun⟩
        rw [unread, taken.echoed, rest]
        rfl
      | cons c bytes =>
        have done := taken.sound
        refine ⟨{ later with echoed := later.echoed ++ [c] }, by rw [whole, rest]; rfl,
          ⟨done.bound, done.idle, done.pushed, done.opened, done.reads, done.nulFree⟩,
          taken.upcoming, taken.unget, taken.echoinput.trans echo, fun _ => ?_, nofun⟩
        show later.echoed ++ [c] ++ later.unread = _
        rw [unread, taken.echoed, rest, List.append_assoc]
        rfl
    · rw [if_neg apart] at unread
      rw [if_pos (sound.pushed apart).1]
      refine ⟨later, got, taken.sound, taken.upcoming, taken.unget, taken.echoinput.trans echo,
        fun _ => ?_, nofun⟩
      rw [unread, taken.echoed]

/-- `UNGETC` puts a character in front of the others, unless too many are kept apart. -/
theorem Sound.UNGETC (sound : input.Sound) {c : Ch} (nonzero : c ≠ some 0) :
    MAXUNGET ≤ input.unget.length ∧ input.UNGETC c = none ∨
      ∃ later, input.UNGETC c = some later ∧ later.Sound ∧
        later.upcoming = c :: input.upcoming ∧ later.unget.length ≤ input.unget.length + 1 ∧
        later.echoinput = input.echoinput ∧
        (input.echoinput = true → later.unread = input.unread) ∧
        later.echoed = input.echoed := by
  have nulFree : some 0 ∉ c :: input.upcoming := by
    rw [List.mem_cons, not_or]
    exact ⟨nonzero.symm, sound.nulFree⟩
  unfold Input.UNGETC
  split
  · rename_i apart
    obtain ⟨filled, ended, saved⟩ := sound.pushed apart
    split
    · exact .inr ⟨_, rfl, ⟨sound.bound, nofun, fun _ => ⟨filled, ended, saved⟩, sound.opened,
        sound.reads, nulFree⟩, rfl, le_refl _, rfl, fun _ => rfl, rfl⟩
    · rename_i many
      exact .inl ⟨not_lt.mp many, rfl⟩
  · rename_i apart
    rw [not_not] at apart
    have idle := sound.idle apart
    right
    split
    · rename_i back
      obtain ⟨positive, same, isByte, silent⟩ := back
      cases c with
      | none => exact absurd rfl isByte
      | some byte =>
        obtain ⟨inside, get⟩ := List.getElem?_eq_some_iff.mp same
        have place : input.buf - 1 + 1 = input.buf := Nat.sub_add_cancel positive
        have unread : ({ input with buf := input.buf - 1 } : Input).unread =
            byte :: input.unread := by
          rw [Input.unread, Input.unread]
          show input.bytes.drop (input.rbuf.getD _) ++ _ = _
          rw [idle.2.1]
          show input.bytes.drop (input.buf - 1) ++ _ = byte :: (input.bytes.drop input.buf ++ _)
          rw [List.drop_eq_getElem_cons inside, get, place]
          rfl
        have upcoming : ({ input with buf := input.buf - 1 } : Input).upcoming =
            some byte :: input.upcoming := by
          rw [Input.upcoming, Input.upcoming, unread]
          show input.unget ++ _ = some byte :: (input.unget ++ _)
          rw [apart]
          rfl
        refine ⟨_, rfl, ⟨?_, fun _ => idle, fun other => absurd apart other, sound.opened,
          sound.reads, ?_⟩, upcoming, Nat.le_succ _, rfl, fun echo => ?_, rfl⟩
        · show input.rbuf.getD (input.buf - 1) ≤ input.bytes.length
          rw [idle.2.1]
          exact inside.le
        · rw [upcoming]
          exact nulFree
        · rw [echo] at silent
          cases silent
    · rw [if_pos ⟨idle.1, idle.2.1⟩]
      have unread : ({ input with
          rfill := some input.fill, fill := .ungetfill, rbuf := some input.buf,
          buf := input.bytes.length, unget := [c] } : Input).unread = input.unread := by
        rw [Input.unread, Input.unread, idle.2.1]
        rfl
      have upcoming : ({ input with
          rfill := some input.fill, fill := .ungetfill, rbuf := some input.buf,
          buf := input.bytes.length, unget := [c] } : Input).upcoming = c :: input.upcoming := by
        rw [Input.upcoming, Input.upcoming, unread, apart]
        rfl
      refine ⟨_, rfl, ⟨?_, nofun, fun _ => ⟨rfl, rfl, input.fill, input.buf, rfl, idle.2.2, rfl⟩,
        ?_, sound.reads, ?_⟩, upcoming, ?_, rfl, fun _ => unread, rfl⟩
      · have bound := sound.bound
        rw [idle.2.1] at bound
        exact bound
      · have opened := sound.opened
        rw [idle.1] at opened
        exact opened
      · rw [upcoming]
        exact nulFree
      · show 1 ≤ _
        exact Nat.le_add_left 1 _

end

end Input

end Desh
