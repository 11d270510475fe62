/-
This file models `split.c`: the word splitter shared by the importer of the
environment, `$&split`, `$&fsplit` and backquote substitution. Its static
variables are an explicit state, and the table `isifs`, which `startsplit`
rebuilds only when the separators change, carries the fact that it is up to
date as a field of that state.
-/

import Desh.Text

namespace Desh

/-! ### The splitter's state -/

/-- The separator table `startsplit` builds: the separators, and NUL. -/
def ifsTable (sep : Text) (c : UInt8) : Bool := c == 0 || sep.contains c

/-- The static variables of `split.c`. `value` is the list built so far, last word first, and
`buffer` the word being read. `cached` is what makes it safe not to rebuild the table. -/
structure Split where
  coalesce : Bool
  splitchars : Bool
  buffer : Option Text
  value : List Text
  ifsvalid : Bool
  ifs : Text
  isifs : UInt8 → Bool
  cached : ifsvalid = true → isifs = ifsTable ifs

/-- The state before the first call. -/
def Split.initial : Split where
  coalesce := false
  splitchars := false
  buffer := none
  value := []
  ifsvalid := false
  ifs := []
  isifs := fun _ => false
  cached := fun valid => absurd valid Bool.false_ne_true

/-- `startsplit`: begin a split on the separators, reusing the table when they are the ones it
was last built for. Separator strings of nine or more bytes do not fit in `ifs`. -/
def startsplit (sep : Text) (coalescef : Bool) (state : Split) : Split :=
  let start := { state with
    value := []
    buffer := none
    coalesce := coalescef
    splitchars := !coalescef && sep.isEmpty }
  if state.ifsvalid && sep == state.ifs then start
  else if sep.length + 1 < 10 then
    { start with ifsvalid := true, ifs := sep, isifs := ifsTable sep, cached := fun _ => rfl }
  else
    { start with ifsvalid := false, isifs := ifsTable sep, cached := nofun }

/-- The character loop of `splitstring`, on the word being read and the words found so far. -/
def splitLoop (isifs : UInt8 → Bool) (coalesce : Bool) :
    Text → Option Text → List Text → Option Text × List Text
  | [], buf, value => (buf, value)
  | c :: s, some buf, value =>
      if isifs c then splitLoop isifs coalesce s (if coalesce then none else some []) (buf :: value)
      else splitLoop isifs coalesce s (some (buf ++ [c])) value
  | c :: s, none, value =>
      if isifs c then splitLoop isifs coalesce s none value
      else splitLoop isifs coalesce s (some [c]) value

/-- `splitstring`: split one chunk; `endword` also ends the word being read. -/
def splitstring (input : Text) (endword : Bool) (state : Split) : Split :=
  if state.splitchars then
    { state with value := (input.map fun c => [c]).reverse ++ state.value }
  else
    let opened := if !state.coalesce && state.buffer.isNone then some [] else state.buffer
    match splitLoop state.isifs state.coalesce input opened state.value with
    | (some buf, value) =>
        if endword then { state with buffer := none, value := buf :: value }
        else { state with buffer := some buf, value }
    | (none, value) => { state with buffer := none, value }

/-- `endsplit`: end the word being read and return the words in order. -/
def endsplit (state : Split) : List Text × Split :=
  match state.buffer with
  | some buf => ((buf :: state.value).reverse, { state with buffer := none, value := [] })
  | none => (state.value.reverse, { state with value := [] })

/-- `fsplit`: split every string of a list, each ending a word. -/
def fsplit (sep : Text) (list : List Text) (coalesce : Bool) (state : Split) :
    List Text × Split :=
  endsplit (list.foldl (fun state s => splitstring s true state) (startsplit sep coalesce state))

/-! ### What one call computes -/

/-- Whatever was split before, the table holds the current separators. -/
theorem startsplit_isifs (sep : Text) (coalesce : Bool) (state : Split) :
    (startsplit sep coalesce state).isifs = ifsTable sep := by
  unfold startsplit
  dsimp only
  split
  · rename_i reuse
    rw [Bool.and_eq_true, beq_iff_eq] at reuse
    rw [state.cached reuse.1, reuse.2]
  · split <;> rfl

theorem startsplit_fields (sep : Text) (coalesce : Bool) (state : Split) :
    (startsplit sep coalesce state).coalesce = coalesce ∧
      (startsplit sep coalesce state).splitchars = (!coalesce && sep.isEmpty) ∧
      (startsplit sep coalesce state).buffer = none ∧
      (startsplit sep coalesce state).value = [] := by
  unfold startsplit
  dsimp only
  split
  · exact ⟨rfl, rfl, rfl, rfl⟩
  · split <;> exact ⟨rfl, rfl, rfl, rfl⟩

theorem endsplit_idle {state : Split} (idle : state.buffer = none) :
    (endsplit state).1 = state.value.reverse := by
  rw [endsplit, idle]

/-- Without coalescing, the character loop cuts the input at every separator. -/
theorem splitLoop_eq (isifs : UInt8 → Bool) (s buf : Text) (value : List Text) :
    ∃ last pieces, s.splitOnP isifs = pieces ++ [last] ∧
      splitLoop isifs false s (some buf) value =
        match pieces with
        | [] => (some (buf ++ last), value)
        | first :: rest => (some last, rest.reverse ++ (buf ++ first) :: value) := by
  induction s generalizing buf value with
  | nil => exact ⟨[], [], by simp, by simp [splitLoop]⟩
  | cons c s inductionHypothesis =>
    by_cases separator : isifs c = true
    · obtain ⟨last, pieces, cut, loop⟩ := inductionHypothesis [] (buf :: value)
      refine ⟨last, [] :: pieces, ?_, ?_⟩
      · rw [List.splitOnP_cons_eq_if_modifyHead, if_pos separator, cut, List.cons_append]
      · rw [splitLoop, if_pos separator, if_neg Bool.false_ne_true, loop]
        cases pieces <;> simp
    · obtain ⟨last, pieces, cut, loop⟩ := inductionHypothesis (buf ++ [c]) value
      rw [splitLoop, if_neg separator, loop, List.splitOnP_cons_eq_if_modifyHead,
        if_neg separator, cut]
      cases pieces with
      | nil => exact ⟨c :: last, [], rfl, by simp⟩
      | cons first rest => exact ⟨last, (c :: first) :: rest, rfl, by simp⟩

/-- One non-coalescing `splitstring` that ends its word appends the pieces of the input. -/
theorem splitstring_pieces (state : Split) (s : Text) (chars : state.splitchars = false)
    (separate : state.coalesce = false) (idle : state.buffer = none) :
    splitstring s true state =
      { state with value := (s.splitOnP state.isifs).reverse ++ state.value } := by
  obtain ⟨last, pieces, cut, loop⟩ := splitLoop_eq state.isifs s [] state.value
  unfold splitstring
  rw [chars, separate, idle, if_neg Bool.false_ne_true]
  simp only [Bool.not_false, Option.isNone_none, Bool.and_self, if_true]
  rw [loop, cut]
  cases pieces <;> simp

theorem foldl_splitstring (list : List Text) (state : Split) (chars : state.splitchars = false)
    (separate : state.coalesce = false) (idle : state.buffer = none) :
    list.foldl (fun state s => splitstring s true state) state =
      { state with
        value := (list.flatMap fun s => s.splitOnP state.isifs).reverse ++ state.value } := by
  induction list generalizing state with
  | nil => rfl
  | cons s rest inductionHypothesis =>
    rw [List.foldl_cons, splitstring_pieces state s chars separate idle, inductionHypothesis]
    · simp
    · exact chars
    · exact separate
    · exact idle

/-- A non-coalescing `fsplit` on a nonempty separator returns, string by string, the pieces
between consecutive separators, whatever was split before. -/
theorem fsplit_pieces (sep : Text) (nonempty : sep ≠ []) (list : List Text) (state : Split) :
    (fsplit sep list false state).1 = list.flatMap fun s => s.splitOnP (ifsTable sep) := by
  obtain ⟨separate, chars, idle, fresh⟩ := startsplit_fields sep false state
  have words : (startsplit sep false state).splitchars = false := by
    rw [chars]
    simpa using nonempty
  unfold fsplit
  rw [foldl_splitstring list _ words separate idle, endsplit_idle (by exact idle)]
  simp only [fresh, startsplit_isifs, List.append_nil, List.reverse_reverse]

end Desh
