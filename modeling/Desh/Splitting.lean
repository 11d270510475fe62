/-
This file proves that splitting depends on the separators and on the bytes
alone: not on what was split before, and not on how the bytes are divided into
chunks. The invariant relates the word buffer and the list of words to all that
was read so far. It then sets splitting against its inverse, `$&flatten`, on
which the settors of `path` and `PATH` rest.
-/

import Desh.Split

namespace Desh

/-! ### Words -/

/-- The words of a text: the maximal runs of characters that do not separate. -/
def wordsOf (isifs : UInt8 → Bool) (s : Text) : List Text :=
  (s.splitOnP isifs).filter fun word => !word.isEmpty

variable {isifs : UInt8 → Bool}

theorem wordsOf_nil : wordsOf isifs [] = [] := rfl

/-- Separators in front are skipped. -/
theorem wordsOf_separator {c : UInt8} (separator : isifs c = true) (s : Text) :
    wordsOf isifs (c :: s) = wordsOf isifs s := by
  rw [wordsOf, List.splitOnP_cons_eq_if_modifyHead, if_pos separator]
  rfl

/-- A run up to a separator is a word. -/
theorem wordsOf_run {run : Text} (nonempty : run ≠ []) (plain : ∀ c ∈ run, isifs c = false)
    {c : UInt8} (separator : isifs c = true) (s : Text) :
    wordsOf isifs (run ++ c :: s) = run :: wordsOf isifs s := by
  rw [wordsOf, List.splitOnP_append_cons_of_forall_mem plain c separator,
    List.filter_cons_of_pos (by simpa using nonempty)]
  rfl

/-- So is a run up to the end. -/
theorem wordsOf_last {run : Text} (nonempty : run ≠ []) (plain : ∀ c ∈ run, isifs c = false) :
    wordsOf isifs run = [run] := by
  rw [wordsOf, List.splitOnP_eq_singleton plain, List.filter_cons_of_pos (by simpa using nonempty)]
  rfl

/-- Each separator ends a piece. -/
theorem length_splitOnP (s : Text) : (s.splitOnP isifs).length = s.countP isifs + 1 := by
  induction s with
  | nil => rfl
  | cons c s inductionHypothesis =>
    rw [List.splitOnP_cons_eq_if_modifyHead]
    by_cases separator : isifs c = true
    · rw [if_pos separator, List.length_cons, inductionHypothesis,
        List.countP_cons_of_pos separator]
    · rw [if_neg separator, List.length_modifyHead, inductionHypothesis,
        List.countP_cons_of_neg separator]

/-- A character that does not separate goes to the last piece. -/
theorem splitOnP_concat {c : UInt8} (plain : isifs c = false) (s : Text) :
    ∃ pieces last, s.splitOnP isifs = pieces ++ [last] ∧
      (s ++ [c]).splitOnP isifs = pieces ++ [last ++ [c]] := by
  induction s with
  | nil =>
    refine ⟨[], [], rfl, ?_⟩
    exact List.splitOnP_eq_singleton fun _ member => List.mem_singleton.mp member ▸ plain
  | cons first s inductionHypothesis =>
    obtain ⟨pieces, last, before, after⟩ := inductionHypothesis
    rw [List.cons_append, List.splitOnP_cons_eq_if_modifyHead,
      List.splitOnP_cons_eq_if_modifyHead, before, after]
    by_cases separator : isifs first = true
    · rw [if_pos separator, if_pos separator]
      exact ⟨[] :: pieces, last, rfl, rfl⟩
    · rw [if_neg separator, if_neg separator]
      cases pieces with
      | nil => exact ⟨[], first :: last, rfl, rfl⟩
      | cons piece pieces => exact ⟨(first :: piece) :: pieces, last, rfl, rfl⟩

/-! ### Chunks -/

/-- What a coalescing split holds after it has read some text: the words before the last piece,
and that piece in the buffer unless it is empty. -/
def Pending (isifs : UInt8 → Bool) (read : Text) (buffer : Option Text) (value : List Text) :
    Prop :=
  ∃ pieces last, read.splitOnP isifs = pieces ++ [last] ∧
    value.reverse = pieces.filter (fun word => !word.isEmpty) ∧
    buffer = if last.isEmpty then none else some last

theorem Pending.start : Pending isifs [] none [] := ⟨[], [], rfl, rfl, rfl⟩

/-- One character is read. -/
theorem Pending.separator {read : Text} {buffer : Option Text} {value : List Text}
    (pending : Pending isifs read buffer value) {c : UInt8} (separator : isifs c = true) :
    Pending isifs (read ++ [c]) none (buffer.toList ++ value) := by
  obtain ⟨pieces, last, cut, found, rfl⟩ := pending
  refine ⟨pieces ++ [last], [], ?_, ?_, rfl⟩
  · rw [List.splitOnP_append_cons read [] separator, cut, List.splitOnP_nil]
  · rw [List.filter_append, ← found]
    cases last <;> simp

theorem Pending.plain {read : Text} {buffer : Option Text} {value : List Text}
    (pending : Pending isifs read buffer value) {c : UInt8} (plain : isifs c = false) :
    Pending isifs (read ++ [c]) (some (buffer.getD [] ++ [c])) value := by
  obtain ⟨pieces, last, cut, found, rfl⟩ := pending
  obtain ⟨pieces', last', before, after⟩ := splitOnP_concat plain read
  obtain ⟨rfl, same⟩ := List.append_inj' (before.symm.trans cut) rfl
  cases same
  refine ⟨pieces', last ++ [c], after, found, ?_⟩
  cases last <;> rfl

/-- The character loop reads on, from wherever the text before it ended. -/
theorem Pending.splitLoop {read : Text} {buffer : Option Text} {value : List Text}
    (pending : Pending isifs read buffer value) (s : Text) :
    Pending isifs (read ++ s) (splitLoop isifs true s buffer value).1
      (splitLoop isifs true s buffer value).2 := by
  induction s generalizing read buffer value with
  | nil =>
    rw [List.append_nil, Desh.splitLoop]
    exact pending
  | cons c s inductionHypothesis =>
    rw [show read ++ c :: s = read ++ [c] ++ s by rw [List.append_assoc]; rfl]
    cases buffer with
    | none =>
      by_cases separator : isifs c = true
      · rw [Desh.splitLoop, if_pos separator]
        exact inductionHypothesis (pending.separator separator)
      · rw [Desh.splitLoop, if_neg separator]
        exact inductionHypothesis (pending.plain (Bool.eq_false_iff.mpr separator))
    | some buf =>
      by_cases separator : isifs c = true
      · rw [Desh.splitLoop, if_pos separator, if_pos rfl]
        exact inductionHypothesis (pending.separator separator)
      · rw [Desh.splitLoop, if_neg separator]
        exact inductionHypothesis (pending.plain (Bool.eq_false_iff.mpr separator))

/-- The state of a coalescing split that has read some text. -/
structure Coalescing (sep read : Text) (state : Split) : Prop where
  coalesce : state.coalesce = true
  splitchars : state.splitchars = false
  isifs : state.isifs = ifsTable sep
  pending : Pending (ifsTable sep) read state.buffer state.value

theorem Coalescing.startsplit (sep : Text) (state : Split) :
    Coalescing sep [] (startsplit sep true state) := by
  obtain ⟨coalesce, chars, idle, fresh⟩ := startsplit_fields sep true state
  refine ⟨coalesce, chars, startsplit_isifs sep true state, ?_⟩
  rw [idle, fresh]
  exact Pending.start

/-- One chunk is read. -/
theorem Coalescing.splitstring {sep read : Text} {state : Split}
    (reading : Coalescing sep read state)
    (chunk : Text) : Coalescing sep (read ++ chunk) (splitstring chunk false state) := by
  have after := reading.pending.splitLoop chunk
  have same : Desh.splitstring chunk false state =
      { state with
        buffer := (splitLoop state.isifs true chunk state.buffer state.value).1
        value := (splitLoop state.isifs true chunk state.buffer state.value).2 } := by
    unfold Desh.splitstring
    rw [reading.splitchars, reading.coalesce, if_neg Bool.false_ne_true]
    simp only [Bool.not_true, Bool.false_and, Bool.false_eq_true, if_false]
    rcases splitLoop state.isifs true chunk state.buffer state.value with ⟨_ | buf, value⟩ <;> rfl
  rw [same]
  refine ⟨reading.coalesce, reading.splitchars, reading.isifs, ?_⟩
  dsimp only
  rw [reading.isifs]
  exact after

theorem Coalescing.chunks {sep read : Text} {state : Split} (reading : Coalescing sep read state)
    (chunks : List Text) : Coalescing sep (read ++ chunks.flatten)
      (chunks.foldl (fun state chunk => Desh.splitstring chunk false state) state) := by
  induction chunks generalizing read state with
  | nil =>
    rw [List.flatten_nil, List.append_nil]
    exact reading
  | cons chunk chunks inductionHypothesis =>
    rw [List.flatten_cons, ← List.append_assoc]
    exact inductionHypothesis (reading.splitstring chunk)

/-- The end completes the words of all that was read. -/
theorem Coalescing.endsplit {sep read : Text} {state : Split}
    (reading : Coalescing sep read state) :
    (endsplit state).1 = wordsOf (ifsTable sep) read := by
  obtain ⟨pieces, last, cut, found, buffer⟩ := reading.pending
  rw [wordsOf, cut, List.filter_append, ← found, Desh.endsplit, buffer]
  cases last <;> simp

/-! ### The results -/

/-- Whatever was split before, and however the text is divided, a coalescing split returns its
words. -/
theorem chunks_words (sep : Text) (chunks : List Text) (state : Split) :
    (endsplit (chunks.foldl (fun state chunk => splitstring chunk false state)
      (startsplit sep true state))).1 = wordsOf (ifsTable sep) chunks.flatten :=
  ((Coalescing.startsplit sep state).chunks chunks).endsplit

/-- Without separators, `fsplit` returns the single characters. -/
theorem fsplit_characters (list : List Text) (state : Split) :
    (fsplit [] list false state).1 = list.flatMap fun s => s.map fun c => [c] := by
  obtain ⟨-, chars, idle, fresh⟩ := startsplit_fields [] false state
  have reading : ∀ (list : List Text) (state : Split), state.splitchars = true →
      list.foldl (fun state s => splitstring s true state) state =
        { state with
          value := (list.flatMap fun s => s.map fun c => [c]).reverse ++ state.value } := by
    intro list
    induction list with
    | nil => exact fun _ _ => rfl
    | cons s list inductionHypothesis =>
      intro state chars
      rw [List.foldl_cons, splitstring, if_pos chars, inductionHypothesis _ (by exact chars),
        List.flatMap_cons, List.reverse_append, List.append_assoc]
  rw [fsplit, reading list _ chars, endsplit_idle (by exact idle)]
  simp only [fresh, List.append_nil, List.reverse_reverse]

/-- A call of the splitter. -/
inductive SplitCall where
  | startsplit (sep : Text) (coalesce : Bool)
  | splitstring (input : Text) (endword : Bool)
  | endsplit

/-- What a call leaves behind. -/
def SplitCall.run : SplitCall → Split → Split
  | .startsplit sep coalesce, state => Desh.startsplit sep coalesce state
  | .splitstring input endword, state => Desh.splitstring input endword state
  | .endsplit, state => (Desh.endsplit state).2

/-- What a read from the pipe returns before its end: bytes, or a failure with its `errno`. -/
inductive PipeRead where
  | bytes (chunk : Text)
  | interrupted
  | failed (errno : Nat)

/-- `bqinput`: a read that was interrupted is made again. -/
def bqinput (sep : Text) (reads : List PipeRead) (state : Split) : Except Nat (List Text) × Split :=
  let rec readLoop : List PipeRead → Split → Except Nat (List Text) × Split
    | [], state =>
        let (list, state) := endsplit state
        (.ok list, state)
    | .bytes chunk :: reads, state => readLoop reads (splitstring chunk false state)
    | .interrupted :: reads, state => readLoop reads state
    | .failed errno :: _, state => (.error errno, state)
  readLoop reads (startsplit sep true state)

/-- The bytes that reads deliver. -/
def PipeRead.delivered : PipeRead → Text
  | .bytes chunk => chunk
  | _ => []

/-- The words of a command's output, however the pipe delivers it. -/
theorem bqinput_words (sep : Text) (reads : List PipeRead) (state : Split)
    (complete : ∀ errno, .failed errno ∉ reads) :
    (bqinput sep reads state).1 = .ok (wordsOf (ifsTable sep) (reads.flatMap (·.delivered))) := by
  have loop : ∀ (reads : List PipeRead) (read : Text) (state : Split), Coalescing sep read state →
      (∀ errno, .failed errno ∉ reads) → (bqinput.readLoop reads state).1 =
        .ok (wordsOf (ifsTable sep) (read ++ reads.flatMap (·.delivered))) := by
    intro reads
    induction reads with
    | nil =>
      intro read state reading _
      rw [bqinput.readLoop, List.flatMap_nil, List.append_nil, ← reading.endsplit]
    | cons first reads inductionHypothesis =>
      intro read state reading complete
      have others : ∀ errno, .failed errno ∉ reads := fun errno member =>
        complete errno (List.mem_cons_of_mem _ member)
      rw [List.flatMap_cons, ← List.append_assoc]
      cases first with
      | bytes chunk => exact inductionHypothesis _ _ (reading.splitstring chunk) others
      | interrupted =>
        rw [bqinput.readLoop, PipeRead.delivered, List.append_nil]
        · exact inductionHypothesis _ _ reading others
        · exact nofun
      | failed errno => exact absurd List.mem_cons_self (complete errno)
  exact loop reads [] _ (Coalescing.startsplit sep state) complete

/-! ### Flattening -/

/-- `Lconv` with `%L`: every string is followed by the separator, except the last. -/
def Lconv (sep : Text) : List Text → Text
  | [] => []
  | s :: next => s ++ (if next = [] then [] else sep) ++ Lconv sep next

/-- `$&flatten`, or who fails and why. -/
def primFlatten : List Text → Except (Text × Text) (List Text)
  | [] => .error (lit "$&flatten", lit "usage: %flatten separator [args ...]")
  | sep :: list => .ok [Lconv sep list]

/-- `$&fsplit`. -/
def primFsplit (state : Split) : List Text → Except (Text × Text) (List Text)
  | [] => .error (lit "$&fsplit", lit "usage: %fsplit separator [args ...]")
  | sep :: list => .ok (fsplit sep list false state).1

/-- The variables `path` and `PATH`. -/
structure Aliases where
  path : List Text
  PATH : List Text

/-- An assignment to `path`: its settor assigns to `PATH`, while `set-PATH` is hidden. -/
def setpath (list : List Text) : Except (Text × Text) Aliases :=
  (primFlatten (lit ":" :: list)).map fun PATH => { path := list, PATH }

/-- An assignment to `PATH`: its settor assigns to `path`, while `set-path` is hidden. -/
def setPATH (state : Split) (list : List Text) : Except (Text × Text) Aliases :=
  (primFsplit state (lit ":" :: list)).map fun path => { path, PATH := list }

theorem Lconv_cons (sep s next : Text) (list : List Text) :
    Lconv sep (s :: next :: list) = s ++ sep ++ Lconv sep (next :: list) := by
  rw [Lconv, if_neg nofun]

/-- The pieces of what was flattened are the strings, if there are any. -/
theorem splitOnP_Lconv {c : UInt8} {list : List Text} (nonempty : list ≠ [])
    (plain : ∀ s ∈ list, ∀ b ∈ s, ifsTable [c] b = false) :
    (Lconv [c] list).splitOnP (ifsTable [c]) = list := by
  induction list with
  | nil => exact absurd rfl nonempty
  | cons s list inductionHypothesis =>
    obtain ⟨first, others⟩ := List.forall_mem_cons.mp plain
    cases list with
    | nil =>
      rw [Lconv, if_pos rfl, List.append_nil, Lconv, List.append_nil]
      exact List.splitOnP_eq_singleton first
    | cons next list =>
      have separator : ifsTable [c] c = true := by simp [ifsTable]
      rw [Lconv_cons, List.append_assoc, List.singleton_append,
        List.splitOnP_append_cons_of_forall_mem first c separator,
        inductionHypothesis nofun others]

theorem ifsTable_plain {c b : UInt8} (other : b ≠ c) (nonzero : b ≠ 0) :
    ifsTable [c] b = false := by
  simp [ifsTable, other, nonzero]

theorem flatten_fsplit (c : UInt8) (list : List Text) (plain : ∀ s ∈ list, c ∉ s ∧ 0 ∉ s)
    (state : Split) : (fsplit [c] [Lconv [c] list] false state).1 =
      if list = [] then [[]] else list := by
  rw [fsplit_pieces [c] nofun, List.flatMap_singleton]
  by_cases empty : list = []
  · rw [if_pos empty, empty, Lconv, List.splitOnP_nil]
  · rw [if_neg empty]
    refine splitOnP_Lconv empty fun s member b inside => ?_
    obtain ⟨noSeparator, noNul⟩ := plain s member
    refine ifsTable_plain ?_ ?_
    · rintro rfl
      exact noSeparator inside
    · rintro rfl
      exact noNul inside

end Desh
