/-
This file proves what is printed. The functions that make room in the buffer of
a string lose nothing, and neither does a flush that writes all at once. But
the loop of `fprint_flush` does not move on in the buffer: after a short write
it begins again with the first bytes, and writes as many of them as are left.
-/

import Mathlib.Data.List.TakeWhile
import Desh.Print

namespace Desh

namespace Print

open Format

/-! ### Making room -/

/-- A way to make room that keeps what a format stands for: the text printed so far. -/
structure MakesRoom {Sink : Type} (stands : Text → Format Sink → Prop) (grow : Grow Sink) :
    Prop where
  bounded : ∀ {text format}, stands text format →
    format.buf ≤ format.bufend ∧ format.bufend ≤ format.block.length
  written : ∀ {text format bytes}, stands text format →
    format.buf + bytes.length ≤ format.bufend → stands (text ++ bytes) (format.written bytes)
  room : ∀ {text format more}, stands text format → format.buf = format.bufend → 0 < more →
    ∃ next, grow format more = .ok next ∧ stands text next ∧ next.buf < next.bufend

namespace MakesRoom

variable {Sink : Type} {stands : Text → Format Sink → Prop} {grow : Grow Sink} {text : Text}
  {format : Format Sink}

theorem put_spec (makes : MakesRoom stands grow) (standing : stands text format) {bytes : Text}
    (fits : format.buf + bytes.length ≤ format.bufend) :
    format.put bytes = .ok (format.written bytes) ∧ stands (text ++ bytes) (format.written bytes) :=
  ⟨if_pos ⟨fits, (makes.bounded standing).2⟩, makes.written standing fits⟩

theorem fmtputc_spec (makes : MakesRoom stands grow) (standing : stands text format) (c : UInt8) :
    ∃ next, format.fmtputc grow c = .ok next ∧ stands (text ++ [c]) next := by
  have bounds := makes.bounded standing
  unfold fmtputc
  by_cases full : format.buf ≥ format.bufend
  · obtain ⟨grown, grows, standing', room⟩ :=
      makes.room standing (le_antisymm bounds.1 full) Nat.one_pos
    obtain ⟨puts, stood⟩ := @put_spec _ _ _ _ _ makes standing' [c] room
    refine ⟨_, ?_, stood⟩
    rw [if_pos full, grows]
    exact puts
  · obtain ⟨puts, stood⟩ := @put_spec _ _ _ _ _ makes standing [c] (not_le.mp full)
    refine ⟨_, ?_, stood⟩
    rw [if_neg full]
    exact puts

/-- A round of the loop copies a byte, unless the buffer is full. -/
theorem fmtappendLoop_spec (makes : MakesRoom stands grow) {rounds : Nat} {s : Text}
    (standing : stands text format)
    (enough : s.length + (if format.buf = format.bufend then 1 else 0) < rounds) :
    ∃ next, fmtappendLoop grow rounds format s = .ok next ∧ stands (text ++ s) next := by
  induction rounds generalizing text format s with
  | zero => exact absurd enough (Nat.not_lt_zero _)
  | succ rounds inductionHypothesis =>
    have bounds := makes.bounded standing
    unfold fmtappendLoop
    by_cases long : format.buf + s.length > format.bufend
    · set split := format.bufend - format.buf with isSplit
      have taken : (s.take split).length = split := by
        rw [List.length_take]
        omega
      obtain ⟨puts, standing'⟩ := @put_spec _ _ _ _ _ makes standing (s.take split) (by omega)
      have atEnd : (format.written (s.take split)).buf =
          (format.written (s.take split)).bufend := by
        show format.buf + (s.take split).length = format.bufend
        omega
      obtain ⟨grown, grows, standing'', room⟩ :=
        makes.room standing' atEnd (show 0 < s.length - split by omega)
      obtain ⟨next, loops, stood⟩ := @inductionHypothesis _ grown (s.drop split) standing'' (by
        rw [if_neg room.ne, List.length_drop]
        split_ifs at enough <;> omega)
      rw [List.append_assoc, List.take_append_drop] at stood
      refine ⟨next, ?_, stood⟩
      rw [if_pos long]
      dsimp only
      rw [puts]
      show (grow (format.written (s.take split)) (s.length - split) >>= fun format =>
        fmtappendLoop grow rounds format (s.drop split)) = _
      rw [grows]
      exact loops
    · obtain ⟨puts, stood⟩ := @put_spec _ _ _ _ _ makes standing s (not_lt.mp long)
      exact ⟨_, (if_neg long).trans puts, stood⟩

theorem fmtappend_spec (makes : MakesRoom stands grow) (standing : stands text format) (s : Text) :
    ∃ next, format.fmtappend grow s = .ok next ∧ stands (text ++ s) next :=
  makes.fmtappendLoop_spec standing (by split_ifs <;> omega)

/-- Whatever is called, the format stands for the chunks in order. -/
theorem runAll_spec (makes : MakesRoom stands grow) (standing : stands text format)
    (calls : List PrintCall) :
    ∃ next, PrintCall.runAll grow format calls = .ok next ∧
      stands (text ++ printed calls) next := by
  induction calls generalizing text format with
  | nil => exact ⟨format, rfl, by rwa [printed, List.flatMap_nil, List.append_nil]⟩
  | cons call calls inductionHypothesis =>
    have step : ∃ next, call.run grow format = .ok next ∧ stands (text ++ call.chunk) next := by
      cases call with
      | fmtputc c => exact makes.fmtputc_spec standing c
      | fmtappend s => exact makes.fmtappend_spec standing s
    obtain ⟨next, runs, standing'⟩ := step
    obtain ⟨last, rest, stood⟩ := inductionHypothesis standing'
    refine ⟨last, ?_, ?_⟩
    · rw [PrintCall.runAll, List.foldlM_cons, runs]
      exact rest
    · rwa [printed, List.flatMap_cons, ← List.append_assoc]

end MakesRoom

/-! ### The contents of a buffer -/

/-- The text is what has left the buffer, and then what is in it. -/
structure InBuffer {Sink : Type} (sent text : Text) (format : Format Sink) : Prop where
  contents : text = sent ++ format.block.take format.buf
  bounded : format.buf ≤ format.bufend
  inside : format.bufend ≤ format.block.length

section

variable {Sink : Type} {sent text bytes : Text} {format : Format Sink}

theorem length_written (fits : format.buf + bytes.length ≤ format.block.length) :
    (format.written bytes).block.length = format.block.length := by
  simp only [written, List.length_append, List.length_take, List.length_drop]
  omega

theorem InBuffer.written (holds : InBuffer sent text format)
    (fits : format.buf + bytes.length ≤ format.bufend) :
    InBuffer sent (text ++ bytes) (format.written bytes) := by
  have inside := fits.trans holds.inside
  refine ⟨?_, fits, ?_⟩
  · have front : (format.block.take format.buf ++ bytes).length = format.buf + bytes.length := by
      rw [List.length_append, List.length_take]
      omega
    have copied : (format.written bytes).block.take (format.buf + bytes.length) =
        format.block.take format.buf ++ bytes := by
      rw [Format.written, List.take_append_of_le_length front.ge, ← front, List.take_length]
    rw [holds.contents, List.append_assoc, ← copied]
    rfl
  · rw [length_written inside]
    exact holds.inside

theorem inBuffer_nil (fresh : Nat → UInt8) (flushed : Int32) (u : Sink) {len bufend : Nat}
    (inside : bufend ≤ len) :
    InBuffer [] [] ⟨erealloc fresh [] len, 0, bufend, flushed, u⟩ where
  contents := by rw [List.take_zero, List.append_nil]
  bounded := Nat.zero_le _
  inside := by rwa [length_erealloc]

/-- The buffer is moved to a larger block. -/
theorem InBuffer.moved (holds : InBuffer sent text format) (fresh : Nat → UInt8) {len bufend : Nat}
    {u : Sink} (grows : format.buf ≤ bufend) (inside : bufend ≤ len) :
    InBuffer sent text { format with u, block := erealloc fresh format.block len, bufend } := by
  refine ⟨?_, grows, ?_⟩
  · rw [holds.contents]
    exact congrArg _ (take_erealloc fresh (holds.bounded.trans holds.inside)
      (grows.trans inside)).symm
  · rw [length_erealloc]
    exact inside

end

/-! ### Strings -/

section

variable (fresh : Nat → UInt8)

/-- The buffer of `strv` is the whole block. -/
structure InStr (text : Text) (format : Format Nat) : Prop where
  holds : InBuffer [] text format
  len : format.bufend = format.u
  whole : format.block.length = format.bufend

/-- The buffer of `mprint` is the block without its last byte. -/
structure InMprint (text : Text) (format : Format Unit) : Prop where
  holds : InBuffer [] text format
  spare : format.block.length = format.bufend + 1

theorem inStr_nil (len : Nat) : InStr [] ⟨erealloc fresh [] len, 0, len, 0, len⟩ where
  holds := inBuffer_nil fresh 0 len le_rfl
  len := rfl
  whole := length_erealloc fresh [] len

theorem inMprint_nil (len : Nat) (positive : 0 < len) :
    InMprint [] ⟨erealloc fresh [] len, 0, len - 1, 0, ()⟩ where
  holds := inBuffer_nil fresh 0 () (Nat.sub_le len 1)
  spare := (length_erealloc fresh [] len).trans (Nat.sub_add_cancel positive).symm

/-- `str_grow` doubles a buffer at least, and keeps what is in it. -/
theorem str_grow_makesRoom : MakesRoom InStr (str_grow fresh) where
  bounded standing := ⟨standing.holds.bounded, standing.holds.inside⟩
  written := fun ⟨holds, len, whole⟩ fits =>
    ⟨holds.written fits, len, (length_written (fits.trans holds.inside)).trans whole⟩
  room := by
    rintro text format more ⟨holds, len, whole⟩ full more_pos
    have larger : format.buf < format.u + if more > format.u then more else format.u := by
      split_ifs <;> omega
    exact ⟨_, rfl, ⟨holds.moved fresh larger.le le_rfl, rfl, length_erealloc ..⟩, larger⟩

theorem mprint_grow_makesRoom : MakesRoom InMprint (mprint_grow fresh) where
  bounded standing := ⟨standing.holds.bounded, standing.holds.inside⟩
  written := fun ⟨holds, whole⟩ fits =>
    ⟨holds.written fits, (length_written (fits.trans holds.inside)).trans whole⟩
  room := by
    rintro text format more ⟨holds, whole⟩ full more_pos
    set len := if format.bufend + 1 ≥ more then (format.bufend + 1) * 2
      else (format.bufend + 1 + more + PRINT_ALLOCSIZE) / PRINT_ALLOCSIZE * PRINT_ALLOCSIZE
      with isLen
    have larger : format.bufend + 1 < len := by
      rw [isLen, PRINT_ALLOCSIZE]
      split_ifs <;> omega
    refine ⟨_, rfl, ⟨holds.moved fresh ?_ (Nat.sub_le len 1), ?_⟩, ?_⟩
    · omega
    · rw [length_erealloc]
      exact (Nat.sub_add_cancel (by omega)).symm
    · show format.buf < len - 1
      omega

/-- A string that is read from memory has no zero. -/
theorem nulFree_cstring (memory : Text) : NulFree (cstring memory) := by
  intro zero
  have nonzero := List.mem_takeWhile_imp zero
  exact absurd nonzero (by decide)

/-- A text and its terminator are read back if the text is a string. -/
theorem cstring_stored_iff (text rest : Text) :
    cstring (text ++ [0] ++ rest) = text ↔ NulFree text := by
  refine ⟨fun same => ?_, fun nulFree => cstring_stored nulFree rest⟩
  rw [← same]
  exact nulFree_cstring _

/-- `strv` returns what has been printed, up to the first zero. -/
theorem strv_eq (calls : List PrintCall) :
    ∃ rest, strv fresh calls = .ok (cstring (printed calls ++ [0] ++ rest)) := by
  have makes := str_grow_makesRoom fresh
  obtain ⟨format, runs, standing⟩ := makes.runAll_spec (inStr_nil fresh 500) calls
  obtain ⟨last, puts, holds, -, -⟩ := makes.fmtputc_spec standing 0
  refine ⟨last.block.drop last.buf, ?_⟩
  have contents := holds.contents
  rw [List.nil_append, List.nil_append] at contents
  rw [contents, List.take_append_drop, strv, runs]
  show (format.fmtputc (str_grow fresh) 0 >>= fun format => _) = _
  rw [puts]
  rfl

/-- So does `mprint`. -/
theorem mprint_eq (calls : List PrintCall) :
    ∃ rest, mprint fresh calls = .ok (cstring (printed calls ++ [0] ++ rest)) := by
  obtain ⟨format, runs, holds, spare⟩ :=
    (mprint_grow_makesRoom fresh).runAll_spec (inMprint_nil fresh PRINT_ALLOCSIZE (by decide)) calls
  have room : format.buf < format.block.length := by
    have bounded := holds.bounded
    omega
  refine ⟨format.block.drop (format.buf + 1), ?_⟩
  have contents := holds.contents
  rw [List.nil_append, List.nil_append] at contents
  rw [mprint, runs]
  show (if format.buf < format.block.length then _ else _) = _
  rw [if_pos room, contents, List.set_eq_take_append_cons_drop, if_pos room, List.append_assoc]
  rfl

end

/-! ### Flushes -/

/-- The blocks a text is flushed in: each is a full buffer, but for the last one. -/
def blocks (text : Text) : List Text :=
  if text.length ≤ FPRINT_BUFSIZ then (if text = [] then [] else [text])
  else text.take FPRINT_BUFSIZ :: blocks (text.drop FPRINT_BUFSIZ)
termination_by text.length
decreasing_by
  rw [List.length_drop]
  have positive : 0 < FPRINT_BUFSIZ := by decide
  omega

/-- The calls of `write` for a number of bytes, from a call on: how many bytes have been written
before, and how many the call takes. -/
def writes (counts : Nat → ℕ+) (call done n : Nat) : List (Nat × Nat) :=
  if n = 0 then []
  else
    let written := min n (counts call)
    (done, written) :: writes counts (call + 1) (done + written) (n - written)
termination_by n
decreasing_by
  have positive := (counts call).pos
  omega

/-- Each call for a block finds at its beginning the bytes it is to write. -/
def Repeats (counts : Nat → ℕ+) (call : Nat) (block : Text) : Prop :=
  ∀ done written, (done, written) ∈ writes counts call 0 block.length →
    (block.drop done).take written = block.take written

/-- The call that is next after those for a block. -/
def nextCall (counts : Nat → ℕ+) (call : Nat) (block : Text) : Nat :=
  call + (writes counts call 0 block.length).length

/-- So does each call for the blocks, one after the other. -/
def RepeatsAll (counts : Nat → ℕ+) : Nat → List Text → Prop
  | _, [] => True
  | call, block :: rest =>
      Repeats counts call block ∧ RepeatsAll counts (nextCall counts call block) rest

/-- What the calls for a block deliver. -/
def flushedBlock (counts : Nat → ℕ+) (call : Nat) (block : Text) : Text :=
  (writes counts call 0 block.length).flatMap fun (_, written) => block.take written

/-- What is delivered of blocks. -/
def flushedBlocks (counts : Nat → ℕ+) : Nat → List Text → Text
  | _, [] => []
  | call, block :: rest =>
      flushedBlock counts call block ++ flushedBlocks counts (nextCall counts call block) rest

section

variable {counts : Nat → ℕ+}

theorem flushLoop_eq (buf : Text) (call done n : Nat) (delivered : Text) :
    flushLoop (fun call => some (counts call)) buf n ⟨delivered, call⟩ =
      .ok ⟨delivered ++ (writes counts call done n).flatMap fun (_, written) => buf.take written,
        call + (writes counts call done n).length⟩ := by
  fun_induction writes counts call done n generalizing delivered with
  | case1 call done =>
    rw [flushLoop, if_pos rfl, List.flatMap_nil, List.append_nil]
    rfl
  | case2 call done n more written inductionHypothesis =>
    rw [flushLoop, if_neg more]
    dsimp only
    rw [inductionHypothesis, List.flatMap_cons, List.length_cons, List.append_assoc, Nat.add_assoc,
      Nat.add_comm 1]

/-- The bytes the calls are to write are those of the block. -/
theorem flatMap_writes (block : Text) (call done n : Nat) (whole : done + n = block.length) :
    ((writes counts call done n).flatMap fun (done, written) => (block.drop done).take written) =
      block.drop done := by
  fun_induction writes counts call done n with
  | case1 call done => rw [List.flatMap_nil, List.drop_eq_nil_of_le (by omega)]
  | case2 call done n more written inductionHypothesis =>
    have within : written ≤ n := Nat.min_le_left ..
    rw [List.flatMap_cons, inductionHypothesis (by omega), ← List.drop_drop,
      List.take_append_drop]

theorem writes_within {call start n done written : Nat}
    (member : (done, written) ∈ writes counts call start n) : done + written ≤ start + n := by
  fun_induction writes counts call start n with
  | case1 call start => cases member
  | case2 call start n more count inductionHypothesis =>
    have within : count ≤ n := Nat.min_le_left ..
    rcases List.mem_cons.mp member with same | later
    · obtain ⟨rfl, rfl⟩ := Prod.mk.inj same
      omega
    · have rest := inductionHypothesis later
      omega

/-- Two concatenations whose parts are of the same lengths. -/
theorem flatMap_eq_iff {α : Type} {l : List α} {f g : α → Text}
    (same : ∀ a ∈ l, (f a).length = (g a).length) :
    l.flatMap f = l.flatMap g ↔ ∀ a ∈ l, f a = g a := by
  induction l with
  | nil => exact iff_of_true rfl nofun
  | cons a l inductionHypothesis =>
    rw [List.forall_mem_cons] at same
    rw [List.flatMap_cons, List.flatMap_cons, List.forall_mem_cons, ← inductionHypothesis same.2]
    exact ⟨fun joined => List.append_inj joined same.1, fun both => by rw [both.1, both.2]⟩

theorem length_taken {block : Text} {call done written : Nat}
    (member : (done, written) ∈ writes counts call 0 block.length) :
    ((block.drop done).take written).length = (block.take written).length := by
  have within := writes_within member
  rw [List.length_take, List.length_take, List.length_drop]
  omega

theorem length_flushedBlock (call : Nat) (block : Text) :
    (flushedBlock counts call block).length = block.length := by
  have whole := @flatMap_writes counts block call 0 block.length (Nat.zero_add _)
  rw [List.drop_zero] at whole
  conv_rhs => rw [← whole]
  rw [flushedBlock, List.length_flatMap, List.length_flatMap]
  exact congrArg List.sum (List.map_congr_left fun _ member => (length_taken member).symm)

/-- A block is delivered just if each call finds its bytes. -/
theorem flushedBlock_eq_iff (call : Nat) (block : Text) :
    flushedBlock counts call block = block ↔ Repeats counts call block := by
  have whole := @flatMap_writes counts block call 0 block.length (Nat.zero_add _)
  rw [List.drop_zero] at whole
  conv_lhs => rhs; rw [← whole]
  rw [eq_comm, flushedBlock, flatMap_eq_iff fun _ member => length_taken member, Prod.forall]
  rfl

theorem flushedBlocks_eq_iff (call : Nat) (texts : List Text) :
    flushedBlocks counts call texts = texts.flatten ↔ RepeatsAll counts call texts := by
  induction texts generalizing call with
  | nil => exact iff_of_true rfl trivial
  | cons block rest inductionHypothesis =>
    rw [flushedBlocks, List.flatten_cons, RepeatsAll, ← flushedBlock_eq_iff, ← inductionHypothesis]
    exact ⟨fun joined => List.append_inj joined (length_flushedBlock call block),
      fun both => by rw [both.1, both.2]⟩

theorem flushedBlocks_snoc (call : Nat) (texts : List Text) (block : Text) :
    flushedBlocks counts call (texts ++ [block]) =
      flushedBlocks counts call texts ++
        flushedBlock counts (texts.foldl (nextCall counts) call) block := by
  induction texts generalizing call with
  | nil => simp [flushedBlocks]
  | cons first rest inductionHypothesis =>
    rw [List.cons_append, flushedBlocks, inductionHypothesis, flushedBlocks, List.foldl_cons,
      List.append_assoc]

end

/-! ### The blocks of a text -/

theorem blocks_nil : blocks [] = [] := by
  rw [blocks]
  rfl

theorem blocks_flatten_append {full : List Text} {last : Text}
    (whole : ∀ block ∈ full, block.length = FPRINT_BUFSIZ) (short : last.length ≤ FPRINT_BUFSIZ) :
    blocks (full.flatten ++ last) = full ++ if last = [] then [] else [last] := by
  induction full with
  | nil =>
    rw [List.flatten_nil, List.nil_append, List.nil_append, blocks, if_pos short]
  | cons block full inductionHypothesis =>
    rw [List.forall_mem_cons] at whole
    have rest := inductionHypothesis whole.2
    rw [List.flatten_cons, List.append_assoc, List.cons_append, ← rest, blocks]
    have taken : (block ++ (full.flatten ++ last)).take FPRINT_BUFSIZ = block := by
      rw [← whole.1, List.take_left]
    have dropped : (block ++ (full.flatten ++ last)).drop FPRINT_BUFSIZ = full.flatten ++ last := by
      rw [← whole.1, List.drop_left]
    by_cases more : full.flatten ++ last = []
    · rw [more, List.append_nil, if_pos whole.1.le, if_neg, blocks_nil]
      rintro rfl
      exact absurd whole.1 (by decide)
    · have long : ¬(block ++ (full.flatten ++ last)).length ≤ FPRINT_BUFSIZ := by
        have positive := List.length_pos_iff.mpr more
        rw [List.length_append]
        omega
      rw [if_neg long, taken, dropped]

/-! ### What is delivered -/

/-- Full buffers have been flushed, and the text is what was in them and what is in the buffer. -/
structure InFdprint (counts : Nat → ℕ+) (full : List Text) (text : Text)
    (format : Format Descriptor) : Prop where
  holds : InBuffer full.flatten text format
  lengths : ∀ block ∈ full, block.length = FPRINT_BUFSIZ
  bufend : format.bufend = FPRINT_BUFSIZ
  whole : format.block.length = FPRINT_BUFSIZ
  fd : format.u = ⟨flushedBlocks counts 0 full, full.foldl (nextCall counts) 0⟩

theorem inFdprint_nil (counts : Nat → ℕ+) (fresh : Nat → UInt8) {len : Nat}
    (isSize : len = FPRINT_BUFSIZ) :
    InFdprint counts [] [] ⟨erealloc fresh [] len, 0, len, 0, ⟨[], 0⟩⟩ where
  holds := inBuffer_nil fresh 0 _ le_rfl
  lengths := nofun
  bufend := isSize
  whole := (length_erealloc fresh [] len).trans isSize
  fd := rfl

theorem fprint_flush_eq {write : Nat → Option ℕ+} {format : Format Descriptor} {fd : Descriptor}
    (loops : flushLoop write format.block format.buf format.u = .ok fd) (more : Nat) :
    fprint_flush write format more =
      .ok { format with
        flushed := format.flushed + Int32.ofNat format.buf, buf := 0, u := fd } := by
  rw [fprint_flush, loops]
  rfl

theorem fprint_flush_makesRoom (counts : Nat → ℕ+) :
    MakesRoom (fun text format => ∃ full, InFdprint counts full text format)
      (fprint_flush fun call => some (counts call)) where
  bounded := fun ⟨_, standing⟩ => ⟨standing.holds.bounded, standing.holds.inside⟩
  written := fun ⟨full, holds, lengths, bufend, whole, fd⟩ fits =>
    ⟨full, holds.written fits, lengths, bufend,
      (length_written (fits.trans holds.inside)).trans whole, fd⟩
  room := by
    rintro text format more ⟨full, holds, lengths, bufend, whole, fd⟩ atEnd -
    have all : format.block.take format.buf = format.block :=
      List.take_of_length_le (by omega)
    have sent : flushLoop (fun call => some (counts call)) format.block format.buf format.u =
        .ok ⟨flushedBlocks counts 0 (full ++ [format.block]),
          (full ++ [format.block]).foldl (nextCall counts) 0⟩ := by
      have length : format.buf = format.block.length := by omega
      rw [fd, flushLoop_eq _ _ 0, flushedBlocks_snoc, List.foldl_append, length]
      rfl
    have contents := holds.contents
    rw [all] at contents
    refine ⟨_, fprint_flush_eq sent more,
      ⟨full ++ [format.block], ?_, ?_, bufend, whole, rfl⟩, ?_⟩
    · refine ⟨?_, Nat.zero_le _, holds.inside⟩
      rw [contents, List.flatten_append, List.flatten_singleton]
      exact (List.append_nil _).symm
    · intro block member
      rcases List.mem_append.mp member with earlier | last
      · exact lengths block earlier
      · rw [List.mem_singleton.mp last, whole]
    · show 0 < format.bufend
      rw [bufend]
      decide

/-- `fdprint` delivers the blocks of what has been printed, each as the calls of `write` take it. -/
theorem fdprint_eq (counts : Nat → ℕ+) (fresh : Nat → UInt8) (calls : List PrintCall) :
    fdprint (fun call => some (counts call)) fresh calls =
      .ok (flushedBlocks counts 0 (blocks (printed calls))) := by
  obtain ⟨format, runs, full, holds, lengths, bufend, whole, fd⟩ :=
    (fprint_flush_makesRoom counts).runAll_spec ⟨[], inFdprint_nil counts fresh rfl⟩ calls
  have bounded := holds.bounded
  have taken : (format.block.take format.buf).length = format.buf := by
    rw [List.length_take]
    omega
  -- the last flush, of a block that may be short or empty
  have last : ∃ after, flushLoop (fun call => some (counts call)) format.block format.buf format.u =
      .ok ⟨flushedBlocks counts 0 (blocks (printed calls)), after⟩ := by
    have contents := holds.contents
    rw [List.nil_append] at contents
    rw [contents, blocks_flatten_append lengths (taken.trans_le (bounded.trans bufend.le)), fd,
      flushLoop_eq _ _ 0]
    refine ⟨_, congrArg (fun text => Except.ok (Descriptor.mk text _)) ?_⟩
    split_ifs with empty
    · rw [empty] at taken
      rw [← taken, List.length_nil, writes, if_pos rfl, List.flatMap_nil, List.append_nil,
        List.append_nil]
    · rw [flushedBlocks_snoc, flushedBlock, taken]
      refine congrArg _ (List.flatMap_congr fun (done, written) member => ?_)
      have within := writes_within member
      show format.block.take written = (format.block.take format.buf).take written
      rw [List.take_take, Nat.min_eq_left (by omega)]
  obtain ⟨after, last⟩ := last
  rw [fdprint, runs]
  show (fprint_flush _ format 0 >>= fun format => _) = _
  rw [fprint_flush_eq last]
  rfl

/-! ### Every way to print -/

/-- The public entry points, each with its own way to make room. -/
inductive Printer where
  | strv
  | mprint
  | fdprint
  deriving DecidableEq

/-- What a printer makes of calls: a string, or what is delivered to the descriptor. -/
def Printer.output (write : Nat → Option ℕ+) (fresh : Nat → UInt8) (calls : List PrintCall) :
    Printer → Except PrintFailure Text
  | strv => Print.strv fresh calls
  | mprint => Print.mprint fresh calls
  | fdprint => Print.fdprint write fresh calls

/-- A string can hold the text, or each call of `write` finds its bytes. -/
def Printer.Undisturbed (counts : Nat → ℕ+) (text : Text) : Printer → Prop
  | strv | mprint => NulFree text
  | fdprint => RepeatsAll counts 0 (blocks text)

theorem flatten_blocks (text : Text) : (blocks text).flatten = text := by
  fun_induction blocks text with
  | case1 => rfl
  | case2 text => exact List.flatten_singleton
  | case3 text long inductionHypothesis =>
    rw [List.flatten_cons, inductionHypothesis, List.take_append_drop]

/-- A printer never passes the end of its buffer, and what it prints is the chunks in order just
if nothing is disturbed. -/
theorem output_eq_printed_iff (counts : Nat → ℕ+) (fresh : Nat → UInt8) (calls : List PrintCall)
    (printer : Printer) :
    printer.output (fun call => some (counts call)) fresh calls = .ok (printed calls) ↔
      printer.Undisturbed counts (printed calls) := by
  cases printer with
  | strv =>
    obtain ⟨rest, prints⟩ := strv_eq fresh calls
    rw [Printer.output, prints, Except.ok.injEq, cstring_stored_iff]
    rfl
  | mprint =>
    obtain ⟨rest, prints⟩ := mprint_eq fresh calls
    rw [Printer.output, prints, Except.ok.injEq, cstring_stored_iff]
    rfl
  | fdprint =>
    rw [Printer.output, fdprint_eq, Except.ok.injEq, Printer.Undisturbed, ← flushedBlocks_eq_iff,
      flatten_blocks]

/-- A call that takes all bytes of a block finds them. -/
theorem repeats_of_whole {counts : Nat → ℕ+} {call : Nat} {block : Text}
    (whole : block.length ≤ counts call) : Repeats counts call block := by
  intro done written member
  rw [writes] at member
  split_ifs at member with empty
  · cases member
  · dsimp only at member
    rw [Nat.min_eq_left whole, Nat.sub_self, writes, if_pos rfl] at member
    obtain ⟨rfl, rfl⟩ := Prod.mk.inj (List.mem_singleton.mp member)
    rfl

theorem repeatsAll_of_whole {counts : Nat → ℕ+} (call : Nat) {texts : List Text}
    (whole : ∀ call, ∀ block ∈ texts, block.length ≤ counts call) :
    RepeatsAll counts call texts := by
  induction texts generalizing call with
  | nil => trivial
  | cons block rest inductionHypothesis =>
    exact ⟨repeats_of_whole (whole call block List.mem_cons_self),
      inductionHypothesis _ fun call other member =>
        whole call other (List.mem_cons_of_mem _ member)⟩

theorem length_le_of_mem_blocks {text block : Text} (member : block ∈ blocks text) :
    block.length ≤ FPRINT_BUFSIZ := by
  fun_induction blocks text with
  | case1 => cases member
  | case2 text short => rwa [List.mem_singleton.mp member]
  | case3 text long inductionHypothesis =>
    rcases List.mem_cons.mp member with rfl | later
    · exact List.length_take_le ..
    · exact inductionHypothesis later

/-- A descriptor that takes a whole buffer at a time gets what is printed. -/
theorem fdprint_whole {counts : Nat → ℕ+} (whole : ∀ call, FPRINT_BUFSIZ ≤ counts call)
    (fresh : Nat → UInt8) (calls : List PrintCall) :
    fdprint (fun call => some (counts call)) fresh calls = .ok (printed calls) := by
  have repeated : RepeatsAll counts 0 (blocks (printed calls)) :=
    repeatsAll_of_whole 0 fun call _ member => (length_le_of_mem_blocks member).trans (whole call)
  rw [fdprint_eq, (flushedBlocks_eq_iff 0 _).mpr repeated, flatten_blocks]

/-- A descriptor that takes one byte at a time gets the first one over and over. -/
theorem fdprint_repeats_first :
    Printer.fdprint.output (fun _ => some 1) (fun _ => 0) [.fmtappend (lit "ab")] =
        .ok (lit "aa") ∧
      Printer.fdprint.output (fun _ => some 1) (fun _ => 0) [.fmtappend (lit "ab")] ≠
        .ok (printed [.fmtappend (lit "ab")]) := by
  have delivered : Printer.fdprint.output (fun _ => some 1) (fun _ => 0)
      [.fmtappend (lit "ab")] = .ok (lit "aa") := by
    have single : blocks (printed [.fmtappend (lit "ab")]) = [lit "ab"] := by
      rw [blocks]
      rfl
    have calls : writes (fun _ => 1) 0 0 2 = [(0, 1), (1, 1)] := by
      simp [writes]
    have bytes : flushedBlock (fun _ => 1) 0 (lit "ab") = lit "aa" := by
      rw [flushedBlock, show (lit "ab").length = 2 from rfl, calls]
      rfl
    rw [Printer.output, fdprint_eq fun _ => 1, single, flushedBlocks, bytes]
    rfl
  refine ⟨delivered, ?_⟩
  rw [delivered]
  decide

end Print

end Desh
