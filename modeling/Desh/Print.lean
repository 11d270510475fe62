/-
This file models the formatted printing of `print.c` and `str.c`: the conversion
of integers, and the buffer that characters are put into. Each of the three
public entry points has its own function that makes room in the buffer.

Pointers into the buffer are offsets from its beginning. Where a block of memory
is new, its bytes are a parameter, as are the counts that `write` returns.
-/

import Desh.Text

namespace Desh

/-! ### Integers -/

/-- The flags of a conversion, and its two numbers where they are set. A `short` is passed as an
`int`, so its flag changes nothing. -/
structure FormatFlags where
  long : Bool
  unsigned : Bool
  zeropad : Bool
  leftside : Bool
  altform : Bool
  f1 : Option Nat
  f2 : Option Nat

/-- The flags of a `%` that nothing is put behind. -/
def FormatFlags.none : FormatFlags := ⟨false, false, false, false, false, Option.none, Option.none⟩

/-- The table of digits. -/
def digitTable (upper : Bool) : Text :=
  if upper then lit "0123456789ABCDEFGHIJKLMNOPQRSTUVWXYZ"
  else lit "0123456789abcdefghijklmnopqrstuvwxyz"

/-- `utoa`. -/
def utoa (u : Nat) (radix : Nat) [radix.AtLeastTwo] (digit : Text) : Text :=
  if u ≥ radix then utoa (u / radix) radix digit ++ [digit.getD (u % radix) 0]
  else [digit.getD u 0]
termination_by u
decreasing_by
  have two := Nat.AtLeastTwo.prop (n := radix)
  exact Nat.div_lt_self (by omega) two

/-- `intconv`, of the argument on the stack: an `int` is its lower half. -/
def intconv (flags : FormatFlags) (radix : Nat) [radix.AtLeastTwo] (upper : Bool) (altform : Text)
    (argument : UInt64) : Text :=
  if radix > 36 then []
  else
    let n : Int64 := if flags.long then argument.toInt64 else argument.toUInt32.toInt32.toInt64
    let positive := flags.unsigned || 0 ≤ n
    let u : UInt64 := if positive then n.toUInt64 else (-n).toUInt64
    let pre := (if positive then [] else lit "-") ++ if flags.altform then altform else []
    let number := utoa u.toNat radix (digitTable upper)
    let zeroes := (flags.f2.getD 0) - number.length
    let padding := (flags.f1.getD 0) - (pre.length + zeroes + number.length)
    let padded := if flags.zeropad then '0'.toUInt8 else ' '.toUInt8
    -- zeros on the left stand behind the sign
    let (zeroes, padding) :=
      if flags.zeropad && !flags.leftside then (zeroes + padding, 0) else (zeroes, padding)
    let pad := List.replicate padding padded
    (if flags.leftside then [] else pad) ++ pre ++ List.replicate zeroes '0'.toUInt8 ++ number ++
      if flags.leftside then pad else []

/-- `dconv`. -/
def dconv (flags : FormatFlags) (argument : UInt64) : Text := intconv flags 10 false [] argument

/-! ### The buffer -/

namespace Print

/-- What ends a print: a byte is written behind the buffer, a loop has not ended in the rounds it
is given, or the shell exits since `write` has failed. -/
inductive PrintFailure where
  | overrun
  | endless
  | exit
  deriving DecidableEq

/-- `Format`, with the memory its buffer is in and what the function that makes room keeps. -/
structure Format (Sink : Type) where
  block : Text
  buf : Nat
  bufend : Nat
  flushed : Int32
  u : Sink

/-- The type of `grow`, which is told how many bytes there are more. -/
abbrev Grow (Sink : Type) := Format Sink → Nat → Except PrintFailure (Format Sink)

namespace Format

variable {Sink : Type}

/-- The format after bytes have been copied to the buffer. -/
def written (format : Format Sink) (bytes : Text) : Format Sink :=
  { format with
    block := format.block.take format.buf ++ bytes ++
      format.block.drop (format.buf + bytes.length)
    buf := format.buf + bytes.length }

/-- `memcpy` to the buffer: nothing may pass its end. -/
def put (format : Format Sink) (bytes : Text) : Except PrintFailure (Format Sink) :=
  if format.buf + bytes.length ≤ format.bufend ∧ format.bufend ≤ format.block.length then
    .ok (format.written bytes)
  else .error .overrun

variable (grow : Grow Sink)

/-- `fmtputc`. -/
def fmtputc (format : Format Sink) (c : UInt8) : Except PrintFailure (Format Sink) := do
  let format ← if format.buf ≥ format.bufend then grow format 1 else .ok format
  format.put [c]

/-- The loop of `fmtappend`. -/
def fmtappendLoop : Nat → Format Sink → Text → Except PrintFailure (Format Sink)
  | 0, _, _ => .error .endless
  | rounds + 1, format, s =>
      if format.buf + s.length > format.bufend then do
        let split := format.bufend - format.buf
        let format ← format.put (s.take split)
        let format ← grow format (s.length - split)
        fmtappendLoop rounds format (s.drop split)
      else format.put s

/-- `fmtappend`: after the first round each one copies a byte. -/
def fmtappend (format : Format Sink) (s : Text) : Except PrintFailure (Format Sink) :=
  fmtappendLoop grow (s.length + 2) format s

end Format

/-- A call that puts something into the buffer; `fmtcat` appends a whole string. -/
inductive PrintCall where
  | fmtputc (c : UInt8)
  | fmtappend (s : Text)
  deriving DecidableEq

namespace PrintCall

/-- The chunk of a call. -/
def chunk : PrintCall → Text
  | fmtputc c => [c]
  | fmtappend s => s

def run {Sink : Type} (grow : Grow Sink) (format : Format Sink) :
    PrintCall → Except PrintFailure (Format Sink)
  | fmtputc c => format.fmtputc grow c
  | fmtappend s => format.fmtappend grow s

/-- Calls one after the other. -/
def runAll {Sink : Type} (grow : Grow Sink) (format : Format Sink) (calls : List PrintCall) :
    Except PrintFailure (Format Sink) :=
  calls.foldlM (run grow) format

end PrintCall

/-- The concatenation of the chunks. -/
def printed (calls : List PrintCall) : Text := calls.flatMap PrintCall.chunk

/-! ### Strings -/

section

variable (fresh : Nat → UInt8)

/-- `str_grow`, which expands its `Buffer`: the sink is the length of that. -/
def str_grow : Grow Nat := fun f more =>
  let len := f.u + if more > f.u then more else f.u
  .ok { f with u := len, block := erealloc fresh f.block len, bufend := len }

/-- `strv`, for the calls that `printfmt` makes. -/
def strv (calls : List PrintCall) : Except PrintFailure Text := do
  let len := 500
  let format ← PrintCall.runAll (str_grow fresh) ⟨erealloc fresh [] len, 0, len, 0, len⟩ calls
  let format ← format.fmtputc (str_grow fresh) 0
  return cstring format.block

/-- The size of the first block of `mprint`, and what the size of another is a multiple of. -/
def PRINT_ALLOCSIZE : Nat := 64

/-- `mprint_grow`: a byte is kept for the terminator. -/
def mprint_grow : Grow Unit := fun format more =>
  let len := format.bufend + 1
  let len :=
    if len ≥ more then len * 2
    else (len + more + PRINT_ALLOCSIZE) / PRINT_ALLOCSIZE * PRINT_ALLOCSIZE
  .ok { format with block := erealloc fresh format.block len, bufend := len - 1 }

/-- `mprint`, for the calls that `printfmt` makes. -/
def mprint (calls : List PrintCall) : Except PrintFailure Text := do
  let format ← PrintCall.runAll (mprint_grow fresh)
    ⟨erealloc fresh [] PRINT_ALLOCSIZE, 0, PRINT_ALLOCSIZE - 1, 0, ()⟩ calls
  if format.buf < format.block.length then return cstring (format.block.set format.buf 0)
  else .error .overrun

end

/-! ### Descriptors -/

/-- What has been written to a descriptor, and in how many calls. -/
structure Descriptor where
  delivered : Text
  calls : Nat
  deriving DecidableEq

section

variable (write : Nat → Option ℕ+)

/-- The loop of `fprint_flush`. The call of a number takes as many bytes as `write` says, if it has
them, or it fails. -/
def flushLoop (buf : Text) (n : Nat) (fd : Descriptor) : Except PrintFailure Descriptor :=
  if n = 0 then .ok fd
  else
    match write fd.calls with
    | none => .error .exit
    | some count =>
        let written := min n count
        flushLoop buf (n - written) ⟨fd.delivered ++ buf.take written, fd.calls + 1⟩
termination_by n
decreasing_by
  have positive := count.pos
  omega

/-- `fprint_flush`. -/
def fprint_flush : Grow Descriptor := fun format _ => do
  let n := format.buf
  let fd ← flushLoop write format.block n format.u
  return { format with flushed := format.flushed + Int32.ofNat n, buf := 0, u := fd }

def FPRINT_BUFSIZ : Nat := 1024

/-- `fdprint`, for the calls that `printfmt` makes: what is delivered. -/
def fdprint (fresh : Nat → UInt8) (calls : List PrintCall) : Except PrintFailure Text := do
  let format ← PrintCall.runAll (fprint_flush write)
    ⟨erealloc fresh [] FPRINT_BUFSIZ, 0, FPRINT_BUFSIZ, 0, ⟨[], 0⟩⟩ calls
  let format ← fprint_flush write format 0
  return format.u.delivered

end

end Print

end Desh
