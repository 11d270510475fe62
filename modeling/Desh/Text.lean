/-
This file fixes how the shell's C strings and C locale character classes are
represented. A C string is the list of its bytes without the terminating NUL,
so a list models a C string exactly when it holds no zero byte; a pointer into
a string is the suffix it points at, and `EOF` is the empty suffix.
-/

import Mathlib.Tactic

namespace Desh

/-! ### Strings -/

/-- The bytes of a C string, up to and without its terminating NUL. -/
abbrev Text := List UInt8

/-- The bytes of a string literal of the source. -/
def lit (literal : String) : Text := literal.toList.map Char.toUInt8

/-- A list of bytes some C string can hold. -/
def NulFree (s : Text) : Prop := (0 : UInt8) ∉ s

instance (s : Text) : Decidable (NulFree s) := inferInstanceAs (Decidable (_ ∉ _))

@[simp] theorem nulFree_nil : NulFree [] := List.not_mem_nil

@[simp] theorem nulFree_cons {c : UInt8} {s : Text} :
    NulFree (c :: s) ↔ c ≠ 0 ∧ NulFree s := by
  simp [NulFree, eq_comm]

@[simp] theorem nulFree_append {s t : Text} : NulFree (s ++ t) ↔ NulFree s ∧ NulFree t := by
  simp [NulFree]

/-- A property of bytes holds of every byte once it holds of the 256 byte values. -/
@[elab_as_elim]
theorem forall_byte {property : UInt8 → Prop}
    (each : ∀ value : Fin 256, property (UInt8.ofNat value)) (c : UInt8) : property c := by
  have found := each ⟨c.toNat, c.toNat_lt⟩
  simpa using found

/-- A run of characters that pass a test, and what is behind it. -/
theorem takeWhile_run {test : UInt8 → Bool} {run rest : Text} (inside : ∀ c ∈ run, test c = true)
    (stop : ∀ c, rest.head? = some c → test c = false) :
    (run ++ rest).takeWhile test = run ∧ (run ++ rest).dropWhile test = rest := by
  rw [List.takeWhile_append_of_pos inside, List.dropWhile_append_of_pos inside]
  cases rest with
  | nil => simp
  | cons c rest => simp [stop c rfl]

/-! ### Memory -/

/-- The C string at the start of some memory. -/
def cstring (memory : Text) : Text := memory.takeWhile (· ≠ 0)

/-- A string that has been stored with its terminator. -/
theorem cstring_stored {s : Text} (nulFree : NulFree s) (rest : Text) :
    cstring (s ++ [0] ++ rest) = s := by
  rw [List.append_assoc]
  refine (takeWhile_run (fun c member => ?_) fun c head => ?_).1
  · exact decide_eq_true (ne_of_mem_of_not_mem member nulFree)
  · cases head
    rfl

section

variable (fresh : Nat → UInt8)

/-- `erealloc`; nobody has written to what is `fresh`. -/
def erealloc (memory : Text) (size : Nat) : Text :=
  (List.range size).map fun i => memory.getD i (fresh i)

theorem length_erealloc (memory : Text) (size : Nat) :
    (erealloc fresh memory size).length = size := by
  simp [erealloc]

/-- A block that grows keeps what is in it. -/
theorem take_erealloc {memory : Text} {size n : Nat} (within : n ≤ memory.length)
    (grows : n ≤ size) : (erealloc fresh memory size).take n = memory.take n := by
  refine List.ext_getElem? fun i => ?_
  by_cases inside : i < n
  · rw [List.getElem?_take_of_lt inside, List.getElem?_take_of_lt inside, erealloc,
      List.getElem?_map, List.getElem?_range (by omega), Option.map_some,
      List.getD_eq_getElem?_getD, List.getElem?_eq_getElem (by omega), Option.getD_some]
  · rw [List.getElem?_eq_none (by rw [List.length_take]; omega),
      List.getElem?_eq_none (by rw [List.length_take]; omega)]

end

/-! ### Character classes of the C locale -/

def isprint (c : UInt8) : Bool := 32 ≤ c && c ≤ 126

def isdigit (c : UInt8) : Bool := '0'.toUInt8 ≤ c && c ≤ '9'.toUInt8

def islower (c : UInt8) : Bool := 'a'.toUInt8 ≤ c && c ≤ 'z'.toUInt8

def isupper (c : UInt8) : Bool := 'A'.toUInt8 ≤ c && c ≤ 'Z'.toUInt8

def isalpha (c : UInt8) : Bool := islower c || isupper c

def isalnum (c : UInt8) : Bool := isalpha c || isdigit c

def isxdigit (c : UInt8) : Bool :=
  isdigit c || ('a'.toUInt8 ≤ c && c ≤ 'f'.toUInt8) || ('A'.toUInt8 ≤ c && c ≤ 'F'.toUInt8)

end Desh
