/-
This file models the expansion of wildcards in file names (`glob.cpp`). A path
pattern is matched component by component; each one is copied with its mask
into arrays that the calls share, and whose bytes behind the copy are what was
there before.

The system calls are a parameter. Signals, which are polled for between two
components, are left out.
-/

import Desh.FileTree
import Desh.Initenv
import Desh.Match

namespace Desh

/-! ### System calls -/

/-- Does `stat` find a directory, does `lstat` find anything, and the names that `readdir` gives. -/
structure Disk where
  isDirectory : Text → Bool
  lstat : Text → Bool
  opendir : Text → Option (List Text)

/-- The characters of paths. -/
def pathSigns : FileTree.Signs UInt8 where
  slash := '/'.toUInt8
  dot := '.'.toUInt8
  inName c := c != '/'.toUInt8 && c != 0
  slash_out := by decide
  dot_in := by decide

/-- The system calls on a tree of directories. -/
def Disk.of (files : FileTree.Files pathSigns) : Disk where
  isDirectory path := ((files.locate path).bind (FileTree.listing pathSigns)).isSome
  lstat path := (files.locate path).isSome
  opendir path := (files.locate path).bind (FileTree.listing pathSigns)

/-! ### The arrays -/

/-- The arrays that `glob1` and `listglob` keep. -/
inductive StaticArray where
  | dir
  | pat
  | qdir
  | qpat
  | namePrefix
  deriving DecidableEq

/-- The arrays and their sizes. The array `prefix` of `listglob` is `namePrefix`. -/
structure Statics where
  dir : Text
  pat : Text
  qdir : Text
  qpat : Text
  raw : Text
  dsize : Nat
  namePrefix : Text
  prefixlen : Nat
  deriving DecidableEq

/-- The arrays before the first call. -/
def Statics.initial : Statics := ⟨[], [], [], [], [], 0, [], 0⟩

section Memory

variable (fresh : StaticArray → Nat → UInt8)

/-- The beginning of `glob1`: the arrays grow to the size of the pattern. -/
def Statics.reserve (statics : Statics) (psize : Nat) : Statics :=
  if psize > statics.dsize ∨ statics.pat = [] then
    { statics with
      pat := erealloc (fresh .pat) statics.pat psize
      raw := List.replicate psize 'r'.toUInt8
      dir := erealloc (fresh .dir) statics.dir psize
      qpat := erealloc (fresh .qpat) statics.qpat psize
      qdir := erealloc (fresh .qdir) statics.qdir psize
      dsize := psize }
  else statics

/-- The array of `listglob` grows. -/
def Statics.reservePrefix (statics : Statics) (size : Nat) : Statics :=
  if size ≥ statics.prefixlen then
    { statics with
      namePrefix := erealloc (fresh .namePrefix) statics.namePrefix size
      prefixlen := size }
  else statics

end Memory

/-- Bytes stored from the beginning of an array on. -/
def store (array bytes : Text) : Except Fault Text :=
  if bytes.length ≤ array.length then .ok (bytes ++ array.drop bytes.length) else .error .text

/-- The next bytes of a mask. -/
def readMask (q : Text) (n : Nat) : Except Fault Text :=
  if n ≤ q.length then .ok (q.take n) else .error .quoting

/-! ### One directory -/

/-- `ishiddenfile`. -/
def ishiddenfile (s : Text) : Bool := s.head? = some '.'.toUInt8

/-- The loop of `dirmatch`. -/
def dirmatchLoop (namePrefix pattern : Text) (quote : Quoting) :
    List Text → Except Fault (List Text)
  | [] => return []
  | name :: names => do
      let matched ← matchSingle name pattern quote
      let list ← dirmatchLoop namePrefix pattern quote names
      return if matched && (!ishiddenfile name || pattern.head? = some '.'.toUInt8) then
        (namePrefix ++ name) :: list else list

variable (disk : Disk)

/-- `dirmatch`. -/
def dirmatch (namePrefix dirname pattern : Text) (quote : Quoting) :
    Except Fault (List Text) := do
  if !disk.isDirectory dirname then return []
  else if !(← haswildAt pattern quote) then
    return if disk.lstat (namePrefix ++ pattern) then [namePrefix ++ pattern] else []
  else
    match disk.opendir dirname with
    | none => return []
    | some names => dirmatchLoop namePrefix pattern quote names

/-! ### One path pattern -/

variable (fresh : StaticArray → Nat → UInt8)

/-- `listglob`. -/
def listglob (pattern : Text) (quote : Quoting) (slashcount : Nat) :
    List Text → Statics → Except Fault (List Text × Statics)
  | [], statics => return ([], statics)
  | dir :: list, statics => do
      let statics := statics.reservePrefix fresh (dir.length + slashcount + 1)
      let namePrefix ← store statics.namePrefix
        (dir ++ List.replicate slashcount '/'.toUInt8 ++ [0])
      let found ← dirmatch disk (cstring namePrefix) dir pattern quote
      let (rest, statics) ← listglob pattern quote slashcount list { statics with namePrefix }
      return (found ++ rest, statics)

/-- The number of slashes at the beginning. -/
def slashes (s : Text) : Nat := (s.takeWhile (· == '/'.toUInt8)).length

/-- What is in front of the next slash. -/
def component (s : Text) : Text := s.takeWhile (· != '/'.toUInt8)

/-- What is left of a pattern after the next component. -/
def afterComponent (s : Text) : Text :=
  (s.drop (slashes s)).drop (component (s.drop (slashes s))).length

theorem afterComponent_lt {s : Text} (more : afterComponent s ≠ []) :
    (afterComponent s).length < s.length := by
  rw [afterComponent, List.drop_drop, List.length_drop]
  by_contra long
  have none : slashes s = 0 ∧ component s = [] := by
    have counts : slashes s + (component (s.drop (slashes s))).length = 0 ∨ s.length = 0 := by
      omega
    rcases counts with counts | empty
    · have first : slashes s = 0 := by omega
      rw [first, List.drop_zero] at counts
      exact ⟨first, List.length_eq_zero_iff.mp (by omega)⟩
    · rw [List.length_eq_zero_iff.mp empty]
      exact ⟨rfl, rfl⟩
  cases s with
  | nil => exact more rfl
  | cons c s =>
    by_cases slash : c = '/'.toUInt8
    · simp [slashes, slash] at none
    · simp [component, slash] at none

/-- The loop of `glob1`. -/
def globLoop (s q : Text) (matched : List Text) (statics : Statics) :
    Except Fault (List Text × Statics) := do
  let slashcount := slashes s
  let next := component (s.drop slashcount)
  let pat ← store statics.pat (next ++ [0])
  let qpat ← store statics.qpat (← readMask (q.drop slashcount) next.length)
  let (matched, statics) ← listglob disk fresh (cstring pat) (.of (.marks qpat)) slashcount matched
    { statics with pat, qpat }
  if _more : afterComponent s ≠ [] ∧ matched ≠ [] then
    globLoop (afterComponent s) ((q.drop slashcount).drop next.length) matched statics
  else return (matched, statics)
termination_by s.length
decreasing_by exact afterComponent_lt _more.1

/-- `glob1`. -/
def glob1 (pattern : Text) (quote : Mask) (statics : Statics) :
    Except Fault (List Text × Statics) := do
  if quote = .QUOTED then .error .assertion
  else
    let statics := statics.reserve fresh (pattern.length + 1)
    let q := if quote = .UNQUOTED then statics.raw else quote.bytes
    let absolute : Bool := pattern.head? = some '/'.toUInt8
    -- the slashes of an absolute pattern, or the first component
    let first := pattern.takeWhile fun c => (c == '/'.toUInt8) == absolute
    let dir ← store statics.dir (first ++ [0])
    let qdir ← store statics.qdir (← readMask q first.length)
    let statics := { statics with dir, qdir }
    let s := pattern.drop first.length
    if s = [] then
      return (← dirmatch disk [] (lit ".") (cstring dir) (.of (.marks qdir)), statics)
    else
      let matched ←
        if absolute then pure [cstring dir]
        else dirmatch disk [] (lit ".") (cstring dir) (.of (.marks qdir))
      globLoop disk fresh s (q.drop first.length) matched statics

/-! ### Lists of words -/

/-- `sortlist`. -/
def sortlist (list : List Text) : List Text :=
  if list.length > 1 then sortvector list else list

/-- `glob0`, of words with their quote flags. -/
def glob0 {m : Type → Type} [Monad m] {α : Type} (getstr : α → m Text) (mkstr : Text → α)
    (glob1 : Text → Mask → m (List Text)) : List (α × Mask) → m (List α)
  | [] => pure []
  | (term, quote) :: list => do
      let here ←
        if quote = .QUOTED then pure [term]
        else do
          let str ← getstr term
          if haswild str quote then do
            let expand1 ← glob1 str quote
            pure (if expand1 = [] then [term] else (sortlist expand1).map mkstr)
          else pure [term]
      let rest ← glob0 getstr mkstr glob1 list
      return here ++ rest

end Desh
