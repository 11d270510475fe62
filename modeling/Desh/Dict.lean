/-
This file models the dictionaries of `dict.c`: hash tables with open addressing,
where a deleted entry leaves a mark that later insertions reuse and later
deletions may clear. Every loop is given one round of the table: a `none` means
that it would not end.
-/

import Desh.Text
import Desh.Ring

namespace Desh

/-! ### Two strings at once -/

/-- A loop of `streq2`: what `s` points to behind the characters of `t`, if it starts with them. -/
def streq2Loop : Text → Text → Option Text
  | [], s => some s
  | _ :: _, [] => none
  | c :: t, d :: s => if c ≠ d then none else streq2Loop t s

/-- `streq2`. -/
def streq2 (s t1 t2 : Text) : Bool :=
  match streq2Loop t1 s with
  | none => false
  | some s =>
      match streq2Loop t2 s with
      | none => false
      | some s => s.isEmpty

/-! ### The table -/

/-- `Assoc`: an entry whose name is `NULL`, is `DEAD`, or is a name with its value. -/
inductive Assoc (Value : Type) where
  | null
  | dead
  | live (name : Text) (value : Value)
  deriving DecidableEq

namespace Assoc

def isNull {Value : Type} : Assoc Value → Bool
  | .null => true
  | _ => false

def isDead {Value : Type} : Assoc Value → Bool
  | .dead => true
  | _ => false

/-- The name and the value of an entry that has them. -/
def entry {Value : Type} : Assoc Value → Option (Text × Value)
  | .live name value => some (name, value)
  | _ => none

end Assoc

/-- `Dict`. -/
structure Dict (Value : Type) where
  size : Nat
  remain : Int
  table : List (Assoc Value)
  length_table : table.length = size
  isPowerOfTwo_size : size.isPowerOfTwo
  deriving DecidableEq

def REMAIN (n : Nat) : Nat := n * 2 / 3

def GROW (n : Nat) : Nat := n * 2

theorem isPowerOfTwo_GROW {n : Nat} (power : n.isPowerOfTwo) : (GROW n).isPowerOfTwo :=
  Nat.isPowerOfTwo_mul_two_of_isPowerOfTwo power

namespace Dict

variable {Value : Type}

/-- `mkdict0`. -/
def mkdict0 (size : Nat) (power : size.isPowerOfTwo) : Dict Value :=
  { size, remain := REMAIN size, table := List.replicate size .null
    length_table := List.length_replicate, isPowerOfTwo_size := power }

/-- `mkdict`. -/
def mkdict : Dict Value := mkdict0 2 ⟨1, rfl⟩

/-- `dict->table[n & mask]`. -/
def slot (dict : Dict Value) (n : Nat) : Assoc Value :=
  dict.table.getD (n &&& (dict.size - 1)) .null

/-- Writing to that entry. -/
def store (dict : Dict Value) (n : Nat) (assoc : Assoc Value) : Dict Value :=
  { dict with
    table := dict.table.set (n &&& (dict.size - 1)) assoc
    length_table := by rw [List.length_set, dict.length_table] }

/-- Writing to `remain`. -/
def setRemain (dict : Dict Value) (remain : Int) : Dict Value := { dict with remain }

/-- A loop that goes up from the entry `n` to the first one that stops it. -/
def probe (dict : Dict Value) (stop : Assoc Value → Bool) (n : Nat) : Option Nat :=
  scan (fun n => stop (dict.slot n)) dict.size n

/-! ### Private operations -/

section

variable (strhash : Text → Nat)

/-- What stops a search: an entry never used, or one whose name is asked for. -/
def endsSearch (asked : Text → Bool) : Assoc Value → Bool
  | .null => true
  | .dead => false
  | .live name _ => asked name

/-- `get`: the position of the entry of a name, or `none` for `NULL`. -/
def get (dict : Dict Value) (name : Text) : Option (Option Nat) :=
  (dict.probe (endsSearch fun other => name == other) (strhash name)).map fun n =>
    if (dict.slot n).isNull then none else some n

/-- The end of `put`: the first entry that is dead or was never used is taken. -/
def insert (dict : Dict Value) (name : Text) (value : Value) : Option (Dict Value) :=
  (dict.probe (fun assoc => assoc.isDead || assoc.isNull) (strhash name)).map fun n =>
    (dict.setRemain (if (dict.slot n).isNull then dict.remain - 1 else dict.remain)).store n
      (.live name value)

/-- `dictforall`: the names and values it calls its procedure with, in order. -/
def dictforall (dict : Dict Value) : List (Text × Value) :=
  dict.table.filterMap Assoc.entry

/-- The body of `put`, given the new table the entries of a full one are moved to: the table the
caller passed, as it is left, and the one returned. -/
def putMoved (moved : Option (Dict Value)) (dict : Dict Value) (name : Text) (value : Value) :
    Option (Dict Value × Dict Value) :=
  (dict.get strhash name).bind fun found =>
    if found.isSome then none
    else if dict.remain ≤ 1 then
      moved.bind fun dnew => (dnew.insert strhash name value).map fun dnew => (dict, dnew)
    else (dict.insert strhash name value).map fun dict => (dict, dict)

/-- `put`. The first argument is how many growths may happen inside one another; a growth puts
every entry into a new table, and drops what those calls return. -/
def put : Nat → Dict Value → Text → Value → Option (Dict Value × Dict Value)
  | 0, dict, name, value => dict.putMoved strhash none name value
  | depth + 1, dict, name, value =>
      let moved := dict.dictforall.foldlM
        (fun dnew entry => (put depth dnew entry.1 entry.2).map Prod.fst)
        (mkdict0 (GROW dict.size) (isPowerOfTwo_GROW dict.isPowerOfTwo_size))
      dict.putMoved strhash moved name value

/-- The last loop of `rm`, going down: `n--` is taken modulo the size of the table. -/
def clear : Nat → Dict Value → Nat → Option (Dict Value)
  | 0, _, _ => none
  | fuel + 1, dict, n =>
      if (dict.slot n).isDead then
        clear fuel ((dict.setRemain (dict.remain + 1)).store n .null) (n + (dict.size - 1))
      else some dict

/-- `rm`: the entry is marked dead, and where the marks after it reach an entry never used, they
and those before it are cleared. -/
def rm (dict : Dict Value) (n : Nat) : Option (Dict Value) :=
  let dict := dict.store n .dead
  (dict.probe (fun assoc => !assoc.isDead) (n + 1)).bind fun n =>
    if (dict.slot n).isNull then clear dict.size dict (n + (dict.size - 1)) else some dict

/-! ### Exported functions -/

/-- `dictget`. -/
def dictget (dict : Dict Value) (name : Text) : Option (Option Value) :=
  (dict.get strhash name).map fun found =>
    found.bind fun n => (dict.slot n).entry.map Prod.snd

/-- `dictput`, with growths inside one another ruled out. -/
def dictput (dict : Dict Value) (name : Text) (value : Option Value) : Option (Dict Value) :=
  (dict.get strhash name).bind fun found =>
    match value, found with
    | some value, none => (put strhash 1 dict name value).map Prod.snd
    | some value, some n =>
        (dict.slot n).entry.map fun entry => dict.store n (.live entry.1 value)
    | none, some n => dict.rm n
    | none, none => some dict

/-- `dictget2`. -/
def dictget2 (strhash2 : Text → Text → Nat) (dict : Dict Value) (name1 name2 : Text) :
    Option (Option Value) :=
  (dict.probe (endsSearch fun name => streq2 name name1 name2) (strhash2 name1 name2)).map fun n =>
    (dict.slot n).entry.map Prod.snd

/-- A sequence of calls of `dictput`. -/
def dictputs (dict : Dict Value) (calls : List (Text × Option Value)) : Option (Dict Value) :=
  calls.foldlM (fun dict call => dict.dictput strhash call.1 call.2) dict

end

end Dict

end Desh
