/-
This file models the copying collector of `gc.c`, built without `GCPROTECT`.

A space is the list of the objects allocated in it, so the address of an object
is a space and a position in it. Spaces are numbered in the order in which they
are made, and a chain of spaces is listed oldest first, the other way round than
`next` links them; the newest space is the last. A number is not used again: an
address in a space that has been freed stands for nothing.

Every `copy` function allocates an object of the same size and copies the bytes,
every `scan` function forwards the pointers of an object one after the other.
The loops of `scanroots` and `scanspace` are a machine that forwards one pointer
a step. Loops that need not end are given fuel.
-/

import Desh.Relocation

namespace Desh

/-! ### Spaces -/

structure Addr where
  space : Nat
  index : Nat
  deriving DecidableEq

/-- An object with its tag word: `forward` is the address `FOLLOWTO` put there, if it did. -/
structure Object (Data : Type) where
  forward : Option Addr
  nbytes : Nat
  data : Data
  fields : List (Pointer Addr)
  deriving DecidableEq

/-- `Space`: the bytes between `bot` and `top`, and the objects below `current`. -/
structure Space (Data : Type) where
  size : Nat
  objects : List (Object Data)
  deriving DecidableEq

/-- `sizeof (void *)`. -/
def wordSize : Nat := 8

/-- `ALIGN`. -/
def ALIGN (n : Nat) : Nat := (n + (wordSize - 1)) / wordSize * wordSize

/-- What an allocation takes: the object and its tag. -/
def allocated (nbytes : Nat) : Nat := ALIGN (nbytes + wordSize)

/-- `SPACEUSED`. -/
def SPACEUSED {Data : Type} (space : Space Data) : Nat :=
  (space.objects.map fun object => allocated object.nbytes).sum

/-- A chain of spaces, oldest first, numbered from `base` on. -/
structure Spaces (Data : Type) where
  base : Nat
  list : List (Space Data)
  deriving DecidableEq

variable {Data : Type}

namespace Spaces

/-- The number the next space will have. -/
def limit (spaces : Spaces Data) : Nat := spaces.base + spaces.list.length

/-- `isinspace`, without its assertion. -/
def isinspace (spaces : Spaces Data) (a : Addr) : Bool :=
  spaces.base ≤ a.space && a.space < spaces.limit

/-- The object at an address. -/
def get (spaces : Spaces Data) (a : Addr) : Option (Object Data) :=
  if spaces.base ≤ a.space then
    (spaces.list[a.space - spaces.base]?).bind fun space => space.objects[a.index]?
  else none

/-- Writing to the object at an address. -/
def modify (spaces : Spaces Data) (a : Addr) (f : Object Data → Object Data) : Spaces Data :=
  { spaces with
    list := spaces.list.modify (a.space - spaces.base) fun space =>
      { space with objects := space.objects.modify a.index f } }

/-- `newspace`. -/
def newspace (spaces : Spaces Data) (minspace : Nat) : Spaces Data :=
  { spaces with list := spaces.list ++ [⟨ALIGN minspace, []⟩] }

/-- Is there room for an object in the newest space? -/
def fits (spaces : Spaces Data) (nbytes : Nat) : Bool :=
  spaces.list.getLast?.any fun space => SPACEUSED space + allocated nbytes ≤ space.size

/-- The address `current` of the newest space is. -/
def current (spaces : Spaces Data) : Addr :=
  ⟨spaces.limit - 1, (spaces.list.getLast?.map fun space => space.objects.length).getD 0⟩

/-- Put an object there. -/
def push (spaces : Spaces Data) (object : Object Data) : Spaces Data :=
  { spaces with
    list := spaces.list.modify (spaces.list.length - 1) fun space =>
      { space with objects := space.objects ++ [object] } }

/-- `gcalloc` while collections are blocked, followed by copying the object: its address, and the
new value of `minspace`. -/
def gcalloc (object : Object Data) : Nat → Nat → Spaces Data →
    Option (Addr × Nat × Spaces Data)
  | 0, _, _ => none
  | fuel + 1, minspace, spaces =>
      if spaces.fits object.nbytes then some (spaces.current, minspace, spaces.push object)
      else
        let minspace := if minspace < object.nbytes then object.nbytes + wordSize else minspace
        gcalloc object fuel minspace (spaces.newspace minspace)

end Spaces

/-! ### The collector -/

/-- Where `gc` is: at a root of the two root lists, or at a field of an object in new space.
`scanned`, `front` and `sp` count spaces from the oldest: those below `scanned` were up to date
when the pass began, there were `front` then, and the loop over `sp` is at the space before `sp`.
-/
inductive Phase where
  | scanroots (i : Nat)
  | scanspace (scanned front sp scan field : Nat)
  | done
  deriving DecidableEq

/-- The state of a collection. -/
structure Collector (Data : Type) where
  old : Spaces Data
  new : Spaces Data
  minspace : Nat
  roots : List (Pointer Addr)
  phase : Phase
  deriving DecidableEq

namespace Collector

/-- `forward`; `none` where `isinspace` fails its assertion, or `gcalloc` does not return. -/
def forward (fuel : Nat) (p : Pointer Addr) (collector : Collector Data) :
    Option (Pointer Addr × Collector Data) :=
  match p with
  | .other n => some (.other n, collector)
  | .heap a =>
      if !collector.old.isinspace a then some (.heap a, collector)
      else
        match collector.old.get a with
        | none => none
        | some object =>
            match object.forward with
            | some np => some (.heap np, collector)
            | none => do
                let (np, minspace, new) ←
                  collector.new.gcalloc object fuel collector.minspace
                some (.heap np, { collector with
                  new
                  minspace
                  old := collector.old.modify a fun object => { object with forward := some np } })

/-- The object `scan` points at. -/
def scanned (collector : Collector Data) (sp scan : Nat) : Addr :=
  ⟨collector.new.base + sp - 1, scan⟩

/-- One step: forward a pointer, or move on. -/
def step (fuel : Nat) (collector : Collector Data) : Option (Collector Data) :=
  match collector.phase with
  | .scanroots i =>
      match collector.roots[i]? with
      | some p => do
          let (np, collector) ← collector.forward fuel p
          some { collector with roots := collector.roots.set i np, phase := .scanroots (i + 1) }
      | none =>
          let count := collector.new.list.length
          some { collector with phase := .scanspace 0 count count 0 0 }
  | .scanspace scanned front sp scan field =>
      if sp = scanned then
        let count := collector.new.list.length
        if count = front then some { collector with phase := .done }
        else some { collector with phase := .scanspace front count count 0 0 }
      else
        let position := collector.scanned sp scan
        match collector.new.get position with
        | none => some { collector with phase := .scanspace scanned front (sp - 1) 0 0 }
        | some object =>
            match object.fields[field]? with
            | none => some { collector with phase := .scanspace scanned front sp (scan + 1) 0 }
            | some p => do
                let (np, collector) ← collector.forward fuel p
                some { collector with
                  new := collector.new.modify position fun object =>
                    { object with fields := object.fields.set field np }
                  phase := .scanspace scanned front sp scan (field + 1) }
  | .done => none

/-- Steps up to the end of `scanspace`. -/
def run (fuel : Nat) : Nat → Collector Data → Option (Collector Data)
  | 0, _ => none
  | count + 1, collector =>
      if collector.phase = .done then some collector
      else (collector.step fuel).bind (run fuel count)

end Collector

/-! ### Collections -/

/-- The spaces in use, the roots of both lists and `minspace`. -/
structure GcHeap (Data : Type) where
  spaces : Spaces Data
  roots : List (Pointer Addr)
  minspace : Nat
  deriving DecidableEq

/-- `MIN_minspace`. -/
def MIN_minspace : Nat := 10000

namespace GcHeap

/-- The state `gc` enters `scanroots` in. -/
def start (heap : GcHeap Data) : Collector Data where
  old := heap.spaces
  new := Spaces.newspace ⟨heap.spaces.limit, []⟩ heap.minspace
  minspace := heap.minspace
  roots := heap.roots
  phase := .scanroots 0

/-- The rest of the body of `gc`: the old spaces are freed and `minspace` is adjusted. -/
def finish (collector : Collector Data) : GcHeap Data where
  spaces := collector.new
  roots := collector.roots
  minspace :=
    let livedata := (collector.new.list.map SPACEUSED).sum
    if collector.minspace < livedata * 2 then livedata * 4
    else if collector.minspace > livedata * 12 && collector.minspace > MIN_minspace * 2 then
      collector.minspace / 2
    else collector.minspace

/-- The body of the loop of `gc`. -/
def collect (fuel : Nat) (heap : GcHeap Data) : Option (GcHeap Data) :=
  (heap.start.run fuel fuel).map finish

/-- `gc`, called while collections are not blocked. -/
def gc (fuel : Nat) : Nat → GcHeap Data → Option (GcHeap Data)
  | 0, _ => none
  | count + 1, heap => do
      let heap ← heap.collect fuel
      if heap.spaces.list.length = 1 then some heap else gc fuel count heap

end GcHeap

end Desh
