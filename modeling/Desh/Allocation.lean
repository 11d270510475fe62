/-
This file asks when the loop of `gcalloc` ends. Only sizes matter for that: a
collection is taken as the requests it makes, the objects in use in the order in
which the pass copies them, which is a parameter; each request is the loop of
`gcalloc` again, while collections are blocked.
-/

import Desh.Collect

namespace Desh

variable {Data : Type}

/-! ### Allocation and collection by size -/

/-- What `gcalloc` makes of `minspace` where an object does not fit. -/
def raised (minspace nbytes : Nat) : Nat :=
  if minspace < nbytes then nbytes + wordSize else minspace

/-- What `gc` makes of `minspace` when it is done. -/
def adjusted (minspace livedata : Nat) : Nat :=
  if minspace < livedata * 2 then livedata * 4
  else if minspace > livedata * 12 ∧ minspace > MIN_minspace * 2 then minspace / 2
  else minspace

/-- The bytes that objects take. -/
def bytes (objects : List (Object Data)) : Nat :=
  (objects.map fun object => allocated object.nbytes).sum

/-- The requests of a copying pass: the new value of `minspace` and the spaces. -/
def copyAll (fuel : Nat) : List (Object Data) → Nat → Spaces Data → Option (Nat × Spaces Data)
  | [], minspace, spaces => some (minspace, spaces)
  | object :: objects, minspace, spaces => do
      let (_, minspace, spaces) ← spaces.gcalloc object fuel minspace
      copyAll fuel objects minspace spaces

/-- The spaces in use, `minspace`, and how many passes there have been. -/
structure Arena (Data : Type) where
  spaces : Spaces Data
  minspace : Nat
  passes : Nat

namespace Arena

/-- The body of the loop of `gc`, where pass number `k` copies the objects `copies k`. -/
def collect (copies : Nat → List (Object Data)) (fuel : Nat) (arena : Arena Data) :
    Option (Arena Data) := do
  let (minspace, new) ← copyAll fuel (copies arena.passes) arena.minspace
    (Spaces.newspace ⟨arena.spaces.limit, []⟩ arena.minspace)
  some ⟨new, adjusted minspace (new.list.map SPACEUSED).sum, arena.passes + 1⟩

/-- `gc`, called while collections are not blocked. -/
def gc (copies : Nat → List (Object Data)) (fuel : Nat) : Nat → Arena Data → Option (Arena Data)
  | 0, _ => none
  | count + 1, arena => do
      let arena ← arena.collect copies fuel
      if arena.spaces.list.length = 1 then some arena else gc copies fuel count arena

/-- `gcalloc`. -/
def gcalloc (copies : Nat → List (Object Data)) (object : Object Data) (gcblocked : Bool)
    (fuel : Nat) : Nat → Arena Data → Option (Arena Data)
  | 0, _ => none
  | count + 1, arena =>
      if arena.spaces.fits object.nbytes then
        some { arena with spaces := arena.spaces.push object }
      else
        let minspace := raised arena.minspace object.nbytes
        if gcblocked then
          gcalloc copies object gcblocked fuel count
            { arena with spaces := arena.spaces.newspace minspace, minspace }
        else do
          let arena ← gc copies fuel fuel { arena with minspace }
          gcalloc copies object gcblocked fuel count arena

end Arena

/-! ### Sizes -/

theorem ALIGN_bounds (n : Nat) : n ≤ ALIGN n ∧ ALIGN n < n + 8 ∧ ALIGN n % 8 = 0 := by
  rw [ALIGN, wordSize]
  omega

theorem bytes_mod (objects : List (Object Data)) : bytes objects % 8 = 0 := by
  induction objects with
  | nil => rfl
  | cons object objects ih =>
    have one := (ALIGN_bounds (object.nbytes + wordSize)).2.2
    rw [bytes] at ih
    rw [bytes, List.map_cons, List.sum_cons, allocated]
    omega

theorem bytes_cons (object : Object Data) (objects : List (Object Data)) :
    bytes (object :: objects) = allocated object.nbytes + bytes objects := by
  rw [bytes, List.map_cons, List.sum_cons, bytes]

theorem allocated_bounds (nbytes : Nat) :
    nbytes + 8 ≤ allocated nbytes ∧ allocated nbytes < nbytes + 16 ∧ allocated nbytes % 8 = 0 := by
  have bounds := ALIGN_bounds (nbytes + wordSize)
  rw [wordSize] at bounds
  rw [allocated, wordSize]
  omega

theorem le_raised (minspace nbytes : Nat) : nbytes ≤ raised minspace nbytes := by
  rw [raised]
  split
  · omega
  · omega

/-- Where a space of size `minspace` is not large enough for data and an object, the next one is
not either, unless `minspace` is less than twice the data. -/
theorem raised_adjusted {minspace nbytes live : Nat} (large : nbytes ≤ minspace)
    (twice : 2 * live ≤ minspace) (little : ALIGN minspace < live + allocated nbytes)
    (words : live % 8 = 0) (idle : live = 0 → minspace ≤ 2 * MIN_minspace) :
    let next := raised (adjusted minspace live) nbytes
    ALIGN next < live + allocated nbytes ∧ 2 * live ≤ next ∧
      (live = 0 → next ≤ 2 * MIN_minspace) := by
  intro next
  have aligned := ALIGN_bounds minspace
  have total := allocated_bounds nbytes
  by_cases lowers : minspace > live * 12 ∧ minspace > MIN_minspace * 2
  · have half : adjusted minspace live = minspace / 2 := by
      rw [adjusted, if_neg (by omega), if_pos lowers]
    have again : next = nbytes + wordSize := by
      rw [MIN_minspace] at lowers idle
      exact (congrArg (raised · nbytes) half).trans (if_pos (by omega))
    have size : ALIGN next = allocated nbytes := congrArg ALIGN again
    rw [wordSize] at again
    rw [MIN_minspace] at lowers idle ⊢
    omega
  · have kept : adjusted minspace live = minspace := by
      rw [adjusted, if_neg (by omega), if_neg lowers]
    have same : next = minspace :=
      (congrArg (raised · nbytes) kept).trans (if_neg (Nat.not_lt.mpr large))
    rw [same]
    exact ⟨little, twice, idle⟩

/-! ### One request while collections are blocked -/

/-- `minspace` is as large as the object, and a space of that size is not large enough for it. -/
def Stuck (minspace nbytes : Nat) : Prop :=
  nbytes ≤ minspace ∧ ALIGN minspace < allocated nbytes

instance (minspace nbytes : Nat) : Decidable (Stuck minspace nbytes) :=
  inferInstanceAs (Decidable (_ ∧ _))

theorem not_stuck_iff (minspace nbytes : Nat) :
    ¬Stuck minspace nbytes ↔ allocated nbytes ≤ ALIGN (raised minspace nbytes) := by
  have aligned := ALIGN_bounds minspace
  have total := allocated_bounds nbytes
  rw [Stuck, raised]
  split
  · rw [allocated]
    omega
  · omega

namespace Spaces

theorem list_newspace (spaces : Spaces Data) (minspace : Nat) :
    (spaces.newspace minspace).list = spaces.list ++ [⟨ALIGN minspace, []⟩] := rfl

/-- An object goes to the newest space. -/
theorem list_push {spaces : Spaces Data} {front : List (Space Data)} {space : Space Data}
    (list : spaces.list = front ++ [space]) (object : Object Data) :
    (spaces.push object).list =
      front ++ [{ space with objects := space.objects ++ [object] }] := by
  have last : ∀ (front : List (Space Data)) (f : Space Data → Space Data),
      (front ++ [space]).modify front.length f = front ++ [f space] := by
    intro front f
    induction front with
    | nil => rfl
    | cons first front ih => exact congrArg _ ih
  rw [push, list, List.length_append, List.length_singleton, Nat.add_sub_cancel, last]

theorem fits_concat {spaces : Spaces Data} {front : List (Space Data)} {space : Space Data}
    (list : spaces.list = front ++ [space]) (nbytes : Nat) :
    spaces.fits nbytes = decide (SPACEUSED space + allocated nbytes ≤ space.size) := by
  rw [fits, list, List.getLast?_concat, Option.any_some]

theorem fits_newspace (spaces : Spaces Data) (minspace nbytes : Nat) :
    (spaces.newspace minspace).fits nbytes = decide (allocated nbytes ≤ ALIGN minspace) := by
  rw [fits_concat (list_newspace spaces minspace), SPACEUSED, List.map_nil, List.sum_nil,
    Nat.zero_add]

theorem gcalloc_of_fits {object : Object Data} {spaces : Spaces Data}
    (room : spaces.fits object.nbytes = true) (fuel minspace : Nat) :
    spaces.gcalloc object (fuel + 1) minspace =
      some (spaces.current, minspace, spaces.push object) := by
  rw [gcalloc, if_pos room]

theorem gcalloc_of_not_fits {object : Object Data} {spaces : Spaces Data}
    (full : spaces.fits object.nbytes = false) (fuel minspace : Nat) :
    spaces.gcalloc object (fuel + 1) minspace =
      (spaces.newspace (raised minspace object.nbytes)).gcalloc object fuel
        (raised minspace object.nbytes) := by
  rw [gcalloc, if_neg (Bool.eq_false_iff.mp full)]
  rfl

theorem raised_of_le {minspace nbytes : Nat} (large : nbytes ≤ minspace) :
    raised minspace nbytes = minspace := if_neg (Nat.not_lt.mpr large)

/-- A request that is stuck makes one space after the other. -/
theorem gcalloc_stuck {object : Object Data} {minspace : Nat}
    (stuck : Stuck minspace object.nbytes) {spaces : Spaces Data}
    (full : spaces.fits object.nbytes = false) (fuel : Nat) :
    spaces.gcalloc object fuel minspace = none := by
  induction fuel generalizing spaces with
  | zero => rfl
  | succ fuel ih =>
    rw [gcalloc_of_not_fits full, raised_of_le stuck.1]
    refine ih ?_
    rw [fits_newspace]
    exact decide_eq_false (Nat.not_le.mpr stuck.2)

/-- Another request that does not fit makes one space. -/
theorem gcalloc_grows {object : Object Data} {minspace : Nat}
    (free : ¬Stuck minspace object.nbytes) {spaces : Spaces Data}
    (full : spaces.fits object.nbytes = false) (fuel : Nat) :
    let grown := spaces.newspace (raised minspace object.nbytes)
    spaces.gcalloc object (fuel + 2) minspace =
      some (grown.current, raised minspace object.nbytes, grown.push object) := by
  intro grown
  have room : grown.fits object.nbytes = true := by
    rw [fits_newspace]
    exact decide_eq_true ((not_stuck_iff _ _).mp free)
  rw [gcalloc_of_not_fits full, gcalloc_of_fits room]

/-- The outcome of the loop, which makes one space at most. -/
theorem gcalloc_some {object : Object Data} {fuel minspace : Nat} {spaces : Spaces Data}
    {result : Addr × Nat × Spaces Data}
    (returned : spaces.gcalloc object fuel minspace = some result) :
    (spaces.fits object.nbytes = true ∧ result.2 = (minspace, spaces.push object)) ∨
      (spaces.fits object.nbytes = false ∧ ¬Stuck minspace object.nbytes ∧
        result.2 = (raised minspace object.nbytes,
          (spaces.newspace (raised minspace object.nbytes)).push object)) := by
  cases fuel with
  | zero => cases returned
  | succ fuel =>
    cases room : spaces.fits object.nbytes with
    | true =>
      rw [gcalloc_of_fits room] at returned
      obtain rfl := Option.some.inj returned
      exact .inl ⟨rfl, rfl⟩
    | false =>
      have free : ¬Stuck minspace object.nbytes := fun stuck => by
        rw [gcalloc_stuck stuck room] at returned
        cases returned
      refine .inr ⟨rfl, free, ?_⟩
      cases fuel with
      | zero =>
        rw [gcalloc_of_not_fits room] at returned
        cases returned
      | succ fuel =>
        rw [gcalloc_grows free room] at returned
        obtain rfl := Option.some.inj returned
        rfl

end Spaces

/-! ### A copying pass -/

/-- No request of a pass is stuck. -/
def Copyable : Nat → List (Object Data) → Prop
  | _, [] => True
  | minspace, object :: objects =>
      ¬Stuck minspace object.nbytes ∧ Copyable (raised minspace object.nbytes) objects

/-- The newest space has the size of `minspace`. -/
def Newest (spaces : Spaces Data) (minspace : Nat) : Prop :=
  ∃ front space, spaces.list = front ++ [space] ∧ space.size = ALIGN minspace

theorem newest_newspace (spaces : Spaces Data) (minspace : Nat) :
    Newest (spaces.newspace minspace) minspace :=
  ⟨_, _, spaces.list_newspace minspace, rfl⟩

theorem newest_push {spaces : Spaces Data} {minspace : Nat} (newest : Newest spaces minspace)
    (object : Object Data) : Newest (spaces.push object) minspace := by
  obtain ⟨front, space, list, size⟩ := newest
  exact ⟨_, _, Spaces.list_push list object, size⟩

/-- A request that is stuck does not fit. -/
theorem Stuck.not_fits {spaces : Spaces Data} {minspace nbytes : Nat}
    (stuck : Stuck minspace nbytes) (newest : Newest spaces minspace) :
    spaces.fits nbytes = false := by
  obtain ⟨front, space, list, size⟩ := newest
  rw [Spaces.fits_concat list]
  refine decide_eq_false fun room => ?_
  have small := stuck.2
  omega

/-- An object for which `minspace` is raised does not fit. -/
theorem raised_of_fits {spaces : Spaces Data} {minspace nbytes : Nat}
    (room : spaces.fits nbytes = true) (newest : Newest spaces minspace) :
    raised minspace nbytes = minspace := by
  obtain ⟨front, space, list, size⟩ := newest
  rw [Spaces.fits_concat list, decide_eq_true_iff] at room
  refine Spaces.raised_of_le ?_
  have total := allocated_bounds nbytes
  have aligned := ALIGN_bounds minspace
  omega

/-- The bytes used in all spaces. -/
def Spaces.used (spaces : Spaces Data) : Nat := (spaces.list.map SPACEUSED).sum

theorem used_newspace (spaces : Spaces Data) (minspace : Nat) :
    (spaces.newspace minspace).used = spaces.used := by
  rw [Spaces.used, Spaces.list_newspace, List.map_append, List.sum_append]
  rfl

theorem used_push {spaces : Spaces Data} {minspace : Nat} (newest : Newest spaces minspace)
    (object : Object Data) :
    (spaces.push object).used = spaces.used + allocated object.nbytes := by
  obtain ⟨front, space, list, size⟩ := newest
  rw [Spaces.used, Spaces.used, Spaces.list_push list, list, List.map_append, List.map_append,
    List.sum_append, List.sum_append]
  simp [SPACEUSED, Nat.add_assoc]

/-- One request of a pass: it is not stuck, `minspace` is raised where that is due, and the object
is in the newest space, which is the only one if it was and the object fitted. -/
theorem request_spec {object : Object Data} {fuel minspace : Nat} {spaces : Spaces Data}
    (newest : Newest spaces minspace) {result : Addr × Nat × Spaces Data}
    (returned : spaces.gcalloc object fuel minspace = some result) :
    ¬Stuck minspace object.nbytes ∧ result.2.1 = raised minspace object.nbytes ∧
      Newest result.2.2 (raised minspace object.nbytes) ∧
      result.2.2.used = spaces.used + allocated object.nbytes ∧
      (spaces.fits object.nbytes = true ∧ result.2.2 = spaces.push object ∨
        spaces.fits object.nbytes = false ∧ spaces.list.length < result.2.2.list.length) := by
  rcases Spaces.gcalloc_some returned with ⟨room, same⟩ | ⟨full, free, same⟩
  · rw [same, raised_of_fits room newest]
    refine ⟨fun stuck => ?_, rfl, newest_push newest object, used_push newest object,
      .inl ⟨room, rfl⟩⟩
    rw [stuck.not_fits newest] at room
    cases room
  · have grown := newest_newspace spaces (raised minspace object.nbytes)
    rw [same]
    refine ⟨free, rfl, newest_push grown object, ?_, .inr ⟨full, ?_⟩⟩
    · rw [used_push grown object, used_newspace]
    · show spaces.list.length < (Spaces.push _ object).list.length
      rw [Spaces.list_push (Spaces.list_newspace spaces _), List.length_append]
      exact Nat.lt_succ_self _

/-- A request of a pass that is not stuck returns. -/
theorem request_returns {object : Object Data} {minspace : Nat} (spaces : Spaces Data)
    (free : ¬Stuck minspace object.nbytes) (fuel : Nat) :
    (spaces.gcalloc object (fuel + 2) minspace).isSome := by
  cases room : spaces.fits object.nbytes with
  | true => rw [Spaces.gcalloc_of_fits room, Option.isSome_some]
  | false => rw [Spaces.gcalloc_grows free room, Option.isSome_some]

theorem copyAll_cons {object : Object Data} {objects : List (Object Data)} {fuel minspace : Nat}
    {spaces : Spaces Data} {result : Nat × Spaces Data}
    (returned : copyAll fuel (object :: objects) minspace spaces = some result) :
    ∃ one : Addr × Nat × Spaces Data, spaces.gcalloc object fuel minspace = some one ∧
      copyAll fuel objects one.2.1 one.2.2 = some result := by
  obtain ⟨one, first, rest⟩ := Option.bind_eq_some_iff.mp returned
  exact ⟨one, first, rest⟩

theorem raised_bounds (minspace nbytes : Nat) :
    minspace ≤ raised minspace nbytes ∧
      (raised minspace nbytes = minspace ∨ raised minspace nbytes ≤ allocated nbytes) := by
  have total := allocated_bounds nbytes
  rw [raised, wordSize]
  split
  · omega
  · omega

/-- What a pass that returns has done. -/
theorem copyAll_spec {objects : List (Object Data)} {fuel minspace : Nat} {spaces : Spaces Data}
    (newest : Newest spaces minspace) {result : Nat × Spaces Data}
    (returned : copyAll fuel objects minspace spaces = some result) :
    Copyable minspace objects ∧ Newest result.2 result.1 ∧
      result.2.used = spaces.used + bytes objects ∧
      (result.1 = minspace ∨ result.1 ≤ bytes objects) ∧
      spaces.list.length ≤ result.2.list.length := by
  induction objects generalizing minspace spaces with
  | nil =>
    obtain rfl := Option.some.inj returned
    exact ⟨trivial, newest, rfl, .inl rfl, le_rfl⟩
  | cons object objects ih =>
    obtain ⟨one, first, rest⟩ := copyAll_cons returned
    obtain ⟨free, same, grown, used, longer⟩ := request_spec newest first
    rw [same] at rest
    obtain ⟨copyable, newest', used', bound, length⟩ := ih grown rest
    have raise := raised_bounds minspace object.nbytes
    rw [bytes_cons]
    refine ⟨⟨free, copyable⟩, newest', by rw [used', used, Nat.add_assoc], by omega, ?_⟩
    refine le_trans ?_ length
    rcases longer with ⟨-, pushed⟩ | ⟨-, several⟩
    · obtain ⟨front, space, list, -⟩ := newest
      rw [pushed, Spaces.list_push list, list, List.length_append, List.length_append]
      rfl
    · exact several.le

/-- A pass returns where no request is stuck. -/
theorem copyAll_returns {objects : List (Object Data)} {minspace : Nat} {spaces : Spaces Data}
    (newest : Newest spaces minspace) (copyable : Copyable minspace objects) (fuel : Nat) :
    (copyAll (fuel + 2) objects minspace spaces).isSome := by
  induction objects generalizing minspace spaces with
  | nil => rfl
  | cons object objects ih =>
    have returns := request_returns spaces copyable.1 fuel
    obtain ⟨one, first⟩ := Option.isSome_iff_exists.mp returns
    obtain ⟨-, same, grown, -, -⟩ := request_spec newest first
    have rest := ih grown copyable.2
    rw [← same] at rest
    rw [copyAll, first]
    exact rest

theorem SPACEUSED_append (space : Space Data) (object : Object Data) :
    SPACEUSED { space with objects := space.objects ++ [object] } =
      SPACEUSED space + allocated object.nbytes := by
  rw [SPACEUSED, SPACEUSED, List.map_append, List.sum_append]
  rfl

/-- A pass that copies no more than a space holds is not stuck. -/
theorem copyable_of_room {objects : List (Object Data)} {minspace : Nat}
    (room : bytes objects ≤ ALIGN minspace) : Copyable minspace objects := by
  induction objects with
  | nil => exact trivial
  | cons object objects ih =>
    rw [bytes_cons] at room
    have total := allocated_bounds object.nbytes
    have aligned := ALIGN_bounds minspace
    refine ⟨fun stuck => ?_, ?_⟩
    · have small := stuck.2
      omega
    · rw [Spaces.raised_of_le (by omega)]
      exact ih (by omega)

section OneSpace

variable {objects : List (Object Data)} {fuel minspace : Nat} {spaces : Spaces Data}
  {space : Space Data} {result : Nat × Spaces Data}

/-- It needs no other space. -/
theorem copyAll_single (list : spaces.list = [] ++ [space]) (size : space.size = ALIGN minspace)
    (room : SPACEUSED space + bytes objects ≤ ALIGN minspace)
    (returned : copyAll fuel objects minspace spaces = some result) :
    result.1 = minspace ∧ result.2.list.length = 1 := by
  induction objects generalizing spaces space with
  | nil =>
    obtain rfl := Option.some.inj returned
    exact ⟨rfl, congrArg List.length list⟩
  | cons object objects ih =>
    have newest : Newest spaces minspace := ⟨[], space, list, size⟩
    rw [bytes_cons] at room
    have fits : spaces.fits object.nbytes = true := by
      rw [Spaces.fits_concat list]
      exact decide_eq_true (by omega)
    obtain ⟨one, first, rest⟩ := copyAll_cons returned
    obtain ⟨-, same, -, -, pushed⟩ := request_spec newest first
    rw [same, raised_of_fits fits newest] at rest
    rcases pushed with ⟨-, pushed⟩ | ⟨full, -⟩
    · rw [pushed] at rest
      exact ih (Spaces.list_push list object) size (by rw [SPACEUSED_append]; omega) rest
    · exact absurd (fits.symm.trans full) nofun

/-- A pass that copies more makes another space. -/
theorem copyAll_several (list : spaces.list = [] ++ [space]) (size : space.size = ALIGN minspace)
    (valid : SPACEUSED space ≤ space.size)
    (much : ALIGN minspace < SPACEUSED space + bytes objects)
    (returned : copyAll fuel objects minspace spaces = some result) :
    1 < result.2.list.length := by
  induction objects generalizing spaces space with
  | nil =>
    rw [bytes, List.map_nil, List.sum_nil] at much
    omega
  | cons object objects ih =>
    have newest : Newest spaces minspace := ⟨[], space, list, size⟩
    rw [bytes_cons] at much
    obtain ⟨one, first, rest⟩ := copyAll_cons returned
    obtain ⟨-, same, grown, -, longer⟩ := request_spec newest first
    rcases longer with ⟨fits, pushed⟩ | ⟨-, several⟩
    · rw [same, raised_of_fits fits newest, pushed] at rest
      rw [Spaces.fits_concat list, decide_eq_true_iff] at fits
      refine ih (Spaces.list_push list object) size ?_ ?_ rest
      · rw [SPACEUSED_append]
        exact fits
      · rw [SPACEUSED_append]
        omega
    · rw [same] at rest
      have length := (copyAll_spec grown rest).2.2.2.2
      rw [list] at several
      exact several.trans_le length

end OneSpace

/-! ### The passes of the collector -/

/-- The sizes of the spaces and of the objects in them. -/
def footprint (spaces : Spaces Data) : List (Nat × List Nat) :=
  spaces.list.map fun space => (space.size, space.objects.map Object.nbytes)

theorem map_modify {First Second : Type} (g : First → Second) (f : First → First)
    (f' : Second → Second) (commute : ∀ x, g (f x) = f' (g x)) (list : List First) (i : Nat) :
    (list.modify i f).map g = (list.map g).modify i f' := by
  refine List.ext_getElem? fun j => ?_
  rw [List.getElem?_map, List.getElem?_modify, List.getElem?_modify, List.getElem?_map]
  cases list[j]? with
  | none => split <;> rfl
  | some x =>
    split
    · exact congrArg some (commute x)
    · rfl

theorem footprint_push (spaces : Spaces Data) (object : Object Data) :
    footprint (spaces.push object) =
      (footprint spaces).modify ((footprint spaces).length - 1)
        fun (size, objects) => (size, objects ++ [object.nbytes]) := by
  rw [footprint, Spaces.push, footprint, List.length_map]
  exact map_modify _ _ _ (fun space => by rw [List.map_append]; rfl) _ _

theorem footprint_newspace (spaces : Spaces Data) (minspace : Nat) :
    footprint (spaces.newspace minspace) = footprint spaces ++ [(ALIGN minspace, [])] :=
  List.map_append

theorem footprint_put (collector : Collector Data) (slot : Slot Addr) (q : Pointer Addr) :
    footprint (collector.put slot q).new = footprint collector.new := by
  cases slot with
  | root i => rfl
  | field b i =>
    have inner : ∀ objects : List (Object Data),
        (objects.modify b.index fun object =>
          { object with fields := object.fields.set i q }).map Object.nbytes =
            objects.map Object.nbytes := fun objects =>
      (map_modify Object.nbytes (fun object => { object with fields := object.fields.set i q }) id
        (fun object => rfl) objects b.index).trans (List.modify_id _ _)
    exact (map_modify _ _ id (fun space => by rw [inner]; rfl) _ _).trans (List.modify_id _ _)

theorem fits_footprint (spaces : Spaces Data) (nbytes : Nat) :
    spaces.fits nbytes = (footprint spaces).getLast?.any fun (size, objects) =>
      decide ((objects.map allocated).sum + allocated nbytes ≤ size) := by
  rw [Spaces.fits, footprint, List.getLast?_map, Option.any_map]
  refine congrFun (congrArg Option.any (funext fun space => ?_)) _
  show _ = decide ((List.map _ (List.map _ _)).sum + _ ≤ _)
  rw [List.map_map]
  rfl

/-- A request does the same to spaces of the same sizes. -/
theorem gcalloc_footprint {object : Object Data} {fuel minspace : Nat} {spaces other : Spaces Data}
    (same : footprint spaces = footprint other) {result : Addr × Nat × Spaces Data}
    (returned : spaces.gcalloc object fuel minspace = some result) :
    ∃ result', other.gcalloc object fuel minspace = some result' ∧
      result'.2.1 = result.2.1 ∧ footprint result'.2.2 = footprint result.2.2 := by
  induction fuel generalizing minspace spaces other with
  | zero => cases returned
  | succ fuel ih =>
    have fits : other.fits object.nbytes = spaces.fits object.nbytes := by
      rw [fits_footprint, fits_footprint, same]
    cases room : spaces.fits object.nbytes with
    | true =>
      rw [room] at fits
      rw [Spaces.gcalloc_of_fits room] at returned
      obtain rfl := Option.some.inj returned
      refine ⟨_, Spaces.gcalloc_of_fits fits fuel minspace, rfl, ?_⟩
      rw [footprint_push, footprint_push, same]
    | false =>
      rw [room] at fits
      rw [Spaces.gcalloc_of_not_fits room] at returned
      rw [Spaces.gcalloc_of_not_fits fits]
      exact ih (by rw [footprint_newspace, footprint_newspace, same]) returned

theorem copyAll_footprint {objects : List (Object Data)} {fuel minspace : Nat}
    {spaces other : Spaces Data} (same : footprint spaces = footprint other)
    {result : Nat × Spaces Data}
    (returned : copyAll fuel objects minspace spaces = some result) :
    ∃ result', copyAll fuel objects minspace other = some result' ∧
      result'.1 = result.1 ∧ footprint result'.2 = footprint result.2 := by
  induction objects generalizing minspace spaces other with
  | nil =>
    obtain rfl := Option.some.inj returned
    exact ⟨_, rfl, rfl, same.symm⟩
  | cons object objects ih =>
    obtain ⟨one, first, rest⟩ := copyAll_cons returned
    obtain ⟨one', first', minspace', prints⟩ := gcalloc_footprint same first
    rw [← minspace'] at rest
    obtain ⟨result', rest', final⟩ := ih prints.symm rest
    refine ⟨result', ?_, final⟩
    rw [copyAll, first']
    exact rest'

/-- The requests of a run of the collector are those of a copying pass. -/
theorem run_copies {collector after : Collector Data} {fuel count : Nat}
    (run : collector.run fuel count = some after) :
    ∃ copied result, copyAll fuel copied collector.minspace collector.new = some result ∧
      result.1 = after.minspace ∧ footprint result.2 = footprint after.new := by
  induction count generalizing collector with
  | zero => cases run
  | succ count ih =>
    rw [Collector.run] at run
    split at run
    · obtain rfl := Option.some.inj run
      exact ⟨[], _, rfl, rfl, rfl⟩
    · obtain ⟨middle, step, rest⟩ := Option.bind_eq_some_iff.mp run
      obtain ⟨copied, result, copies, minspace, prints⟩ := ih rest
      rcases Collector.step_cases step with
        ⟨phase, -, rfl⟩ | ⟨slot, p, q, forwarded, -, -, forward, rfl⟩
      · exact ⟨copied, result, copies, minspace, prints⟩
      · have put := footprint_put forwarded slot q
        have put_minspace : (forwarded.put slot q).minspace = forwarded.minspace := by
          cases slot <;> rfl
        obtain ⟨result', copies', minspace', prints'⟩ := copyAll_footprint put copies
        have copies'' : copyAll fuel copied forwarded.minspace forwarded.new = some result' :=
          put_minspace ▸ copies'
        have ends : result'.1 = after.minspace ∧ footprint result'.2 = footprint after.new :=
          ⟨minspace'.trans minspace, prints'.trans prints⟩
        rcases Collector.forward_cases forward with ⟨-, -, rfl⟩ | ⟨_, _, _, -, -, -, -, rfl⟩ |
          ⟨a, object, np, raise, new, -, -, -, request, -, rfl⟩
        · exact ⟨copied, result', copies'', ends⟩
        · exact ⟨copied, result', copies'', ends⟩
        · refine ⟨object :: copied, result', ?_, ends⟩
          rw [copyAll, request]
          exact copies''

theorem used_footprint (spaces : Spaces Data) :
    spaces.used = ((footprint spaces).map fun (_, objects) => (objects.map allocated).sum).sum := by
  rw [Spaces.used, footprint, List.map_map]
  refine congrArg List.sum (List.map_congr_left fun space _ => ?_)
  show _ = (List.map _ (List.map _ _)).sum
  rw [List.map_map]
  rfl

/-- A pass of the collector is one of `Arena.collect`. -/
theorem collect_copies {heap heap' : GcHeap Data} {fuel : Nat}
    (run : heap.collect fuel = some heap') :
    ∃ copied after, Arena.collect (fun _ => copied) fuel ⟨heap.spaces, heap.minspace, 0⟩ =
        some after ∧
      after.minspace = heap'.minspace ∧ footprint after.spaces = footprint heap'.spaces := by
  obtain ⟨collector, ran, rfl⟩ := Option.map_eq_some_iff.mp run
  obtain ⟨copied, result, copies, minspace, prints⟩ := run_copies ran
  have copies' : copyAll fuel copied heap.minspace
      (Spaces.newspace ⟨heap.spaces.limit, []⟩ heap.minspace) = some result := copies
  have used : result.2.used = collector.new.used := by
    rw [used_footprint, used_footprint, prints]
  refine ⟨copied, ⟨result.2, adjusted result.1 result.2.used, 1⟩, ?_, ?_, prints⟩
  · rw [Arena.collect, copies']
    rfl
  · show adjusted result.1 result.2.used = (GcHeap.finish collector).minspace
    rw [minspace, used, adjusted, GcHeap.finish]
    simp only [Bool.and_eq_true, decide_eq_true_eq]
    rfl

/-! ### A collection -/

/-- There is one space, of a given size, with a given number of bytes in use. -/
def Settled (arena : Arena Data) (size live : Nat) : Prop :=
  ∃ space, arena.spaces.list = [] ++ [space] ∧ space.size = size ∧ SPACEUSED space = live

theorem Settled.fits {arena : Arena Data} {size live : Nat} (settled : Settled arena size live)
    (nbytes : Nat) : arena.spaces.fits nbytes = decide (live + allocated nbytes ≤ size) := by
  obtain ⟨space, list, rfl, rfl⟩ := settled
  exact Spaces.fits_concat list nbytes

theorem Settled.single {arena : Arena Data} {size live : Nat} (settled : Settled arena size live) :
    arena.spaces.list.length = 1 := by
  obtain ⟨space, list, -⟩ := settled
  exact congrArg List.length list

section Collection

variable {copies : Nat → List (Object Data)} {arena after : Arena Data} {fuel count : Nat}

/-- What a pass leaves: one space, if that is large enough, or several, and then `minspace` is four
times what is in use. -/
theorem collect_some (returned : arena.collect copies fuel = some after) :
    Copyable arena.minspace (copies arena.passes) ∧ after.passes = arena.passes + 1 ∧
      (bytes (copies arena.passes) ≤ ALIGN arena.minspace ∧
          Settled after (ALIGN arena.minspace) (bytes (copies arena.passes)) ∧
          after.minspace = adjusted arena.minspace (bytes (copies arena.passes)) ∨
        ALIGN arena.minspace < bytes (copies arena.passes) ∧ 1 < after.spaces.list.length ∧
          after.minspace = 4 * bytes (copies arena.passes)) := by
  obtain ⟨result, copied, same⟩ := Option.bind_eq_some_iff.mp returned
  obtain rfl := Option.some.inj same
  have fresh := Spaces.list_newspace (⟨arena.spaces.limit, []⟩ : Spaces Data) arena.minspace
  have newest := newest_newspace (⟨arena.spaces.limit, []⟩ : Spaces Data) arena.minspace
  obtain ⟨copyable, ⟨front, space, list, size⟩, used, bound, -⟩ := copyAll_spec newest copied
  have live : result.2.used = bytes (copies arena.passes) := by
    rw [used, used_newspace]
    exact Nat.zero_add _
  refine ⟨copyable, rfl, ?_⟩
  rcases Nat.lt_or_ge (ALIGN arena.minspace) (bytes (copies arena.passes)) with much | room
  · have several := copyAll_several fresh rfl (Nat.zero_le _) ((Nat.zero_add _).symm ▸ much) copied
    refine .inr ⟨much, several, ?_⟩
    show adjusted result.1 result.2.used = _
    have aligned := ALIGN_bounds arena.minspace
    rw [live, adjusted, if_pos (by omega), Nat.mul_comm]
  · obtain ⟨same, single⟩ := copyAll_single fresh rfl ((Nat.zero_add _).symm ▸ room) copied
    have alone : front = [] := by
      rw [list, List.length_append, List.length_singleton] at single
      exact List.length_eq_zero_iff.mp (Nat.succ.inj single)
    rw [alone] at list
    refine .inl ⟨room, ⟨space, list, by rw [size, same], ?_⟩, ?_⟩
    · rw [← live, Spaces.used, list]
      exact (Nat.add_zero _).symm
    · show adjusted result.1 result.2.used = _
      rw [live, same]

/-- A pass returns where no request is stuck. -/
theorem collect_returns (copyable : Copyable arena.minspace (copies arena.passes)) (fuel : Nat) :
    ∃ after, arena.collect copies (fuel + 2) = some after := by
  have newest := newest_newspace (⟨arena.spaces.limit, []⟩ : Spaces Data) arena.minspace
  obtain ⟨result, copied⟩ :=
    Option.isSome_iff_exists.mp (copyAll_returns newest copyable fuel)
  exact ⟨_, Option.bind_eq_some_iff.mpr ⟨result, copied, rfl⟩⟩

variable {live : Nat} (total : ∀ k, bytes (copies k) = live)

include total

/-- What a collection leaves: the data in one space, of the size of `minspace` or, if that is not
large enough, of four times the data. -/
theorem gc_some (returned : arena.gc copies fuel count = some after) :
    Copyable arena.minspace (copies arena.passes) ∧
      ∃ size, (size = arena.minspace ∧ live ≤ ALIGN arena.minspace ∨
          size = 4 * live ∧ ALIGN arena.minspace < live) ∧
        Settled after (ALIGN size) live ∧ after.minspace = adjusted size live := by
  cases count with
  | zero => cases returned
  | succ count =>
    obtain ⟨first, collected, next⟩ := Option.bind_eq_some_iff.mp returned
    obtain ⟨copyable, -, one⟩ := collect_some collected
    refine ⟨copyable, ?_⟩
    rw [total] at one
    rcases one with ⟨room, settled, minspace⟩ | ⟨much, several, minspace⟩
    · rw [if_pos settled.single] at next
      obtain rfl := Option.some.inj next
      exact ⟨_, .inl ⟨rfl, room⟩, settled, minspace⟩
    · rw [if_neg (by omega)] at next
      cases count with
      | zero => cases next
      | succ count =>
        obtain ⟨second, collected', next'⟩ := Option.bind_eq_some_iff.mp next
        obtain ⟨-, -, two⟩ := collect_some collected'
        have aligned := ALIGN_bounds (4 * live)
        rw [total, minspace] at two
        rcases two with ⟨-, settled, minspace'⟩ | ⟨more, -⟩
        · rw [if_pos settled.single] at next'
          obtain rfl := Option.some.inj next'
          exact ⟨_, .inr ⟨rfl, much⟩, settled, minspace'⟩
        · omega

/-- A collection returns where its first pass is not stuck. -/
theorem gc_returns (copyable : Copyable arena.minspace (copies arena.passes)) (fuel count : Nat) :
    ∃ after, arena.gc copies (fuel + 2) (count + 2) = some after := by
  obtain ⟨first, collected⟩ := collect_returns copyable fuel
  obtain ⟨-, -, one⟩ := collect_some collected
  rw [Arena.gc, collected, Option.bind_eq_bind, Option.bind_some]
  rw [total] at one
  rcases one with ⟨-, settled, -⟩ | ⟨much, several, minspace⟩
  · exact ⟨first, if_pos settled.single⟩
  · rw [if_neg (by omega)]
    have aligned := ALIGN_bounds (4 * live)
    have copyable' : Copyable first.minspace (copies first.passes) :=
      copyable_of_room (by rw [total, minspace]; omega)
    obtain ⟨second, collected'⟩ := collect_returns copyable' fuel
    obtain ⟨-, -, two⟩ := collect_some collected'
    rw [total, minspace] at two
    rw [Arena.gc, collected', Option.bind_eq_bind, Option.bind_some]
    rcases two with ⟨-, settled, -⟩ | ⟨more, -⟩
    · exact ⟨second, if_pos settled.single⟩
    · omega

end Collection

/-! ### The loop of `gcalloc` -/

/-- The loop returns after some number of rounds. -/
def Returns (copies : Nat → List (Object Data)) (object : Object Data) (gcblocked : Bool)
    (arena : Arena Data) : Prop :=
  ∃ fuel count after, arena.gcalloc copies object gcblocked fuel count = some after

/-- There is room for an object, or there will be: while collections are blocked, where the object
is not stuck; otherwise where the data in use and the object fit in a space of size `minspace`,
where `minspace` is less than twice the data, which makes the collection raise it, or where nothing
is in use and the collection lowers it. -/
def Suffices (copies : Nat → List (Object Data)) (nbytes : Nat) (gcblocked : Bool)
    (arena : Arena Data) : Prop :=
  let minspace := raised arena.minspace nbytes
  let live := bytes (copies arena.passes)
  arena.spaces.fits nbytes = true ∨
    if gcblocked then ¬Stuck arena.minspace nbytes
    else live + allocated nbytes ≤ ALIGN minspace ∨
      minspace < 2 * live ∧ Copyable minspace (copies arena.passes) ∨
      live = 0 ∧ 2 * MIN_minspace < minspace

section Loop

variable (copies : Nat → List (Object Data)) (object : Object Data)

theorem gcalloc_of_fits {arena : Arena Data} (room : arena.spaces.fits object.nbytes = true)
    (gcblocked : Bool) (fuel count : Nat) :
    arena.gcalloc copies object gcblocked fuel (count + 1) =
      some { arena with spaces := arena.spaces.push object } := by
  rw [Arena.gcalloc, if_pos room]

/-- `gcalloc` while collections are blocked. -/
theorem gcalloc_blocked_iff (arena : Arena Data) :
    Returns copies object true arena ↔ Suffices copies object.nbytes true arena := by
  have round : ∀ {arena : Arena Data}, arena.spaces.fits object.nbytes = false → ∀ fuel count,
      arena.gcalloc copies object true fuel (count + 1) =
        Arena.gcalloc copies object true fuel count
          { arena with
            spaces := arena.spaces.newspace (raised arena.minspace object.nbytes)
            minspace := raised arena.minspace object.nbytes } := by
    intro arena full fuel count
    rw [Arena.gcalloc, if_neg (Bool.eq_false_iff.mp full), if_pos rfl]
  constructor
  · rintro ⟨fuel, count, after, returned⟩
    by_contra insufficient
    obtain ⟨full, stuck⟩ := not_or.mp insufficient
    rw [if_pos rfl, not_not] at stuck
    rw [Bool.not_eq_true] at full
    induction count generalizing arena with
    | zero => cases returned
    | succ count ih =>
      rw [round full, Spaces.raised_of_le stuck.1] at returned
      have full' : (arena.spaces.newspace arena.minspace).fits object.nbytes = false := by
        rw [Spaces.fits_newspace]
        exact decide_eq_false (Nat.not_le.mpr stuck.2)
      refine ih { arena with spaces := arena.spaces.newspace arena.minspace } returned
        ?_ full' stuck
      exact not_or.mpr ⟨Bool.not_eq_true _ ▸ full', by rw [if_pos rfl, not_not]; exact stuck⟩
  · rintro (room | free)
    · exact ⟨0, 1, _, gcalloc_of_fits copies object room true 0 0⟩
    · rw [if_pos rfl] at free
      cases room : arena.spaces.fits object.nbytes with
      | true => exact ⟨0, 1, _, gcalloc_of_fits copies object room true 0 0⟩
      | false =>
        refine ⟨0, 2, _, (round room 0 1).trans (gcalloc_of_fits copies object ?_ true 0 0)⟩
        rw [Spaces.fits_newspace]
        exact decide_eq_true ((not_stuck_iff _ _).mp free)

theorem unblocked_round {arena after : Arena Data}
    (full : arena.spaces.fits object.nbytes = false) {fuel : Nat}
    (collected : Arena.gc copies fuel fuel
      { arena with minspace := raised arena.minspace object.nbytes } = some after) (count : Nat) :
    arena.gcalloc copies object false fuel (count + 1) =
      after.gcalloc copies object false fuel count := by
  rw [Arena.gcalloc, if_neg (Bool.eq_false_iff.mp full), if_neg Bool.false_ne_true]
  exact congrArg (Option.bind · _) collected

variable {live : Nat} (total : ∀ k, bytes (copies k) = live)

include total

/-- The loop goes on for ever where the room does not suffice: neither does it after a
collection. -/
theorem unblocked_insufficient {arena after : Arena Data}
    (insufficient : ¬Suffices copies object.nbytes false arena) {fuel count : Nat}
    (collected : Arena.gc copies fuel count
      { arena with minspace := raised arena.minspace object.nbytes } = some after) :
    ¬Suffices copies object.nbytes false after := by
  obtain ⟨-, short⟩ := not_or.mp insufficient
  rw [if_neg Bool.false_ne_true, total, not_or, not_or, Nat.not_le] at short
  obtain ⟨little, raises, lowers⟩ := short
  obtain ⟨copyable, size, sizes, settled, minspace⟩ := gc_some total collected
  have twice : 2 * live ≤ raised arena.minspace object.nbytes :=
    Nat.not_lt.mp fun less => raises ⟨less, copyable⟩
  have aligned := ALIGN_bounds (raised arena.minspace object.nbytes)
  obtain rfl : size = raised arena.minspace object.nbytes := by
    rcases sizes with ⟨same, -⟩ | ⟨-, much⟩
    · exact same
    · have much' : ALIGN (raised arena.minspace object.nbytes) < live := much
      omega
  obtain ⟨little', twice', idle⟩ := raised_adjusted (le_raised _ _) twice little
    (total 0 ▸ bytes_mod (copies 0)) fun none => Nat.not_lt.mp fun more => lowers ⟨none, more⟩
  rw [Suffices, settled.fits, minspace, if_neg Bool.false_ne_true, total, not_or, not_or, not_or]
  refine ⟨fun room => ?_, by omega, fun less => ?_, fun lower => ?_⟩
  · have room' := of_decide_eq_true room
    omega
  · have less' := less.1
    omega
  · have most := idle lower.1
    have more := lower.2
    omega

/-- A collection whose first pass is not stuck goes before the next round. -/
theorem unblocked_next {arena : Arena Data} (full : arena.spaces.fits object.nbytes = false)
    (copyable : Copyable (raised arena.minspace object.nbytes) (copies arena.passes)) :
    ∃ size after, (size = raised arena.minspace object.nbytes ∧
          live ≤ ALIGN (raised arena.minspace object.nbytes) ∨
        size = 4 * live ∧ ALIGN (raised arena.minspace object.nbytes) < live) ∧
      Settled after (ALIGN size) live ∧ after.minspace = adjusted size live ∧
      ∀ count, arena.gcalloc copies object false 2 (count + 1) =
        after.gcalloc copies object false 2 count := by
  let raise : Arena Data := { arena with minspace := raised arena.minspace object.nbytes }
  obtain ⟨after, collected⟩ :=
    gc_returns total (show Copyable raise.minspace (copies raise.passes) from copyable) 0 0
  obtain ⟨-, size, sizes, settled, minspace⟩ := gc_some total collected
  exact ⟨size, after, sizes, settled, minspace, unblocked_round copies object full collected⟩

/-- The data and the object fit in a space of size `minspace`. -/
theorem unblocked_of_room {arena : Arena Data}
    (room : live + allocated object.nbytes ≤ ALIGN (raised arena.minspace object.nbytes)) :
    ∃ count after, arena.gcalloc copies object false 2 count = some after := by
  cases full : arena.spaces.fits object.nbytes with
  | true => exact ⟨1, _, gcalloc_of_fits copies object full false 2 0⟩
  | false =>
    have copyable : Copyable (raised arena.minspace object.nbytes) (copies arena.passes) :=
      copyable_of_room (by rw [total]; omega)
    obtain ⟨size, after, sizes, settled, -, round⟩ :=
      unblocked_next copies object total full copyable
    have fits : after.spaces.fits object.nbytes = true := by
      rw [settled.fits]
      rcases sizes with ⟨rfl, -⟩ | ⟨-, much⟩
      · exact decide_eq_true room
      · omega
    exact ⟨2, _, (round 1).trans (gcalloc_of_fits copies object fits false 2 0)⟩

/-- `gcalloc` while they are not. -/
theorem gcalloc_unblocked_iff (arena : Arena Data) :
    Returns copies object false arena ↔ Suffices copies object.nbytes false arena := by
  constructor
  · rintro ⟨fuel, count, after, returned⟩
    by_contra insufficient
    induction count generalizing arena with
    | zero => cases returned
    | succ count ih =>
      have full : arena.spaces.fits object.nbytes = false :=
        Bool.eq_false_iff.mpr (not_or.mp insufficient).1
      cases collected : Arena.gc copies fuel fuel
          { arena with minspace := raised arena.minspace object.nbytes } with
      | none =>
        rw [Arena.gcalloc, if_neg (Bool.eq_false_iff.mp full),
            if_neg Bool.false_ne_true] at returned
        obtain ⟨next, gone, -⟩ := Option.bind_eq_some_iff.mp returned
        exact nomatch collected.symm.trans gone
      | some next =>
        rw [unblocked_round copies object full collected] at returned
        exact ih next returned (unblocked_insufficient copies object total insufficient collected)
  · intro sufficient
    have enough : ∃ count after, arena.gcalloc copies object false 2 count = some after := by
      cases full : arena.spaces.fits object.nbytes with
      | true => exact ⟨1, _, gcalloc_of_fits copies object full false 2 0⟩
      | false =>
        have later : ∀ {after : Arena Data},
            live + allocated object.nbytes ≤ ALIGN (raised after.minspace object.nbytes) →
            (∀ count, arena.gcalloc copies object false 2 (count + 1) =
              after.gcalloc copies object false 2 count) →
            ∃ count final, arena.gcalloc copies object false 2 count = some final := by
          intro after room round
          obtain ⟨count, final, returned⟩ := unblocked_of_room copies object total room
          exact ⟨count + 1, final, (round count).trans returned⟩
        have total' := allocated_bounds object.nbytes
        have large := le_raised arena.minspace object.nbytes
        have words : live % 8 = 0 := total 0 ▸ bytes_mod (copies 0)
        have aligned := ALIGN_bounds (raised arena.minspace object.nbytes)
        rcases sufficient with room | sufficient
        · exact absurd (room.symm.trans full) nofun
        rw [if_neg Bool.false_ne_true, total] at sufficient
        rcases sufficient with room | ⟨less, copyable⟩ | ⟨none, more⟩
        · exact unblocked_of_room copies object total room
        · obtain ⟨size, after, sizes, -, minspace, round⟩ :=
            unblocked_next copies object total full copyable
          have grown : after.minspace = 4 * live := by
            rw [minspace, adjusted]
            rcases sizes with ⟨rfl, -⟩ | ⟨rfl, -⟩
            · rw [if_pos (by omega), Nat.mul_comm]
            · rw [if_neg (by omega), if_neg (by omega)]
          refine later ?_ round
          have aligned' := ALIGN_bounds (4 * live)
          rw [grown, Spaces.raised_of_le (by omega)]
          omega
        · by_cases room :
              live + allocated object.nbytes ≤ ALIGN (raised arena.minspace object.nbytes)
          · exact unblocked_of_room copies object total room
          · obtain ⟨size, after, sizes, -, minspace, round⟩ :=
              unblocked_next copies object total full (copyable_of_room (by rw [total]; omega))
            obtain rfl : size = raised arena.minspace object.nbytes := by omega
            rw [MIN_minspace] at more
            have lowered : after.minspace = raised arena.minspace object.nbytes / 2 := by
              rw [minspace, adjusted, if_neg (by omega), if_pos (by rw [MIN_minspace]; omega)]
            refine later ?_ round
            have again : raised after.minspace object.nbytes = object.nbytes + wordSize :=
              if_pos (by omega)
            rw [again, none, Nat.zero_add]
            exact le_rfl
    obtain ⟨count, after, returned⟩ := enough
    exact ⟨2, count, after, returned⟩

end Loop

/-- The loop of `gcalloc` returns exactly where there is room for the object or there will be. -/
theorem gcalloc_returns_iff (copies : Nat → List (Object Data))
    (same : ∀ k, (copies k).Perm (copies 0)) (object : Object Data) (gcblocked : Bool)
    (arena : Arena Data) :
    Returns copies object gcblocked arena ↔ Suffices copies object.nbytes gcblocked arena := by
  cases gcblocked with
  | true => exact gcalloc_blocked_iff copies object arena
  | false =>
    have total : ∀ k, bytes (copies k) = bytes (copies 0) := fun k => ((same k).map _).sum_eq
    exact gcalloc_unblocked_iff copies object total arena

/-- The state `initgc` leaves. -/
def initgc : Arena Data :=
  ⟨Spaces.newspace ⟨0, []⟩ MIN_minspace, MIN_minspace, 0⟩

/-- A string of 9999 characters right after `initgc`: it is as large as `minspace`, and does not fit
in a space of that size together with its tag. -/
theorem gcalloc_initgc_string :
    ¬Returns (fun _ => []) (⟨none, 10000, (), []⟩ : Object Unit) true initgc := by
  rw [gcalloc_blocked_iff, Suffices, if_pos rfl]
  decide

/-- Right after `initgc` a small object fits. -/
theorem gcalloc_returns_iff_small :
    Returns (fun _ => []) (⟨none, 24, (), []⟩ : Object Unit) false initgc ↔
      Suffices (fun _ => []) 24 false (initgc : Arena Unit) :=
  gcalloc_returns_iff (fun _ => []) (fun _ => .refl _) ⟨none, 24, (), []⟩ false initgc

end Desh
