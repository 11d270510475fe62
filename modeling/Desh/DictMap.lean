/-
This file proves that the dictionaries of `dict.c` are finite maps. The
invariant is that no entry never used lies between the place a name hashes to
and the place it is at, and that `remain` counts the entries that may still be
used; as one of them is always left, every loop ends.
-/

import Desh.Dict

namespace Desh

namespace Dict

variable {Value : Type}

/-! ### Reading and writing entries -/

theorem size_pos (dict : Dict Value) : 0 < dict.size :=
  Nat.pos_of_isPowerOfTwo dict.isPowerOfTwo_size

theorem and_mask (dict : Dict Value) (n : Nat) : n &&& (dict.size - 1) = n % dict.size := by
  obtain ⟨bits, power⟩ := dict.isPowerOfTwo_size
  rw [power, Nat.and_two_pow_sub_one_eq_mod]

@[simp] theorem size_store (dict : Dict Value) (n : Nat) (assoc : Assoc Value) :
    (dict.store n assoc).size = dict.size := rfl

@[simp] theorem remain_store (dict : Dict Value) (n : Nat) (assoc : Assoc Value) :
    (dict.store n assoc).remain = dict.remain := rfl

theorem mod_lt_length (dict : Dict Value) (n : Nat) : n % dict.size < dict.table.length := by
  rw [dict.length_table]
  exact Nat.mod_lt n dict.size_pos

theorem slot_eq (dict : Dict Value) (n : Nat) :
    dict.slot n = getElem dict.table (n % dict.size) (dict.mod_lt_length n) := by
  rw [slot, and_mask, List.getD_eq_getElem?_getD,
    List.getElem?_eq_getElem (dict.mod_lt_length n), Option.getD_some]

/-- The table is a ring. -/
theorem slot_congr (dict : Dict Value) {n m : Nat} (same : n % dict.size = m % dict.size) :
    dict.slot n = dict.slot m := by
  simp only [slot_eq, same]

theorem periodic_slot (dict : Dict Value) : Function.Periodic dict.slot dict.size :=
  fun n => dict.slot_congr (Nat.add_mod_right n dict.size)

theorem slot_store (dict : Dict Value) (n m : Nat) (assoc : Assoc Value) :
    (dict.store n assoc).slot m =
      if m % dict.size = n % dict.size then assoc else dict.slot m := by
  simp only [slot_eq, store, and_mask]
  by_cases same : m % dict.size = n % dict.size
  · simp [same]
  · rw [if_neg same, List.getElem_set_ne (Ne.symm same)]

/-- The number of entries that are not `NULL`. -/
def used (dict : Dict Value) : Nat := dict.table.countP fun assoc => !assoc.isNull

theorem used_store (dict : Dict Value) (n : Nat) (assoc : Assoc Value) :
    (dict.store n assoc).used + (if (dict.slot n).isNull then 0 else 1) =
      dict.used + if assoc.isNull then 0 else 1 := by
  have inside := dict.mod_lt_length n
  have counted : (dict.store n assoc).used =
      dict.used - (if !(dict.slot n).isNull then 1 else 0) + if !assoc.isNull then 1 else 0 := by
    rw [slot_eq]
    simp only [used, store, and_mask]
    exact List.countP_set inside
  have positive : (dict.slot n).isNull = false → 0 < dict.used := by
    intro inUse
    refine List.countP_pos_iff.mpr ⟨dict.slot n, ?_, by simp [inUse]⟩
    rw [slot_eq]
    exact List.getElem_mem inside
  cases here : (dict.slot n).isNull <;> cases there : assoc.isNull <;>
    simp only [here, there, Bool.not_true, Bool.not_false, Bool.false_eq_true, if_true, if_false,
      forall_const] at counted positive ⊢ <;> omega

theorem isNull_iff (assoc : Assoc Value) : assoc.isNull = true ↔ assoc = .null := by
  cases assoc <;> simp [Assoc.isNull]

theorem isDead_iff (assoc : Assoc Value) : assoc.isDead = true ↔ assoc = .dead := by
  cases assoc <;> simp [Assoc.isDead]

theorem entry_eq_some_iff (assoc : Assoc Value) (name : Text) (value : Value) :
    assoc.entry = some (name, value) ↔ assoc = .live name value := by
  cases assoc <;> simp [Assoc.entry]

/-- While an entry is `NULL` the loops over the table end. -/
theorem probe_spec (dict : Dict Value) (stop : Assoc Value → Bool) {m : Nat}
    (stops : stop (dict.slot m) = true) (n : Nat) :
    ∃ k, dict.probe stop n = some (n + k) ∧ stop (dict.slot (n + k)) = true ∧
      ∀ j < k, stop (dict.slot (n + j)) = false := by
  have periodic : Function.Periodic (fun n => stop (dict.slot n)) dict.size :=
    fun n => congrArg stop (dict.periodic_slot n)
  obtain ⟨found, result⟩ := exists_scan periodic dict.size_pos stops n
  obtain ⟨above, here, before⟩ := scan_spec result
  obtain ⟨k, rfl⟩ := Nat.exists_eq_add_of_le above
  exact ⟨k, result, here, fun j less => before (n + j) (Nat.le_add_right n j) (by omega)⟩

/-! ### The invariant -/

variable {strhash : Text → Nat}

/-- The dictionary holds a finite map. -/
structure Holds (strhash : Text → Nat) (dict : Dict Value) (map : Text → Option Value) : Prop where
  reachable : ∀ n name value, dict.slot n = .live name value →
    ∃ k, (strhash name + k) % dict.size = n % dict.size ∧
      ∀ j < k, dict.slot (strhash name + j) ≠ .null
  unique : ∀ n m name value value', dict.slot n = .live name value →
    dict.slot m = .live name value' → n % dict.size = m % dict.size
  map_iff : ∀ name value, map name = some value ↔ ∃ n, dict.slot n = .live name value
  remain_eq : dict.remain = REMAIN dict.size - dict.used
  remain_pos : 1 ≤ dict.remain

variable {dict : Dict Value} {map : Text → Option Value}

/-- As long as `remain` is positive some entry is `NULL`. -/
theorem Holds.exists_null (holds : dict.Holds strhash map) : ∃ n, dict.slot n = .null := by
  by_contra none
  have all : dict.used = dict.size := by
    rw [used, ← dict.length_table, List.countP_eq_length]
    intro assoc member
    obtain ⟨n, inside, rfl⟩ := List.getElem_of_mem member
    rw [dict.length_table] at inside
    have here : dict.slot n ≠ .null := fun null => none ⟨n, null⟩
    rw [slot_eq] at here
    simp only [Nat.mod_eq_of_lt inside] at here
    rw [Bool.not_eq_true', Bool.eq_false_iff, ne_eq, isNull_iff]
    exact here
  have equation := holds.remain_eq
  have positive := holds.remain_pos
  have small : REMAIN dict.size ≤ dict.size := by
    unfold REMAIN
    omega
  omega

/-- `get` finds the entry of a name in the map, and nothing for another one. -/
theorem Holds.get_spec (holds : dict.Holds strhash map) (name : Text) :
    ∃ found, dict.get strhash name = some found ∧
      (∀ value, map name = some value → ∃ n, found = some n ∧ dict.slot n = .live name value) ∧
      (map name = none → found = none) := by
  obtain ⟨null, isNull⟩ := holds.exists_null
  obtain ⟨i, result, here, before⟩ := dict.probe_spec
    (endsSearch fun other => name == other) (by rw [isNull]; rfl) (strhash name)
  refine ⟨_, by rw [get, result, Option.map_some], ?_, ?_⟩
  · intro value inMap
    obtain ⟨m, live⟩ := (holds.map_iff name value).mp inMap
    obtain ⟨k, place, path⟩ := holds.reachable m name value live
    have atEnd : dict.slot (strhash name + k) = .live name value := by
      rw [dict.slot_congr place, live]
    -- the search ends at the entry of the name at the latest, and at no `NULL` before it
    have notBeyond : i ≤ k := by
      by_contra beyond
      have passed := before k (Nat.not_le.mp beyond)
      rw [atEnd, endsSearch, beq_self_eq_true] at passed
      cases passed
    have notNull : dict.slot (strhash name + i) ≠ .null := by
      rcases Nat.eq_or_lt_of_le notBeyond with rfl | earlier
      · rw [atEnd]
        nofun
      · exact path i earlier
    cases found : dict.slot (strhash name + i) with
    | null => exact absurd found notNull
    | dead => rw [found] at here; cases here
    | live other value' =>
      rw [found, endsSearch, beq_iff_eq] at here
      subst here
      have same := (holds.map_iff name value').mpr ⟨_, found⟩
      rw [inMap, Option.some.injEq] at same
      subst same
      exact ⟨_, by simp [Assoc.isNull], found⟩
  · intro absent
    cases found : dict.slot (strhash name + i) with
    | null => simp [Assoc.isNull]
    | dead => rw [found] at here; cases here
    | live other value' =>
      rw [found, endsSearch, beq_iff_eq] at here
      subst here
      have inMap := (holds.map_iff name value').mpr ⟨_, found⟩
      rw [absent] at inMap
      cases inMap

/-! ### Changing one entry -/

@[simp] theorem size_setRemain (dict : Dict Value) (remain : Int) :
    (dict.setRemain remain).size = dict.size := rfl

@[simp] theorem remain_setRemain (dict : Dict Value) (remain : Int) :
    (dict.setRemain remain).remain = remain := rfl

@[simp] theorem slot_setRemain (dict : Dict Value) (remain : Int) (n : Nat) :
    (dict.setRemain remain).slot n = dict.slot n := rfl

@[simp] theorem used_setRemain (dict : Dict Value) (remain : Int) :
    (dict.setRemain remain).used = dict.used := rfl

/-- Giving an entry a name keeps the invariant when the name can be reached there and is nowhere
else. -/
theorem Holds.store_live (holds : dict.Holds strhash map) {n : Nat} {name : Text}
    (path : ∃ k, (strhash name + k) % dict.size = n % dict.size ∧
      ∀ j < k, dict.slot (strhash name + j) ≠ .null)
    (alone : ∀ m value, dict.slot m = .live name value → m % dict.size = n % dict.size)
    (free : ∀ other value, dict.slot n = .live other value → other = name) (value : Value)
    {remain : Int} (remain_eq : remain = dict.remain - if (dict.slot n).isNull then 1 else 0)
    (remain_pos : 1 ≤ remain) :
    ((dict.setRemain remain).store n (.live name value)).Holds strhash
      (Function.update map name (some value)) := by
  have slots : ∀ m, ((dict.setRemain remain).store n (.live name value)).slot m =
      if m % dict.size = n % dict.size then .live name value else dict.slot m :=
    fun m => slot_store _ n m _
  have notNull : ∀ m, dict.slot m ≠ .null →
      ((dict.setRemain remain).store n (.live name value)).slot m ≠ .null := by
    intro m before
    rw [slots]
    split_ifs
    · nofun
    · exact before
  refine ⟨?_, ?_, ?_, ?_, remain_pos⟩
  · intro m other value' live
    rw [slots] at live
    split_ifs at live with same
    · obtain ⟨rfl, rfl⟩ := Assoc.live.inj live
      obtain ⟨k, place, before⟩ := path
      exact ⟨k, place.trans same.symm, fun j less => notNull _ (before j less)⟩
    · obtain ⟨k, place, before⟩ := holds.reachable m other value' live
      exact ⟨k, place, fun j less => notNull _ (before j less)⟩
  · intro m m' other value' value'' live live'
    rw [slots] at live live'
    show m % dict.size = m' % dict.size
    split_ifs at live live' with same same'
    · exact same.trans same'.symm
    · obtain ⟨rfl, -⟩ := Assoc.live.inj live
      exact absurd (alone m' value'' live') same'
    · obtain ⟨rfl, -⟩ := Assoc.live.inj live'
      exact absurd (alone m value' live) same
    · exact holds.unique m m' other value' value'' live live'
  · intro other value'
    by_cases isName : other = name
    · subst isName
      rw [Function.update_self, Option.some.injEq]
      constructor
      · rintro rfl
        exact ⟨n, by rw [slots, if_pos rfl]⟩
      · rintro ⟨m, live⟩
        rw [slots] at live
        split_ifs at live with same
        · exact (Assoc.live.inj live).2
        · exact absurd (alone m value' live) same
    · rw [Function.update_of_ne isName, holds.map_iff]
      constructor
      · rintro ⟨m, live⟩
        have elsewhere : m % dict.size ≠ n % dict.size := by
          intro same
          exact isName (free other value' (by rw [← dict.slot_congr same, live]))
        exact ⟨m, by rw [slots, if_neg elsewhere, live]⟩
      · rintro ⟨m, live⟩
        rw [slots] at live
        split_ifs at live with same
        · exact absurd (Assoc.live.inj live).1.symm isName
        · exact ⟨m, live⟩
  · have counted := used_store (dict.setRemain remain) n (.live name value)
    have before := holds.remain_eq
    rw [slot_setRemain, used_setRemain] at counted
    rw [size_store, remain_store, size_setRemain, remain_setRemain]
    have inUse : (Assoc.live name value).isNull = false := rfl
    cases here : (dict.slot n).isNull <;>
      simp only [here, inUse, Bool.false_eq_true, if_true, if_false] at counted remain_eq <;> omega

/-- Marking the entry of a name dead takes the name out of the map. -/
theorem Holds.store_dead (holds : dict.Holds strhash map) {n : Nat} {name : Text} {value : Value}
    (live : dict.slot n = .live name value) :
    (dict.store n .dead).Holds strhash (Function.update map name none) := by
  have slots : ∀ m, (dict.store n .dead).slot m =
      if m % dict.size = n % dict.size then .dead else dict.slot m := fun m => slot_store dict n m _
  refine ⟨?_, ?_, ?_, ?_, holds.remain_pos⟩
  · intro m other value' live'
    rw [slots] at live'
    split_ifs at live' with same
    obtain ⟨k, place, before⟩ := holds.reachable m other value' live'
    refine ⟨k, place, fun j less => ?_⟩
    rw [slots]
    split_ifs
    · nofun
    · exact before j less
  · intro m m' other value' value'' live' live''
    rw [slots] at live' live''
    split_ifs at live' live''
    exact holds.unique m m' other value' value'' live' live''
  · intro other value'
    have elsewhere : (∃ m, (dict.store n .dead).slot m = .live other value') ↔
        other ≠ name ∧ ∃ m, dict.slot m = .live other value' := by
      constructor
      · rintro ⟨m, live'⟩
        rw [slots] at live'
        split_ifs at live' with same
        refine ⟨?_, m, live'⟩
        rintro rfl
        exact same (holds.unique m n other value' value live' live)
      · rintro ⟨different, m, live'⟩
        refine ⟨m, ?_⟩
        rw [slots, if_neg, live']
        intro same
        rw [← dict.slot_congr same, live'] at live
        exact different (Assoc.live.inj live).1
    rw [elsewhere, ← holds.map_iff]
    by_cases isName : other = name
    · simp [isName]
    · simp [isName]
  · have counted := used_store dict n .dead
    have before := holds.remain_eq
    rw [live] at counted
    rw [size_store, remain_store]
    simp [Assoc.isNull] at counted
    omega

/-- A mark in front of an entry never used lies on no path, so it may be cleared. -/
theorem Holds.store_null (holds : dict.Holds strhash map) {n : Nat} (dead : dict.slot n = .dead)
    (null : dict.slot (n + 1) = .null) :
    ((dict.setRemain (dict.remain + 1)).store n .null).Holds strhash map := by
  have slots : ∀ m, ((dict.setRemain (dict.remain + 1)).store n .null).slot m =
      if m % dict.size = n % dict.size then .null else dict.slot m := fun m => slot_store _ n m _
  have lives : ∀ m other value,
      ((dict.setRemain (dict.remain + 1)).store n .null).slot m =
        .live other value ↔ dict.slot m = .live other value := by
    intro m other value
    rw [slots]
    split_ifs with same
    · rw [dict.slot_congr same, dead]
      simp
    · rfl
  refine ⟨?_, ?_, ?_, ?_, ?_⟩
  · intro m other value live
    rw [lives] at live
    obtain ⟨k, place, before⟩ := holds.reachable m other value live
    refine ⟨k, place, fun j less => ?_⟩
    rw [slots]
    split_ifs with same
    · -- the path would go on to the entry after the mark
      exfalso
      have next : dict.slot (strhash other + (j + 1)) = .null := by
        rw [← null]
        exact dict.slot_congr (Nat.ModEq.add_right 1 same)
      rcases Nat.eq_or_lt_of_le (Nat.succ_le_of_lt less) with last | further
      · rw [Nat.succ_eq_add_one] at last
        rw [last, dict.slot_congr place, live] at next
        cases next
      · exact before (j + 1) further next
    · exact before j less
  · intro m m' other value value' live live'
    rw [lives] at live live'
    exact holds.unique m m' other value value' live live'
  · intro other value
    simp only [lives]
    exact holds.map_iff other value
  · have counted := used_store (dict.setRemain (dict.remain + 1)) n .null
    have before := holds.remain_eq
    rw [slot_setRemain, used_setRemain, dead] at counted
    rw [size_store, remain_store, size_setRemain, remain_setRemain]
    simp [Assoc.isNull] at counted
    omega
  · have before := holds.remain_pos
    rw [remain_store, remain_setRemain]
    omega

/-! ### Insertion and removal -/

theorem Holds.insert_spec (holds : dict.Holds strhash map) {name : Text} (absent : map name = none)
    (room : 2 ≤ dict.remain) (value : Value) :
    ∃ result, dict.insert strhash name value = some result ∧
      result.Holds strhash (Function.update map name (some value)) ∧
      result.size = dict.size ∧ result.used ≤ dict.used + 1 := by
  obtain ⟨null, isNull⟩ := holds.exists_null
  obtain ⟨k, result, here, before⟩ := dict.probe_spec
    (fun assoc => assoc.isDead || assoc.isNull) (by rw [isNull]; rfl) (strhash name)
  have nowhere : ∀ m value', dict.slot m ≠ .live name value' := by
    intro m value' live
    have inMap := (holds.map_iff name value').mpr ⟨m, live⟩
    rw [absent] at inMap
    cases inMap
  have free : ∀ other value', dict.slot (strhash name + k) ≠ .live other value' := by
    intro other value' live
    rw [live] at here
    cases here
  have path : ∀ j < k, dict.slot (strhash name + j) ≠ .null := by
    intro j less null
    have passed := before j less
    rw [null] at passed
    cases passed
  refine ⟨(dict.setRemain (if (dict.slot (strhash name + k)).isNull then dict.remain - 1
    else dict.remain)).store (strhash name + k) (.live name value),
    by rw [insert, result, Option.map_some], ?_, rfl, ?_⟩
  · refine holds.store_live ⟨k, rfl, path⟩ (fun m value' live => absurd live (nowhere m value'))
      (fun other value' live => absurd live (free other value')) value ?_ ?_
    · split_ifs <;> simp
    · split_ifs <;> omega
  · have counted := used_store dict (strhash name + k) (.live name value)
    exact Nat.le_trans (Nat.le_add_right _ _) (Nat.le_of_eq counted)

/-- Going down from an entry never used, the last loop of `rm` clears the marks it meets. -/
theorem Holds.clear_spec (holds : dict.Holds strhash map) {fuel n : Nat}
    (null : dict.slot (n + 1) = .null) (enough : dict.used < fuel) :
    ∃ result, clear fuel dict n = some result ∧ result.Holds strhash map := by
  induction fuel generalizing dict n with
  | zero => exact absurd enough (Nat.not_lt_zero _)
  | succ fuel inductionHypothesis =>
    rw [clear]
    by_cases dead : (dict.slot n).isDead = true
    · rw [if_pos dead]
      rw [isDead_iff] at dead
      have counted := used_store (dict.setRemain (dict.remain + 1)) n .null
      rw [slot_setRemain, used_setRemain, dead] at counted
      simp only [Assoc.isNull, Bool.false_eq_true, if_false, if_true] at counted
      refine inductionHypothesis (holds.store_null dead null) ?_ (by omega)
      -- the entry after the next one down is the one just cleared
      have around : n + (dict.size - 1) + 1 = n + dict.size := by
        have positive := dict.size_pos
        omega
      rw [slot_store, size_setRemain, around, Nat.add_mod_right, if_pos rfl]
    · rw [if_neg dead]
      exact ⟨dict, rfl, holds⟩

theorem Holds.used_lt_size (holds : dict.Holds strhash map) : dict.used < dict.size := by
  have equation := holds.remain_eq
  have positive := holds.remain_pos
  have small : REMAIN dict.size ≤ dict.size := by
    unfold REMAIN
    omega
  omega

theorem Holds.rm_spec (holds : dict.Holds strhash map) {n : Nat} {name : Text} {value : Value}
    (live : dict.slot n = .live name value) :
    ∃ result, dict.rm n = some result ∧
      result.Holds strhash (Function.update map name none) := by
  have marked := holds.store_dead live
  obtain ⟨null, isNull⟩ := marked.exists_null
  obtain ⟨k, result, -, -⟩ := (dict.store n .dead).probe_spec
    (fun assoc => !assoc.isDead) (by rw [isNull]; rfl) (n + 1)
  rw [rm, result, Option.bind_some]
  by_cases last : ((dict.store n .dead).slot (n + 1 + k)).isNull = true
  · rw [if_pos last]
    rw [isNull_iff] at last
    refine marked.clear_spec ?_ marked.used_lt_size
    have around : n + 1 + k + ((dict.store n .dead).size - 1) + 1 =
        n + 1 + k + (dict.store n .dead).size := by
      have positive := (dict.store n .dead).size_pos
      omega
    rw [around, (dict.store n .dead).periodic_slot, last]
  · rw [if_neg last]
    exact ⟨_, rfl, marked⟩

/-! ### Visiting the entries -/

theorem mem_dictforall (dict : Dict Value) (name : Text) (value : Value) :
    (name, value) ∈ dict.dictforall ↔ ∃ n, dict.slot n = .live name value := by
  simp only [dictforall, List.mem_filterMap, entry_eq_some_iff]
  constructor
  · rintro ⟨assoc, member, rfl⟩
    obtain ⟨n, inside, isLive⟩ := List.getElem_of_mem member
    rw [dict.length_table] at inside
    exact ⟨n, by simp only [slot_eq, Nat.mod_eq_of_lt inside, isLive]⟩
  · rintro ⟨n, live⟩
    refine ⟨dict.slot n, ?_, live⟩
    rw [slot_eq]
    exact List.getElem_mem _

theorem Holds.mem_dictforall_iff (holds : dict.Holds strhash map) (name : Text) (value : Value) :
    (name, value) ∈ dict.dictforall ↔ map name = some value := by
  rw [mem_dictforall, holds.map_iff]

/-- Every name is visited once. -/
theorem Holds.nodup_dictforall (holds : dict.Holds strhash map) :
    (dict.dictforall.map Prod.fst).Nodup := by
  rw [List.Nodup, List.pairwise_map, dictforall, List.pairwise_filterMap, List.pairwise_iff_getElem]
  rintro i j insideI insideJ less ⟨name, value⟩ live ⟨name', value'⟩ live' same
  obtain rfl : name = name' := same
  rw [entry_eq_some_iff] at live live'
  rw [dict.length_table] at insideI insideJ
  have positions := holds.unique i j name value value'
    (by simp only [slot_eq, Nat.mod_eq_of_lt insideI, live])
    (by simp only [slot_eq, Nat.mod_eq_of_lt insideJ, live'])
  rw [Nat.mod_eq_of_lt insideI, Nat.mod_eq_of_lt insideJ] at positions
  exact absurd positions (Nat.ne_of_lt less)

theorem length_dictforall_le_used (dict : Dict Value) : dict.dictforall.length ≤ dict.used := by
  rw [dictforall, List.length_filterMap_eq_countP, used]
  refine List.countP_mono_left fun assoc _ isSome => ?_
  cases assoc with
  | null => cases isSome
  | dead => rfl
  | live name value => rfl

/-! ### Growth -/

/-- The map that a list of names and values defines, later ones taking the place of earlier. -/
def putAll (map : Text → Option Value) (entries : List (Text × Option Value)) :
    Text → Option Value :=
  entries.foldl (fun map entry => Function.update map entry.1 entry.2) map

theorem putAll_eq_some_iff {entries : List (Text × Value)}
    (nodup : (entries.map Prod.fst).Nodup) (name : Text) (value : Value) :
    putAll (fun _ => none) (entries.map fun entry => (entry.1, some entry.2)) name = some value ↔
      (name, value) ∈ entries := by
  induction entries using List.reverseRecOn with
  | nil => simp [putAll]
  | append_singleton entries entry inductionHypothesis =>
    rw [List.map_append, List.map_singleton, List.nodup_append] at nodup
    obtain ⟨nodup, -, disjoint⟩ := nodup
    rw [putAll, List.map_append, List.foldl_append, List.map_singleton, List.foldl_cons,
      List.foldl_nil, List.mem_append, List.mem_singleton]
    by_cases same : name = entry.1
    · have absent : (name, value) ∉ entries := fun member =>
        disjoint name (List.mem_map_of_mem member) entry.1 (List.mem_singleton_self _) same
      subst same
      rw [Function.update_self, or_iff_right absent, Option.some.injEq, Prod.ext_iff]
      simp [eq_comm]
    · rw [Function.update_of_ne same]
      rw [show (name, value) = entry ↔ False from
        iff_false_intro fun equal => same (congrArg Prod.fst equal), or_false]
      exact inductionHypothesis nodup

theorem mkdict0_holds (strhash : Text → Nat) (size : Nat) (power : size.isPowerOfTwo)
    (room : 1 ≤ REMAIN size) :
    (mkdict0 size power : Dict Value).Holds strhash fun _ => none := by
  have slots : ∀ n, (mkdict0 size power : Dict Value).slot n = .null := by
    intro n
    rw [slot_eq]
    exact List.getElem_replicate _
  have unused : (mkdict0 size power : Dict Value).used = 0 := by
    rw [used, List.countP_eq_zero]
    intro assoc member
    rw [List.eq_of_mem_replicate member]
    exact Bool.noConfusion
  refine ⟨?_, ?_, ?_, ?_, ?_⟩
  · intro n name value live
    rw [slots] at live
    cases live
  · intro n m name value value' live
    rw [slots] at live
    cases live
  · intro name value
    simp [slots]
  · rw [unused]
    simp [mkdict0]
  · exact Int.ofNat_le.mpr room

theorem Holds.get_of_absent (holds : dict.Holds strhash map) {name : Text}
    (absent : map name = none) : dict.get strhash name = some none := by
  obtain ⟨found, result, -, none⟩ := holds.get_spec name
  rw [result, none absent]

/-- While there is room `put` does not grow the table. -/
theorem Holds.putMoved_of_room (holds : dict.Holds strhash map) {name : Text}
    (absent : map name = none) (room : 2 ≤ dict.remain) (moved : Option (Dict Value))
    (value : Value) :
    ∃ result, dict.putMoved strhash moved name value = some (result, result) ∧
      result.Holds strhash (Function.update map name (some value)) ∧
      result.size = dict.size ∧ result.used ≤ dict.used + 1 := by
  obtain ⟨result, inserted, kept⟩ := holds.insert_spec absent room value
  refine ⟨result, ?_, kept⟩
  have small : ¬ dict.remain ≤ 1 := by omega
  rw [putMoved, holds.get_of_absent absent, Option.bind_some, if_neg (by decide), if_neg small,
    inserted, Option.map_some]

/-- Putting a whole list of new names into a table that has room for them grows nothing. -/
theorem Holds.putAll_spec (holds : dict.Holds strhash map) (entries : List (Text × Value))
    (nodup : (entries.map Prod.fst).Nodup) (absent : ∀ name ∈ entries.map Prod.fst, map name = none)
    (room : dict.used + entries.length + 2 ≤ REMAIN dict.size) :
    ∃ result, entries.foldlM
        (fun dnew entry => (put strhash 0 dnew entry.1 entry.2).map Prod.fst) dict = some result ∧
      result.Holds strhash (putAll map (entries.map fun entry => (entry.1, some entry.2))) ∧
      2 ≤ result.remain := by
  induction entries generalizing dict map with
  | nil =>
    have equation := holds.remain_eq
    exact ⟨dict, rfl, holds, by simp at room; omega⟩
  | cons entry entries inductionHypothesis =>
    rw [List.map_cons, List.nodup_cons] at nodup
    rw [List.map_cons, List.forall_mem_cons] at absent
    rw [List.length_cons] at room
    have equation := holds.remain_eq
    obtain ⟨next, run, nextHolds, size, used⟩ :=
      holds.putMoved_of_room absent.1 (by omega) none entry.2
    have stillAbsent : ∀ name ∈ entries.map Prod.fst,
        Function.update map entry.1 (some entry.2) name = none := by
      intro name member
      rw [Function.update_of_ne]
      · exact absent.2 name member
      · rintro rfl
        exact nodup.1 member
    obtain ⟨result, rest, kept⟩ :=
      inductionHypothesis nextHolds nodup.2 stillAbsent (by rw [size]; omega)
    exact ⟨result, by rw [List.foldlM_cons, put, run]; exact rest, kept⟩

/-- `put` adds a name to the map. One growth is enough, and it triggers no other. -/
theorem Holds.put_spec (holds : dict.Holds strhash map) {name : Text} (absent : map name = none)
    (value : Value) :
    ∃ old result, put strhash 1 dict name value = some (old, result) ∧
      result.Holds strhash (Function.update map name (some value)) := by
  by_cases room : 2 ≤ dict.remain
  · obtain ⟨result, run, kept, -⟩ := holds.putMoved_of_room absent room _ value
    exact ⟨result, result, run, kept⟩
  have full : dict.remain ≤ 1 := by omega
  have equation := holds.remain_eq
  have positive := holds.remain_pos
  have entries := length_dictforall_le_used dict
  have fits : dict.dictforall.length + 2 ≤ REMAIN (GROW dict.size) := by
    unfold REMAIN GROW at *
    omega
  have fresh : (mkdict0 (GROW dict.size) (isPowerOfTwo_GROW dict.isPowerOfTwo_size) :
      Dict Value).Holds strhash fun _ => none :=
    mkdict0_holds strhash (GROW dict.size) (isPowerOfTwo_GROW dict.isPowerOfTwo_size) (by omega)
  obtain ⟨dnew, moved, movedHolds, moreRoom⟩ := fresh.putAll_spec dict.dictforall
    holds.nodup_dictforall (fun _ _ => rfl) (by
      have unused : (mkdict0 (GROW dict.size) (isPowerOfTwo_GROW dict.isPowerOfTwo_size) :
          Dict Value).used = 0 := by simp [used, mkdict0, Assoc.isNull]
      rw [unused, Nat.zero_add]
      exact fits)
  have same : putAll (fun _ => none) (dict.dictforall.map fun entry => (entry.1, some entry.2)) =
      map := by
    funext other
    refine Option.ext fun value' => ?_
    rw [putAll_eq_some_iff holds.nodup_dictforall, holds.mem_dictforall_iff]
  rw [same] at movedHolds
  obtain ⟨result, inserted, kept, -⟩ := movedHolds.insert_spec absent moreRoom value
  refine ⟨dict, result, ?_, kept⟩
  rw [put, moved, putMoved, holds.get_of_absent absent, Option.bind_some, if_neg (by decide),
    if_pos full, Option.bind_some, inserted, Option.map_some]

/-! ### The finite map -/

/-- Replacing the value of a name. -/
theorem Holds.replace (holds : dict.Holds strhash map) {n : Nat} {name : Text} {old : Value}
    (live : dict.slot n = .live name old) (value : Value) :
    (dict.store n (.live name value)).Holds strhash
      (Function.update map name (some value)) := by
  have unchanged : dict.remain = dict.remain - if (dict.slot n).isNull then 1 else 0 := by
    simp [live, Assoc.isNull]
  refine holds.store_live (holds.reachable n name old live)
    (fun m value' live' => holds.unique m n name value' old live' live) ?_ value unchanged
    holds.remain_pos
  intro other value' live'
  exact (Assoc.live.inj (live'.symm.trans live)).1

theorem Holds.dictget_spec (holds : dict.Holds strhash map) (name : Text) :
    dict.dictget strhash name = some (map name) := by
  obtain ⟨found, result, present, absent⟩ := holds.get_spec name
  rw [dictget, result, Option.map_some]
  cases inMap : map name with
  | none => rw [absent inMap, Option.bind_none]
  | some value =>
    obtain ⟨n, rfl, live⟩ := present value inMap
    rw [Option.bind_some, live]
    rfl

theorem Holds.dictput_spec (holds : dict.Holds strhash map) (name : Text) (value : Option Value) :
    ∃ result, dict.dictput strhash name value = some result ∧
      result.Holds strhash (Function.update map name value) := by
  obtain ⟨found, result, present, absent⟩ := holds.get_spec name
  rw [dictput, result, Option.bind_some]
  cases inMap : map name with
  | none =>
    rw [absent inMap]
    cases value with
    | none => exact ⟨dict, rfl, by rwa [← inMap, Function.update_eq_self]⟩
    | some value =>
      obtain ⟨old, result, run, kept⟩ := holds.put_spec inMap value
      exact ⟨result, congrArg (Option.map Prod.snd) run, kept⟩
  | some old =>
    obtain ⟨n, rfl, live⟩ := present old inMap
    cases value with
    | none => exact holds.rm_spec live
    | some value =>
      have entry : (dict.slot n).entry = some (name, old) := by rw [live]; rfl
      exact ⟨_, congrArg (Option.map fun entry => dict.store n (.live entry.1 value)) entry,
        holds.replace live value⟩

theorem Holds.dictputs_spec (holds : dict.Holds strhash map)
    (calls : List (Text × Option Value)) :
    ∃ result, dict.dictputs strhash calls = some result ∧
      result.Holds strhash (putAll map calls) := by
  induction calls generalizing dict map with
  | nil => exact ⟨dict, rfl, holds⟩
  | cons call calls inductionHypothesis =>
    obtain ⟨next, run, nextHolds⟩ := holds.dictput_spec call.1 call.2
    obtain ⟨result, rest, kept⟩ := inductionHypothesis nextHolds
    exact ⟨result, by rw [dictputs, List.foldlM_cons, run]; exact rest, kept⟩

/-- Looking up two names at once ends too. -/
theorem Holds.dictget2_spec (holds : dict.Holds strhash map) (strhash2 : Text → Text → Nat)
    (name1 name2 : Text) : ∃ value, dict.dictget2 strhash2 name1 name2 = some value := by
  obtain ⟨null, isNull⟩ := holds.exists_null
  obtain ⟨k, result, -, -⟩ := dict.probe_spec (endsSearch fun name => streq2 name name1 name2)
    (by rw [isNull]; rfl) (strhash2 name1 name2)
  exact ⟨_, by rw [dictget2, result, Option.map_some]⟩

/-- The value of the last call for a name. -/
def lastPut (calls : List (Text × Option Value)) (name : Text) : Option Value :=
  (calls.reverse.find? fun call => call.1 == name).bind Prod.snd

theorem putAll_eq_lastPut (calls : List (Text × Option Value)) :
    putAll (fun _ => none) calls = lastPut calls := by
  funext name
  induction calls using List.reverseRecOn with
  | nil => rfl
  | append_singleton calls call inductionHypothesis =>
    rw [putAll, List.foldl_append, List.foldl_cons, List.foldl_nil, lastPut, List.reverse_append,
      List.reverse_singleton, List.singleton_append, List.find?_cons]
    by_cases same : name = call.1
    · subst same
      rw [Function.update_self, beq_self_eq_true]
      rfl
    · rw [Function.update_of_ne same, beq_false_of_ne (Ne.symm same)]
      exact inductionHypothesis

/-- Whatever is put into a new dictionary, every call returns, no growth happens inside another,
and the dictionary is the finite map of the last value put for each name: `dictget` looks it up,
`dictforall` visits its graph without repetition, `remain` counts the entries left, and some entry
is always `NULL`, so that the other loop over the table, `dictget2`, ends as well. -/
theorem dictputs_mkdict (strhash : Text → Nat) (calls : List (Text × Option Value)) :
    ∃ dict, (mkdict : Dict Value).dictputs strhash calls = some dict ∧
      (∀ name, dict.dictget strhash name = some (lastPut calls name)) ∧
      (dict.dictforall.map Prod.fst).Nodup ∧
      (∀ name value, (name, value) ∈ dict.dictforall ↔ lastPut calls name = some value) ∧
      dict.remain = REMAIN dict.size - dict.used ∧ 1 ≤ dict.remain ∧
      (∃ n, dict.slot n = .null) ∧
      ∀ strhash2 name1 name2, ∃ value, dict.dictget2 strhash2 name1 name2 = some value := by
  obtain ⟨dict, run, holds⟩ :=
    (show (mkdict0 2 ⟨1, rfl⟩ : Dict Value).Holds strhash fun _ => none from
      mkdict0_holds strhash 2 ⟨1, rfl⟩ (by decide)).dictputs_spec calls
  rw [putAll_eq_lastPut] at holds
  exact ⟨dict, run, holds.dictget_spec, holds.nodup_dictforall, holds.mem_dictforall_iff,
    holds.remain_eq, holds.remain_pos, holds.exists_null, holds.dictget2_spec⟩

end Dict

end Desh
