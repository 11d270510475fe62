/-
This file packages the hash tables of `dict.c` as the finite maps they are. A
`Dictionary` is a table together with the fact that it stands for some map, so
every operation on it ends and no later proof looks into the table again.
-/

import Desh.DictMap

namespace Desh

/-! ### A table with its map -/

/-- A dictionary made by `mkdict` and the operations on it. -/
structure Dictionary (strhash : Text → Nat) (Value : Type) where
  dict : Dict Value
  exists_holds : ∃ map, dict.Holds strhash map

namespace Dictionary

variable {strhash : Text → Nat} {Value : Type}

/-- `mkdict`. -/
def mkdict : Dictionary strhash Value where
  dict := Dict.mkdict
  exists_holds := ⟨_, Dict.mkdict0_holds strhash 2 ⟨1, rfl⟩ (by decide)⟩

theorem dictput_isSome (dictionary : Dictionary strhash Value) (name : Text)
    (value : Option Value) : (dictionary.dict.dictput strhash name value).isSome := by
  obtain ⟨map, holds⟩ := dictionary.exists_holds
  obtain ⟨result, run, -⟩ := holds.dictput_spec name value
  rw [run]
  rfl

/-- `dictget`. -/
def get (dictionary : Dictionary strhash Value) (name : Text) : Option Value :=
  (dictionary.dict.dictget strhash name).join

/-- `dictput`. -/
def put (dictionary : Dictionary strhash Value) (name : Text) (value : Option Value) :
    Dictionary strhash Value where
  dict := (dictionary.dict.dictput strhash name value).get (dictionary.dictput_isSome name value)
  exists_holds := by
    obtain ⟨map, holds⟩ := dictionary.exists_holds
    obtain ⟨result, run, kept⟩ := holds.dictput_spec name value
    simp only [run, Option.get_some]
    exact ⟨_, kept⟩

/-- `dictforall`: what it calls its procedure with. -/
def entries (dictionary : Dictionary strhash Value) : List (Text × Value) :=
  dictionary.dict.dictforall

/-! ### The map it stands for -/

theorem get_eq_of_holds (dictionary : Dictionary strhash Value) {map : Text → Option Value}
    (holds : dictionary.dict.Holds strhash map) (name : Text) : dictionary.get name = map name := by
  rw [get, holds.dictget_spec, Option.join_some]

@[simp] theorem get_mkdict (name : Text) : (mkdict : Dictionary strhash Value).get name = none := by
  have holds : (mkdict : Dictionary strhash Value).dict.Holds strhash fun _ => none :=
    Dict.mkdict0_holds strhash 2 ⟨1, rfl⟩ (by decide)
  rw [get_eq_of_holds _ holds]

theorem get_put (dictionary : Dictionary strhash Value) (name other : Text)
    (value : Option Value) :
    (dictionary.put name value).get other =
      if other = name then value else dictionary.get other := by
  obtain ⟨map, holds⟩ := dictionary.exists_holds
  obtain ⟨result, run, kept⟩ := holds.dictput_spec name value
  have same : (dictionary.put name value).dict = result := by
    simp only [put, run, Option.get_some]
  rw [get_eq_of_holds _ (same ▸ kept), get_eq_of_holds _ holds, Function.update_apply]

theorem mem_entries (dictionary : Dictionary strhash Value) (name : Text) (value : Value) :
    (name, value) ∈ dictionary.entries ↔ dictionary.get name = some value := by
  obtain ⟨map, holds⟩ := dictionary.exists_holds
  rw [entries, holds.mem_dictforall_iff, get_eq_of_holds _ holds]

theorem nodup_entries (dictionary : Dictionary strhash Value) :
    (dictionary.entries.map Prod.fst).Nodup := by
  obtain ⟨map, holds⟩ := dictionary.exists_holds
  exact holds.nodup_dictforall

/-! ### Procedures that write to the values -/

/-- `dictforall` with a procedure that changes every value in place. -/
def change (dictionary : Dictionary strhash Value) (f : Text → Value → Value) :
    Dictionary strhash Value :=
  dictionary.entries.foldl (fun dictionary entry => dictionary.put entry.1 (f entry.1 entry.2))
    dictionary

theorem get_foldl_put (f : Text → Value → Value) (list : List (Text × Value))
    (nodup : (list.map Prod.fst).Nodup) (dictionary : Dictionary strhash Value) (name : Text) :
    (list.foldl (fun dictionary entry => dictionary.put entry.1 (f entry.1 entry.2))
      dictionary).get name =
      match list.find? fun entry => entry.1 == name with
      | some entry => some (f entry.1 entry.2)
      | none => dictionary.get name := by
  induction list generalizing dictionary with
  | nil => rfl
  | cons entry list inductionHypothesis =>
    rw [List.map_cons, List.nodup_cons] at nodup
    rw [List.foldl_cons, inductionHypothesis nodup.2, List.find?_cons]
    by_cases same : entry.1 = name
    · subst same
      have absent : list.find? (fun other => other.1 == entry.1) = none := by
        rw [List.find?_eq_none]
        intro other member equal
        exact nodup.1 (List.mem_map.mpr ⟨other, member, eq_of_beq equal⟩)
      simp [absent, get_put]
    · have other : (entry.1 == name) = false := by simpa using same
      simp only [other, get_put, if_neg (Ne.symm same)]

theorem find?_entries (dictionary : Dictionary strhash Value) (name : Text) :
    (dictionary.entries.find? fun entry => entry.1 == name) =
      (dictionary.get name).map fun value => (name, value) := by
  cases found : dictionary.get name with
  | none =>
    rw [Option.map_none, List.find?_eq_none]
    rintro ⟨other, value⟩ member equal
    obtain rfl : other = name := eq_of_beq equal
    rw [mem_entries, found] at member
    cases member
  | some value =>
    rw [Option.map_some]
    have member := (dictionary.mem_entries name value).mpr found
    have some : (dictionary.entries.find? fun entry => entry.1 == name).isSome := by
      rw [List.find?_isSome]
      exact ⟨_, member, beq_self_eq_true name⟩
    obtain ⟨⟨other, value'⟩, equation⟩ := Option.isSome_iff_exists.mp some
    obtain rfl : other = name := by simpa using List.find?_some equation
    have member' := (dictionary.mem_entries other value').mp (List.mem_of_find?_eq_some equation)
    rw [found] at member'
    rw [equation, Option.some.inj member']

theorem get_change (dictionary : Dictionary strhash Value) (f : Text → Value → Value)
    (name : Text) : (dictionary.change f).get name = (dictionary.get name).map (f name) := by
  rw [change, get_foldl_put f _ dictionary.nodup_entries, find?_entries]
  cases dictionary.get name <;> rfl

end Dictionary

end Desh
