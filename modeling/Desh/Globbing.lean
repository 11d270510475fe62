/-
This file says which paths a pattern stands for in a tree of directories, and
proves when `glob1` returns them: unless a byte that is left in an array makes a
comparison go on behind the end of a component.
-/

import Desh.Behind
import Desh.Glob

namespace Desh

open FileTree (Files)

/-! ### What a pattern stands for -/

/-- The first component of a pattern, behind its slashes. -/
def firstOf (p : List Marked) : List Marked :=
  (p.drop (slashes (chars p))).takeWhile fun x => x.1 != '/'.toUInt8

/-- The pattern behind its first component. -/
def afterFirst (p : List Marked) : List Marked :=
  (p.drop (slashes (chars p))).drop (firstOf p).length

theorem chars_firstOf (p : List Marked) :
    chars (firstOf p) = component ((chars p).drop (slashes (chars p))) := by
  rw [component, ← chars_drop, chars, chars, firstOf, List.takeWhile_map]
  rfl

theorem length_chars (p : List Marked) : (chars p).length = p.length := List.length_map _

theorem chars_afterFirst (p : List Marked) : chars (afterFirst p) = afterComponent (chars p) := by
  rw [afterComponent, ← chars_firstOf, length_chars, afterFirst, chars_drop, chars_drop]

theorem afterFirst_lt {p : List Marked} (nonempty : p ≠ []) : (afterFirst p).length < p.length := by
  rw [← length_chars, ← length_chars, chars_afterFirst]
  by_cases more : afterComponent (chars p) = []
  · rw [more, length_chars]
    exact List.length_pos_of_ne_nil nonempty
  · exact afterComponent_lt more

/-- The components of a pattern, each with the number of slashes in front. -/
def piecesOf (p : List Marked) : List (Nat × List Marked) :=
  if _nonempty : p = [] then []
  else (slashes (chars p), firstOf p) :: piecesOf (afterFirst p)
termination_by p.length
decreasing_by exact afterFirst_lt _nonempty

theorem piecesOf_cons {p : List Marked} (nonempty : p ≠ []) :
    piecesOf p = (slashes (chars p), firstOf p) :: piecesOf (afterFirst p) := by
  rw [piecesOf, dif_neg nonempty]

/-- A name that a component of a pattern stands for: one that starts with a dot is hidden, unless
the component starts with one. An empty component stands for an empty name. -/
structure NameFits (c : List Marked) (name : Text) : Prop where
  denotes : Wildcard.Denotes (atoms c) name
  shown : name.head? = some '.'.toUInt8 → (chars c).head? = some '.'.toUInt8
  named : if c = [] then name = [] else pathSigns.IsName name

/-- The paths with the slashes of the pattern and names that its components stand for. -/
inductive Spells : List (Nat × List Marked) → Text → Prop where
  | nil : Spells [] []
  | cons {n : Nat} {c : List Marked} {name : Text} {ps : List (Nat × List Marked)} {path : Text}
      (fits : NameFits c name) (rest : Spells ps path) :
      Spells ((n, c) :: ps) (List.replicate n '/'.toUInt8 ++ name ++ path)

/-- The paths that exist and that the pattern stands for. -/
def Stands (files : Files pathSigns) (ps : List (Nat × List Marked)) (path : Text) : Prop :=
  Spells ps path ∧ (files.locate path).isSome

theorem spells_snoc_iff {ps : List (Nat × List Marked)} {n : Nat} {c : List Marked}
    {path : Text} :
    Spells (ps ++ [(n, c)]) path ↔ ∃ dir name, Spells ps dir ∧ NameFits c name ∧
      path = dir ++ List.replicate n '/'.toUInt8 ++ name := by
  induction ps generalizing path with
  | nil =>
    constructor
    · intro spells
      cases spells with
      | cons fits rest =>
        cases rest
        exact ⟨[], _, .nil, fits, List.append_nil _⟩
    · rintro ⟨dir, name, spells, fits, rfl⟩
      cases spells
      have spelled := Spells.cons (n := n) fits .nil
      rwa [List.append_nil] at spelled
  | cons piece ps ih =>
    constructor
    · intro spells
      cases spells with
      | cons fits rest =>
        obtain ⟨dir, name, spells, last, rfl⟩ := ih.mp rest
        refine ⟨_, name, .cons fits spells, last, ?_⟩
        simp only [List.append_assoc]
    · rintro ⟨dir, name, spells, last, rfl⟩
      cases spells with
      | @cons m _ _ _ _ fits rest =>
        have spelled := Spells.cons (n := m) fits (ih.mpr ⟨_, name, rest, last, rfl⟩)
        simp only [List.append_assoc] at spelled ⊢
        exact spelled

/-! ### Names and paths -/

/-- A component that can stand for a name: no slash, and no zero byte. -/
def Plain (c : List Marked) : Prop := ∀ x ∈ chars c, pathSigns.inName x = true

instance (c : List Marked) : Decidable (Plain c) :=
  inferInstanceAs (Decidable (∀ x ∈ chars c, pathSigns.inName x = true))

theorem Plain.isName {c : List Marked} (plain : Plain c) (nonempty : c ≠ []) :
    pathSigns.IsName (chars c) :=
  ⟨fun empty => nonempty (List.map_eq_nil_iff.mp empty), plain⟩

theorem nulFree_of_inName {s : Text} (inName : ∀ x ∈ s, pathSigns.inName x = true) :
    NulFree s := by
  intro zero
  exact absurd (inName 0 zero) (by decide)

theorem slash_not_mem_of_inName {s : Text} (inName : ∀ x ∈ s, pathSigns.inName x = true) :
    pathSigns.slash ∉ s :=
  fun slash => absurd ((inName _ slash).symm.trans pathSigns.slash_out) nofun

theorem NameFits.inName {c : List Marked} {name : Text} (fits : NameFits c name) :
    ∀ x ∈ name, pathSigns.inName x = true := by
  have named := fits.named
  split at named
  · rw [named]
    exact nofun
  · exact named.2

/-- What a component without a wildcard stands for. -/
theorem fits_plain_iff {c : List Marked} {name : Text} (plain : Plain c)
    (noWild : c.any Marked.isWild = false) : NameFits c name ↔ name = chars c := by
  constructor
  · intro fits
    have denotes := fits.denotes
    rw [atoms_plain noWild] at denotes
    exact (denotes_literals_iff _ _).mp denotes
  · rintro rfl
    refine ⟨?_, id, ?_⟩
    · rw [atoms_plain noWild]
      exact (denotes_literals_iff _ _).mpr rfl
    · split
      · rename_i empty
        rw [empty]
        rfl
      · rename_i nonempty
        exact plain.isName nonempty

/-- A component without a wildcard has no class. -/
theorem spared_plain {c : List Marked} (noWild : c.any Marked.isWild = false) (behind : Bool)
    (name : Text) : Spared behind c name := by
  refine Wildcard.allowed_of_forall ?_ name
  generalize (fun p => !(behind && classDangles p)) = scans
  induction c with
  | nil =>
    rw [scannedAtoms]
    simp
  | cons x c ih =>
    rw [List.any_cons, Bool.or_eq_false_iff] at noWild
    have other : ∀ d : Char, isWildcard d.toUInt8 = true → x ≠ bare d := by
      rintro d wild rfl
      have noWild := noWild.1
      rw [Marked.isWild, bare, wild] at noWild
      cases noWild
    rw [scannedAtoms, if_neg (other '?' (by decide)), if_neg (other '*' (by decide)),
      if_neg (other '[' (by decide))]
    intro t member
    rcases List.mem_cons.mp member with rfl | member
    · rfl
    · exact ih noWild.2 t member

/-! ### One directory -/

/-- The directory is the one that the names are looked for in behind the prefix. -/
def Leads (files : Files pathSigns) (namePrefix dirname : Text) : Prop :=
  ∀ last, pathSigns.slash ∉ last → namePrefix ++ last ≠ [] →
    files.locate (namePrefix ++ last) =
      (files.locate dirname).bind fun place => FileTree.enter pathSigns place last

theorem leads_dot (files : Files pathSigns) : Leads files [] (lit ".") := by
  intro last single nonempty
  have here : files.locate (lit ".") = some (.directory files.entries :: files.up) := rfl
  rw [List.nil_append] at nonempty ⊢
  rw [files.locate_relative nonempty single, here]
  rfl

theorem leads_absolute (files : Files pathSigns) (n : Nat) :
    Leads files (List.replicate (n + 1) '/'.toUInt8) (List.replicate (n + 1) '/'.toUInt8) := by
  intro last single _
  have root := files.locate_absolute (List.not_mem_nil : pathSigns.slash ∉ ([] : Text)) n
  rw [List.append_nil] at root
  exact (files.locate_absolute single n).trans
    ((FileTree.enter_nil_bind _ last).symm.trans (congrArg (Option.bind · _) root.symm))

theorem leads_slashes (files : Files pathSigns) {dir : Text} (nonempty : dir ≠ []) (n : Nat) :
    Leads files (dir ++ List.replicate (n + 1) '/'.toUInt8) dir := by
  intro last single _
  rw [List.append_assoc]
  exact files.locate_append nonempty single n

/-- Every name of the directory is compared with the component without harm. -/
def SparedIn (files : Files pathSigns) (behind : Bool) (c : List Marked) (dirname : Text) : Prop :=
  ∀ names, (Disk.of files).opendir dirname = some names → ∀ name ∈ names, Spared behind c name

/-- The loop of `dirmatch` picks the names that match. -/
theorem dirmatchLoop_spec (namePrefix : Text) (c : List Marked) (rest : Text)
    (names : List Text) :
    let quote : Quoting := .of (.marks (maskOf c ++ rest))
    let behind : Bool := rest.head? = some 'q'.toUInt8
    ((∀ name ∈ names, Spared behind c name) →
      dirmatchLoop namePrefix (chars c) quote names =
        .ok ((names.filter fun name => Wildcard.isMatch (atoms c) name &&
          (!ishiddenfile name || (chars c).head? = some '.'.toUInt8)).map (namePrefix ++ ·))) ∧
      (¬(∀ name ∈ names, Spared behind c name) →
        dirmatchLoop namePrefix (chars c) quote names = .error .text) := by
  intro quote behind
  induction names with
  | nil => exact ⟨fun _ => rfl, fun disturbed => absurd (fun _ => nofun) disturbed⟩
  | cons name names ih =>
    have matched := match_behind c rest name
    rw [List.forall_mem_cons, dirmatchLoop]
    constructor
    · rintro ⟨first, others⟩
      rw [matched.1 first, ih.1 others, ok_bind, ok_bind, List.filter_cons]
      split
      · rfl
      · rfl
    · intro disturbed
      by_cases first : Spared behind c name
      · rw [matched.1 first, ok_bind, ih.2 fun others => disturbed ⟨first, others⟩]
        rfl
      · rw [matched.2 first]
        rfl

/-- The names that the loop picks are the ones that the component stands for and that exist. -/
theorem mem_picked_iff {files : Files pathSigns} {namePrefix dirname : Text} {c : List Marked}
    (leads : Leads files namePrefix dirname) (nonempty : c ≠ []) {names : List Text}
    (listed : (Disk.of files).opendir dirname = some names) (path : Text) :
    path ∈ (names.filter fun name => Wildcard.isMatch (atoms c) name &&
        (!ishiddenfile name || (chars c).head? = some '.'.toUInt8)).map (namePrefix ++ ·) ↔
      ∃ name, NameFits c name ∧ path = namePrefix ++ name ∧ (files.locate path).isSome := by
  obtain ⟨place, located, listing⟩ := Option.bind_eq_some_iff.mp listed
  have valid := FileTree.listing_valid files.valid (files.locate_place located) listing
  have exists_iff : ∀ name, pathSigns.IsName name →
      ((files.locate (namePrefix ++ name)).isSome ↔ name ∈ names) := by
    intro name isName
    have inside : namePrefix ++ name ≠ [] :=
      fun empty => isName.1 (List.append_eq_nil_iff.mp empty).2
    rw [leads name isName.slash_not_mem inside, located, Option.bind_some,
      FileTree.isSome_enter_iff isName, listing]
    exact ⟨fun ⟨_, same, member⟩ => Option.some.inj same ▸ member, fun member => ⟨_, rfl, member⟩⟩
  simp only [List.mem_map, List.mem_filter, Bool.and_eq_true, Bool.or_eq_true,
    Wildcard.isMatch_iff]
  constructor
  · rintro ⟨name, ⟨member, denotes, shown⟩, rfl⟩
    have isName := valid.2 name member
    refine ⟨name, ⟨denotes, fun hidden => ?_, ?_⟩, rfl, (exists_iff name isName).mpr member⟩
    · rcases shown with visible | dotted
      · rw [ishiddenfile, hidden] at visible
        cases visible
      · exact of_decide_eq_true dotted
    · rw [if_neg nonempty]
      exact isName
  · rintro ⟨name, fits, rfl, located'⟩
    have isName := fits.named
    rw [if_neg nonempty] at isName
    refine ⟨name, ⟨(exists_iff name isName).mp located', fits.denotes, ?_⟩, rfl⟩
    by_cases hidden : name.head? = some '.'.toUInt8
    · exact .inr (decide_eq_true (fits.shown hidden))
    · left
      rw [ishiddenfile, decide_eq_false hidden]
      rfl

/-- `dirmatch` finds the names that the component stands for. -/
theorem dirmatch_spec {files : Files pathSigns} {namePrefix dirname : Text} {c : List Marked}
    (leads : Leads files namePrefix dirname) (plain : Plain c)
    (nonempty : c = [] → namePrefix ≠ []) (rest : Text) :
    let quote : Quoting := .of (.marks (maskOf c ++ rest))
    let behind : Bool := rest.head? = some 'q'.toUInt8
    (SparedIn files behind c dirname →
      ∃ list, dirmatch (Disk.of files) namePrefix dirname (chars c) quote = .ok list ∧
        list.Nodup ∧ ∀ path, path ∈ list ↔
          ∃ name, NameFits c name ∧ path = namePrefix ++ name ∧ (files.locate path).isSome) ∧
      (¬SparedIn files behind c dirname →
        dirmatch (Disk.of files) namePrefix dirname (chars c) quote = .error .text) := by
  intro quote behind
  have directory : (Disk.of files).isDirectory dirname =
      ((Disk.of files).opendir dirname).isSome := rfl
  have inside : ∀ {name}, NameFits c name → namePrefix ++ name ≠ [] := by
    intro name fits empty
    obtain ⟨noPrefix, noName⟩ := List.append_eq_nil_iff.mp empty
    have named := fits.named
    split at named
    · rename_i noComponent
      exact nonempty noComponent noPrefix
    · exact named.1 noName
  rw [dirmatch, directory, haswildAt_behind]
  cases listed : (Disk.of files).opendir dirname with
  | none =>
    refine ⟨fun _ => ⟨[], rfl, List.nodup_nil, fun path => ⟨nofun, ?_⟩⟩, fun disturbed => ?_⟩
    · rintro ⟨name, fits, rfl, located⟩
      rw [leads name (slash_not_mem_of_inName fits.inName) (inside fits)] at located
      obtain ⟨place, entered⟩ := Option.isSome_iff_exists.mp located
      obtain ⟨base, based, entered⟩ := Option.bind_eq_some_iff.mp entered
      have shown := FileTree.listing_of_enter entered
      have hidden : ((files.locate dirname).bind (FileTree.listing pathSigns)) = none := listed
      rw [based, Option.bind_some] at hidden
      rw [hidden] at shown
      cases shown
    · refine absurd (fun names found => ?_) disturbed
      rw [listed] at found
      cases found
  | some names =>
    rw [Option.isSome_some, Bool.not_true, if_neg Bool.false_ne_true, ok_bind]
    cases wild : c.any Marked.isWild with
    | false =>
      refine ⟨fun _ => ⟨_, rfl, ?_, fun path => ?_⟩, fun disturbed => ?_⟩
      · split
        · exact List.nodup_singleton _
        · exact List.nodup_nil
      · simp only [fits_plain_iff plain wild, exists_eq_left]
        split
        · rename_i found
          rw [List.mem_singleton]
          exact ⟨fun same => ⟨same, same ▸ found⟩, fun member => member.1⟩
        · rename_i missing
          refine ⟨nofun, ?_⟩
          rintro ⟨rfl, found⟩
          exact absurd found missing
      · exact absurd (fun _ _ name _ => spared_plain wild behind name) disturbed
    | true =>
      have spared_iff : SparedIn files behind c dirname ↔ ∀ name ∈ names, Spared behind c name := by
        rw [SparedIn, listed]
        exact ⟨fun spared => spared names rfl, fun spared _ same => Option.some.inj same ▸ spared⟩
      have component : c ≠ [] := by
        rintro rfl
        cases wild
      have loop := dirmatchLoop_spec namePrefix c rest names
      have distinct : names.Nodup := by
        obtain ⟨place, located, listing⟩ := Option.bind_eq_some_iff.mp listed
        exact (FileTree.listing_valid files.valid (files.locate_place located) listing).1
      rw [spared_iff]
      refine ⟨fun spared => ⟨_, loop.1 spared, ?_, mem_picked_iff leads component listed⟩, loop.2⟩
      exact (distinct.filter _).map (List.append_right_injective namePrefix)

/-! ### The arrays -/

/-- The arrays have the sizes that go with them. -/
structure Statics.Valid (statics : Statics) : Prop where
  dir : statics.dir.length = statics.dsize
  pat : statics.pat.length = statics.dsize
  qdir : statics.qdir.length = statics.dsize
  qpat : statics.qpat.length = statics.dsize
  raw : statics.raw = List.replicate statics.dsize 'r'.toUInt8
  namePrefix : statics.namePrefix.length = statics.prefixlen

theorem valid_initial : Statics.initial.Valid := ⟨rfl, rfl, rfl, rfl, rfl, rfl⟩

variable (fresh : StaticArray → Nat → UInt8)

theorem Statics.Valid.reserve {statics : Statics} (valid : statics.Valid) (psize : Nat) :
    (statics.reserve fresh psize).Valid ∧ psize ≤ (statics.reserve fresh psize).dsize := by
  rw [Statics.reserve]
  split
  · exact ⟨⟨length_erealloc .., length_erealloc .., length_erealloc .., length_erealloc .., rfl,
      valid.namePrefix⟩, le_rfl⟩
  · rename_i enough
    exact ⟨valid, Nat.not_lt.mp (not_or.mp enough).1⟩

theorem reservePrefix_length {statics : Statics}
    (kept : statics.namePrefix.length = statics.prefixlen) (size : Nat) :
    (statics.reservePrefix fresh size).namePrefix.length =
        (statics.reservePrefix fresh size).prefixlen ∧
      size ≤ (statics.reservePrefix fresh size).prefixlen := by
  rw [Statics.reservePrefix]
  split
  · exact ⟨length_erealloc .., le_rfl⟩
  · rename_i enough
    exact ⟨kept, by omega⟩

theorem store_eq {array bytes : Text} (room : bytes.length ≤ array.length) :
    store array bytes = .ok (bytes ++ array.drop bytes.length) := if_pos room

theorem length_stored {array bytes : Text} (room : bytes.length ≤ array.length) :
    (bytes ++ array.drop bytes.length).length = array.length := by
  rw [List.length_append, List.length_drop]
  omega

theorem readMask_eq {q : Text} {n : Nat} (enough : n ≤ q.length) :
    readMask q n = .ok (q.take n) := if_pos enough

/-! ### A list of directories -/

/-- What ends with a slash is not longer than another such beginning of a path. -/
theorem eq_nil_of_ends {front front' more : Text} (single : pathSigns.slash ∉ more)
    (same : front ++ ['/'.toUInt8] = front' ++ ['/'.toUInt8] ++ more) : more = [] := by
  rcases List.eq_nil_or_concat' more with empty | ⟨more, last, rfl⟩
  · exact empty
  · rw [← List.append_assoc] at same
    have ends := (List.append_inj' same rfl).2
    have slash : '/'.toUInt8 = last := (List.cons.inj ends).1
    exact absurd (List.mem_append_right more (List.mem_singleton.mpr slash)) single

/-- Names behind two directories and a slash are the same path for one directory only. -/
theorem append_slash_inj {dir dir' name name' : Text} (single : pathSigns.slash ∉ name)
    (single' : pathSigns.slash ∉ name') (n : Nat)
    (same : dir ++ List.replicate (n + 1) '/'.toUInt8 ++ name =
      dir' ++ List.replicate (n + 1) '/'.toUInt8 ++ name') : dir = dir' := by
  rw [List.replicate_succ', ← List.append_assoc, ← List.append_assoc] at same
  have fronts : dir ++ List.replicate n '/'.toUInt8 ++ ['/'.toUInt8] =
      dir' ++ List.replicate n '/'.toUInt8 ++ ['/'.toUInt8] := by
    rcases List.append_eq_append_iff.mp same with ⟨more, front, back⟩ | ⟨more, front, back⟩
    · have none := eq_nil_of_ends
        (fun slash => single (back ▸ List.mem_append_left name' slash)) front
      rw [none, List.append_nil] at front
      exact front.symm
    · have none := eq_nil_of_ends
        (fun slash => single' (back ▸ List.mem_append_left name slash)) front
      rw [none, List.append_nil] at front
      exact front
  exact List.append_cancel_right (List.append_cancel_right fronts)

/-- Paths behind the directories are different ones. -/
def Apart (n : Nat) (dir dir' : Text) : Prop :=
  ∀ name name', pathSigns.slash ∉ name → pathSigns.slash ∉ name' →
    dir ++ List.replicate n '/'.toUInt8 ++ name ≠ dir' ++ List.replicate n '/'.toUInt8 ++ name'

/-- A step of `listglob`. -/
theorem listglob_cons (disk : Disk) (pattern : Text) (quote : Quoting) (n : Nat) {dir : Text}
    (list : List Text) (nulFree : NulFree dir) {statics : Statics}
    (kept : statics.namePrefix.length = statics.prefixlen) :
    ∃ namePrefix prefixlen, namePrefix.length = prefixlen ∧
      listglob disk fresh pattern quote n (dir :: list) statics =
        (dirmatch disk (dir ++ List.replicate n '/'.toUInt8) dir pattern quote >>= fun found =>
          listglob disk fresh pattern quote n list { statics with namePrefix, prefixlen } >>=
            fun rest => .ok (found ++ rest.1, rest.2)) := by
  obtain ⟨room, enough⟩ := reservePrefix_length fresh kept (dir.length + n + 1)
  have others : statics.reservePrefix fresh (dir.length + n + 1) =
      { statics with
        namePrefix := (statics.reservePrefix fresh (dir.length + n + 1)).namePrefix
        prefixlen := (statics.reservePrefix fresh (dir.length + n + 1)).prefixlen } := by
    rw [Statics.reservePrefix]
    split
    · rfl
    · rfl
  rw [listglob]
  generalize statics.reservePrefix fresh (dir.length + n + 1) = roomy at room enough others ⊢
  have bytes : (dir ++ List.replicate n '/'.toUInt8 ++ [0]).length ≤ roomy.namePrefix.length := by
    rw [room]
    simpa [Nat.add_assoc] using enough
  have ends : NulFree (dir ++ List.replicate n '/'.toUInt8) := by
    refine nulFree_append.mpr ⟨nulFree, fun zero => ?_⟩
    exact absurd (List.eq_of_mem_replicate zero) (by decide)
  refine ⟨_, roomy.prefixlen, (length_stored bytes).trans room, ?_⟩
  rw [others]
  show (store roomy.namePrefix _ >>= _) = _
  rw [store_eq bytes, ok_bind, cstring_stored ends]
  rfl

/-- `listglob` finds what `dirmatch` finds in the directories. -/
theorem listglob_spec {files : Files pathSigns} {c : List Marked} (plain : Plain c) {n : Nat}
    (rest : Text) (list : List Text)
    (leads : ∀ dir ∈ list, Leads files (dir ++ List.replicate n '/'.toUInt8) dir)
    (nulFree : ∀ dir ∈ list, NulFree dir) (nonempty : ∀ dir ∈ list, dir ≠ [])
    (statics : Statics) (kept : statics.namePrefix.length = statics.prefixlen) :
    let quote : Quoting := .of (.marks (maskOf c ++ rest))
    let behind : Bool := rest.head? = some 'q'.toUInt8
    ((∀ dir ∈ list, SparedIn files behind c dir) →
      ∃ found namePrefix prefixlen,
        listglob (Disk.of files) fresh (chars c) quote n list statics =
          .ok (found, { statics with namePrefix, prefixlen }) ∧
        namePrefix.length = prefixlen ∧ (list.Pairwise (Apart n) → found.Nodup) ∧
        ∀ path, path ∈ found ↔ ∃ dir ∈ list, ∃ name, NameFits c name ∧
          path = dir ++ List.replicate n '/'.toUInt8 ++ name ∧ (files.locate path).isSome) ∧
      (¬(∀ dir ∈ list, SparedIn files behind c dir) →
        listglob (Disk.of files) fresh (chars c) quote n list statics = .error .text) := by
  intro quote behind
  induction list generalizing statics with
  | nil =>
    refine ⟨fun _ => ⟨[], _, _, rfl, kept, fun _ => List.nodup_nil, fun path => ?_⟩,
      fun disturbed => absurd (fun _ => nofun) disturbed⟩
    exact ⟨nofun, fun ⟨_, member, _⟩ => nomatch member⟩
  | cons dir list ih =>
    rw [List.forall_mem_cons] at leads nulFree nonempty
    obtain ⟨namePrefix, prefixlen, size, step⟩ :=
      listglob_cons fresh (Disk.of files) (chars c) quote n list nulFree.1 kept
    have here := dirmatch_spec leads.1 plain
      (fun _ empty => nonempty.1 (List.append_eq_nil_iff.mp empty).1) rest
    have later := ih leads.2 nulFree.2 nonempty.2 { statics with namePrefix, prefixlen } size
    rw [List.forall_mem_cons, step]
    constructor
    · rintro ⟨first, others⟩
      obtain ⟨found, looked, distinct, mem_found⟩ := here.1 first
      obtain ⟨rest, namePrefix', prefixlen', listed, size', distinct', mem_rest⟩ := later.1 others
      rw [looked, ok_bind, listed, ok_bind]
      refine ⟨found ++ rest, namePrefix', prefixlen', rfl, size', fun apart => ?_, fun path => ?_⟩
      · obtain ⟨separate, apart⟩ := List.pairwise_cons.mp apart
        refine List.nodup_append.mpr ⟨distinct, distinct' apart, ?_⟩
        rintro path inFound _ inRest rfl
        obtain ⟨name, fits, spelled, -⟩ := (mem_found path).mp inFound
        obtain ⟨dir', member, name', fits', spelled', -⟩ := (mem_rest path).mp inRest
        exact separate dir' member name name' (slash_not_mem_of_inName fits.inName)
          (slash_not_mem_of_inName fits'.inName) (spelled.symm.trans spelled')
      · rw [List.mem_append, mem_found, mem_rest]
        constructor
        · rintro (⟨name, fits, spelled, located⟩ | ⟨dir', member, rest⟩)
          · exact ⟨dir, List.mem_cons_self, name, fits, spelled, located⟩
          · exact ⟨dir', List.mem_cons_of_mem dir member, rest⟩
        · rintro ⟨dir', member, rest⟩
          rcases List.mem_cons.mp member with rfl | member
          · exact .inl rest
          · exact .inr ⟨dir', member, rest⟩
    · intro disturbed
      by_cases first : SparedIn files behind c dir
      · obtain ⟨found, looked, -⟩ := here.1 first
        rw [looked, ok_bind, later.2 fun others => disturbed ⟨first, others⟩]
        rfl
      · rw [here.2 first]
        rfl

/-! ### The loop over the components -/

/-- A list of the paths that the components up to here stand for, each once. -/
def Lists (files : Files pathSigns) (done : List (Nat × List Marked)) (list : List Text) : Prop :=
  list.Nodup ∧ ∀ path, path ∈ list ↔ Stands files done path

/-- Is the byte behind the mask of a component a `q`, in an array that the mask is copied to? -/
def behindMask (array : Text) (c : List Marked) : Bool :=
  (array.drop c.length).head? = some 'q'.toUInt8

/-- No directory that is found for the components up to here has a name that a comparison with the
next component reads behind the pattern for, and so on with the other components. -/
def Undisturbed (files : Files pathSigns) :
    List (Nat × List Marked) → Text → List (Nat × List Marked) → Prop
  | _, _, [] => True
  | done, qpat, (n, c) :: todo =>
      (∀ dir, Stands files done dir → SparedIn files (behindMask qpat c) c dir) ∧
        Undisturbed files (done ++ [(n, c)]) (maskOf c ++ qpat.drop c.length) todo

/-- The components up to here stand for no empty path. -/
def Solid (done : List (Nat × List Marked)) : Prop := ∀ dir, Spells done dir → dir ≠ []

section Components

variable {files : Files pathSigns} {done : List (Nat × List Marked)} {c : List Marked}

theorem Solid.snoc (done : List (Nat × List Marked)) (n : Nat) (c : List Marked) :
    Solid (done ++ [(n + 1, c)]) := by
  rintro path spells rfl
  obtain ⟨dir, name, -, -, same⟩ := spells_snoc_iff.mp spells
  obtain ⟨front, -⟩ := List.append_eq_nil_iff.mp same.symm
  have none := (List.append_eq_nil_iff.mp front).2
  cases none

theorem Spells.nulFree {path : Text} (spells : Spells done path) : NulFree path := by
  induction spells with
  | nil => exact nulFree_nil
  | cons fits _ ih =>
    refine nulFree_append.mpr ⟨nulFree_append.mpr ⟨fun zero => ?_, ?_⟩, ih⟩
    · exact absurd (List.eq_of_mem_replicate zero) (by decide)
    · exact nulFree_of_inName fits.inName

/-- The paths with one component more are in the directories found so far. -/
theorem stands_snoc_iff (solid : Solid done) (n : Nat) (path : Text) :
    Stands files (done ++ [(n + 1, c)]) path ↔ ∃ dir, Stands files done dir ∧
      ∃ name, NameFits c name ∧ path = dir ++ List.replicate (n + 1) '/'.toUInt8 ++ name ∧
        (files.locate path).isSome := by
  rw [Stands, spells_snoc_iff]
  constructor
  · rintro ⟨⟨dir, name, spells, fits, rfl⟩, located⟩
    refine ⟨dir, ⟨spells, ?_⟩, name, fits, rfl, located⟩
    have single := slash_not_mem_of_inName fits.inName
    have front := solid dir spells
    rw [leads_slashes files front n name single (by simp [front])] at located
    obtain ⟨place, entered⟩ := Option.isSome_iff_exists.mp located
    obtain ⟨base, based, -⟩ := Option.bind_eq_some_iff.mp entered
    exact Option.isSome_iff_exists.mpr ⟨base, based⟩
  · rintro ⟨dir, ⟨spells, -⟩, name, fits, rfl, located⟩
    exact ⟨⟨dir, name, spells, fits, rfl⟩, located⟩

/-- Where nothing is found, nothing is disturbed and nothing is found later. -/
theorem none_later (solid : Solid done) {todo : List (Nat × List Marked)}
    (separated : ∀ piece ∈ todo, piece.1 ≠ 0) (none : ∀ path, ¬Stands files done path)
    (qpat : Text) :
    Undisturbed files done qpat todo ∧ ∀ path, ¬Stands files (done ++ todo) path := by
  induction todo generalizing done qpat with
  | nil =>
    rw [List.append_nil]
    exact ⟨trivial, none⟩
  | cons piece todo ih =>
    obtain ⟨n, c⟩ := piece
    rw [List.forall_mem_cons] at separated
    obtain ⟨n, rfl⟩ := Nat.exists_eq_succ_of_ne_zero separated.1
    have none' : ∀ path, ¬Stands files (done ++ [(n + 1, c)]) path := by
      intro path stands
      obtain ⟨dir, above, -⟩ := (stands_snoc_iff solid n path).mp stands
      exact none dir above
    have later := ih (Solid.snoc done n c) separated.2 none' (maskOf c ++ qpat.drop c.length)
    rw [List.append_assoc] at later
    exact ⟨⟨fun dir stands => absurd stands (none dir), later.1⟩, later.2⟩

end Components

/-- A component is plain where the pattern has no zero byte. -/
theorem plain_firstOf {p : List Marked} (nulFree : NulFree (chars p)) : Plain (firstOf p) := by
  intro x member
  rw [chars_firstOf] at member
  have other := List.mem_takeWhile_imp member
  have among : x ∈ chars p := List.mem_of_mem_drop (List.takeWhile_sublist _ |>.subset member)
  have nonzero : x ≠ 0 := fun zero => nulFree (zero ▸ among)
  show (x != '/'.toUInt8 && x != 0) = true
  rw [other, Bool.true_and]
  exact bne_iff_ne.mpr nonzero

theorem slashes_le (s : Text) : slashes s ≤ s.length :=
  (List.takeWhile_sublist _).length_le

theorem firstOf_le (p : List Marked) :
    (firstOf p).length ≤ (p.drop (slashes (chars p))).length :=
  (List.takeWhile_sublist _).length_le

theorem drop_maskOf {n : Nat} {p : List Marked} (short : n ≤ p.length) (tail : Text) :
    (maskOf p ++ tail).drop n = maskOf (p.drop n) ++ tail := by
  rw [List.drop_append_of_le_length (by rwa [maskOf, List.length_map]), maskOf_drop]

/-- The mask of the first component is at the front of the mask of the pattern. -/
theorem take_firstOf (p : List Marked) (tail : Text) :
    (maskOf (p.drop (slashes (chars p))) ++ tail).take (firstOf p).length = maskOf (firstOf p) := by
  have front : (p.drop (slashes (chars p))).take (firstOf p).length = firstOf p :=
    (List.prefix_iff_eq_take.mp (List.takeWhile_prefix _)).symm
  have short : (firstOf p).length ≤ (maskOf (p.drop (slashes (chars p)))).length := by
    rw [maskOf, List.length_map]
    exact firstOf_le p
  rw [List.take_append_of_le_length short, maskOf, ← List.map_take, front, maskOf]

theorem nulFree_afterFirst {p : List Marked} (nulFree : NulFree (chars p)) :
    NulFree (chars (afterFirst p)) := by
  rw [afterFirst, chars_drop, chars_drop]
  exact fun zero => nulFree (List.mem_of_mem_drop (List.mem_of_mem_drop zero))

/-- The arrays when a component has been copied. -/
def Statics.round (statics : Statics) (c : List Marked) : Statics :=
  { statics with
    pat := chars c ++ [0] ++ statics.pat.drop (chars c ++ [0]).length
    qpat := maskOf c ++ statics.qpat.drop c.length }

theorem Statics.Valid.round {statics : Statics} (valid : statics.Valid) {c : List Marked}
    (short : c.length < statics.dsize) : (statics.round c).Valid := by
  have stored : (chars c ++ [0]).length ≤ statics.pat.length := by
    rw [List.length_append, length_chars, valid.pat]
    exact short
  have marks : (maskOf c).length = c.length := List.length_map _
  have marked : (maskOf c ++ statics.qpat.drop c.length).length = statics.dsize := by
    rw [List.length_append, marks, List.length_drop, valid.qpat]
    omega
  exact ⟨valid.dir, (length_stored stored).trans valid.pat, valid.qdir, marked, valid.raw,
    valid.namePrefix⟩

theorem Statics.Valid.withPrefix {statics : Statics} (valid : statics.Valid) {namePrefix : Text}
    {prefixlen : Nat} (size : namePrefix.length = prefixlen) :
    Statics.Valid { statics with namePrefix, prefixlen } :=
  ⟨valid.dir, valid.pat, valid.qdir, valid.qpat, valid.raw, size⟩

/-- A round of the loop. -/
theorem globLoop_step (disk : Disk) (p : List Marked) (tail : Text) (list : List Text)
    (statics : Statics) (pat : (firstOf p).length < statics.pat.length)
    (qpat : (firstOf p).length ≤ statics.qpat.length) (nulFree : NulFree (chars p)) :
    globLoop disk fresh (chars p) (maskOf p ++ tail) list statics =
      (listglob disk fresh (chars (firstOf p))
          (.of (.marks (maskOf (firstOf p) ++ statics.qpat.drop (firstOf p).length)))
          (slashes (chars p)) list (statics.round (firstOf p)) >>= fun result =>
        if afterFirst p ≠ [] ∧ result.1 ≠ [] then
          globLoop disk fresh (chars (afterFirst p)) (maskOf (afterFirst p) ++ tail) result.1
            result.2
        else .ok result) := by
  have within : slashes (chars p) ≤ p.length := length_chars p ▸ slashes_le (chars p)
  have length : (chars (firstOf p)).length = (firstOf p).length := length_chars _
  have marks : (maskOf (firstOf p)).length = (firstOf p).length := List.length_map _
  have room : (chars (firstOf p) ++ [0]).length ≤ statics.pat.length := by
    rw [List.length_append, length]
    exact pat
  have enough : (firstOf p).length ≤ (maskOf (p.drop (slashes (chars p))) ++ tail).length := by
    rw [List.length_append, maskOf, List.length_map]
    exact (firstOf_le p).trans (Nat.le_add_right _ _)
  have string := cstring_stored
    (nulFree_of_inName (plain_firstOf nulFree)) (statics.pat.drop (chars (firstOf p) ++ [0]).length)
  have rest : ((maskOf (p.drop (slashes (chars p))) ++ tail).drop (firstOf p).length) =
      maskOf (afterFirst p) ++ tail := drop_maskOf (firstOf_le p) tail
  have more : afterComponent (chars p) ≠ [] ↔ afterFirst p ≠ [] := by
    rw [← chars_afterFirst, chars, Ne, List.map_eq_nil_iff]
  rw [globLoop, drop_maskOf within, ← chars_firstOf, length, store_eq room, ok_bind,
    readMask_eq enough, ok_bind, take_firstOf, store_eq (marks.symm ▸ qpat), ok_bind, string,
    marks, rest]
  refine congrArg _ (funext fun result => ?_)
  obtain ⟨found, after⟩ := result
  show (if _ : _ then _ else _) = _
  by_cases goes : afterFirst p ≠ [] ∧ found ≠ []
  · rw [dif_pos ⟨more.mpr goes.1, goes.2⟩, if_pos goes, chars_afterFirst]
  · rw [dif_neg fun goes' => goes ⟨more.mp goes'.1, goes'.2⟩, if_neg goes]
    rfl

theorem drop_length_takeWhile {α : Type} (test : α → Bool) (l : List α) :
    l.drop (l.takeWhile test).length = l.dropWhile test := by
  calc l.drop (l.takeWhile test).length
      = (l.takeWhile test ++ l.dropWhile test).drop (l.takeWhile test).length := by
        rw [List.takeWhile_append_dropWhile]
    _ = l.dropWhile test := List.drop_left

theorem afterFirst_eq (p : List Marked) :
    afterFirst p = (p.drop (slashes (chars p))).dropWhile fun x => x.1 != '/'.toUInt8 :=
  drop_length_takeWhile _ _

/-- Between two components there is a slash. -/
theorem slashes_afterFirst {p : List Marked} (more : afterFirst p ≠ []) :
    slashes (chars (afterFirst p)) ≠ 0 := by
  obtain ⟨x, rest, split⟩ := List.exists_cons_of_ne_nil more
  have slash : x.1 = '/'.toUInt8 := by
    have head := List.head?_dropWhile_not (fun x : Marked => x.1 != '/'.toUInt8)
      (p.drop (slashes (chars p)))
    rw [← afterFirst_eq, split] at head
    simpa using head
  rw [split, slashes, chars_cons, List.takeWhile_cons, slash]
  exact Nat.succ_ne_zero _

theorem separated {p : List Marked} (slash : p = [] ∨ slashes (chars p) ≠ 0) :
    ∀ piece ∈ piecesOf p, piece.1 ≠ 0 := by
  induction p using piecesOf.induct with
  | case1 =>
    rw [piecesOf, dif_pos rfl]
    exact nofun
  | case2 p nonempty ih =>
    rw [piecesOf_cons nonempty, List.forall_mem_cons]
    refine ⟨slash.resolve_left nonempty, ih ?_⟩
    by_cases more : afterFirst p = []
    · exact .inl more
    · exact .inr (slashes_afterFirst more)

/-- `listglob` goes on from the paths found so far. -/
theorem listglob_lists {files : Files pathSigns} {done : List (Nat × List Marked)}
    (solid : Solid done) {c : List Marked} (plain : Plain c) (n : Nat) (rest : Text)
    {list : List Text} (lists : Lists files done list) (statics : Statics)
    (kept : statics.namePrefix.length = statics.prefixlen) :
    let quote : Quoting := .of (.marks (maskOf c ++ rest))
    let spared := ∀ dir, Stands files done dir →
      SparedIn files (rest.head? = some 'q'.toUInt8) c dir
    (spared → ∃ found namePrefix prefixlen,
      listglob (Disk.of files) fresh (chars c) quote (n + 1) list statics =
          .ok (found, { statics with namePrefix, prefixlen }) ∧
        namePrefix.length = prefixlen ∧ Lists files (done ++ [(n + 1, c)]) found) ∧
      (¬spared →
        listglob (Disk.of files) fresh (chars c) quote (n + 1) list statics = .error .text) := by
  intro quote spared
  have nonempty : ∀ dir ∈ list, dir ≠ [] :=
    fun dir member => solid dir ((lists.2 dir).mp member).1
  have searched := listglob_spec fresh plain rest list
    (fun dir member => leads_slashes files (nonempty dir member) n)
    (fun dir member => ((lists.2 dir).mp member).1.nulFree) nonempty statics kept
  have spared_iff : spared ↔
      ∀ dir ∈ list, SparedIn files (rest.head? = some 'q'.toUInt8) c dir :=
    forall_congr' fun dir => imp_congr_left (lists.2 dir).symm
  rw [spared_iff]
  refine ⟨fun all => ?_, searched.2⟩
  obtain ⟨found, namePrefix, prefixlen, globbed, size, distinct, mem_found⟩ := searched.1 all
  refine ⟨found, namePrefix, prefixlen, globbed, size, distinct ?_, fun path => ?_⟩
  · exact lists.1.imp fun other _ _ single single' same =>
      other (append_slash_inj single single' n same)
  · rw [mem_found, stands_snoc_iff solid n path]
    exact exists_congr fun dir => and_congr_left' (lists.2 dir)

/-- The paths that the components stand for are listed, unless a comparison is disturbed. -/
def Specified (files : Files pathSigns) (done : List (Nat × List Marked)) (qpat : Text)
    (todo : List (Nat × List Marked)) (outcome : Except Fault (List Text × Statics)) : Prop :=
  (Undisturbed files done qpat todo → ∃ found after, outcome = .ok (found, after) ∧ after.Valid ∧
      Lists files (done ++ todo) found) ∧
    (¬Undisturbed files done qpat todo → outcome = .error .text)

section Rounds

variable {files : Files pathSigns} {done : List (Nat × List Marked)} {list : List Text}
  {statics : Statics}

/-- Nothing is left of the pattern. -/
theorem specified_nil (lists : Lists files done list) (valid : statics.Valid) :
    Specified files done statics.qpat (piecesOf []) (.ok (list, statics)) := by
  rw [piecesOf, dif_pos rfl, Specified, List.append_nil]
  exact ⟨fun _ => ⟨list, statics, rfl, valid, lists⟩, fun disturbed => absurd trivial disturbed⟩

/-- Nothing has been found. -/
theorem specified_none (solid : Solid done) (lists : Lists files done []) (valid : statics.Valid)
    {todo : List (Nat × List Marked)} (separated : ∀ piece ∈ todo, piece.1 ≠ 0) :
    Specified files done statics.qpat todo (.ok ([], statics)) := by
  have none : ∀ path, ¬Stands files done path :=
    fun path stands => nomatch (lists.2 path).mpr stands
  have later := none_later solid separated none statics.qpat
  exact ⟨fun _ => ⟨_, _, rfl, valid, List.nodup_nil, fun path =>
    iff_of_false List.not_mem_nil (later.2 path)⟩, fun disturbed => absurd later.1 disturbed⟩

/-- The end of a round: the loop goes on if there is a component left and something found. -/
theorem specified_more (solid : Solid done) {p : List Marked}
    (slash : p = [] ∨ slashes (chars p) ≠ 0) (lists : Lists files done list)
    (valid : statics.Valid) {loop : Except Fault (List Text × Statics)}
    (goes : p ≠ [] → Specified files done statics.qpat (piecesOf p) loop) :
    Specified files done statics.qpat (piecesOf p)
      (if p ≠ [] ∧ list ≠ [] then loop else .ok (list, statics)) := by
  by_cases ends : p = []
  · subst ends
    rw [if_neg fun more => more.1 rfl]
    exact specified_nil lists valid
  · by_cases empty : list = []
    · subst empty
      rw [if_neg fun more => more.2 rfl]
      exact specified_none solid lists valid (separated slash)
    · rw [if_pos ⟨ends, empty⟩]
      exact goes ends

/-- The loop finds what the rest of the pattern stands for behind the paths found so far. -/
theorem globLoop_spec (solid : Solid done) {p : List Marked} (nonempty : p ≠ [])
    (slash : slashes (chars p) ≠ 0) (nulFree : NulFree (chars p)) (tail : Text)
    (lists : Lists files done list) (valid : statics.Valid) (room : p.length < statics.dsize) :
    Specified files done statics.qpat (piecesOf p)
      (globLoop (Disk.of files) fresh (chars p) (maskOf p ++ tail) list statics) := by
  induction p using piecesOf.induct generalizing done list statics with
  | case1 => exact absurd rfl nonempty
  | case2 p _ ih =>
    obtain ⟨n, slashcount⟩ := Nat.exists_eq_succ_of_ne_zero slash
    have short : (firstOf p).length < statics.dsize :=
      ((firstOf_le p).trans (List.length_drop.le.trans (Nat.sub_le _ _))).trans_lt room
    have searched := listglob_lists fresh solid (plain_firstOf nulFree) n
      (statics.qpat.drop (firstOf p).length) lists (statics.round (firstOf p)) valid.namePrefix
    rw [globLoop_step fresh (Disk.of files) p tail list statics (valid.pat.symm ▸ short)
      (valid.qpat.symm ▸ short.le) nulFree, slashcount, Specified, piecesOf_cons nonempty,
      slashcount, Undisturbed]
    by_cases spared : ∀ dir, Stands files done dir →
      SparedIn files (behindMask statics.qpat (firstOf p)) (firstOf p) dir
    · obtain ⟨found, namePrefix, prefixlen, globbed, size, lists'⟩ := searched.1 spared
      have valid' : Statics.Valid { statics.round (firstOf p) with namePrefix, prefixlen } :=
        (valid.round short).withPrefix size
      have more := specified_more (Solid.snoc done n (firstOf p))
        (Classical.or_iff_not_imp_left.mpr slashes_afterFirst) lists' valid' fun goes =>
          ih (Solid.snoc done n _) goes (slashes_afterFirst goes) (nulFree_afterFirst nulFree)
            lists' valid' ((afterFirst_lt nonempty).trans room)
      rw [globbed, ok_bind, and_iff_right spared]
      rw [Specified, List.append_assoc] at more
      exact more
    · rw [searched.2 spared]
      exact ⟨fun undisturbed => absurd undisturbed.1 spared, fun _ => rfl⟩

end Rounds

/-! ### A whole pattern -/

/-- The directory that the first component is looked for in. -/
def firstDirectory (n : Nat) : Text := if n = 0 then lit "." else List.replicate n '/'.toUInt8

/-- No comparison of a name with a component of the pattern reads behind the component, in the
arrays as the calls before have left them. -/
def Harmless (files : Files pathSigns) (statics : Statics) (p : List Marked) : Prop :=
  let arrays := statics.reserve fresh (p.length + 1)
  match piecesOf p with
  | [] => True
  | (n, c) :: todo =>
      SparedIn files (behindMask (if n = 0 then arrays.qdir else arrays.qpat) c) c
          (firstDirectory n) ∧
        Undisturbed files [(n, c)]
          (if n = 0 then arrays.qpat else maskOf c ++ arrays.qpat.drop c.length) todo

theorem slashes_behind (p : List Marked) : slashes (chars (p.drop (slashes (chars p)))) = 0 := by
  have rest : chars (p.drop (slashes (chars p))) =
      (chars p).dropWhile fun x => x == '/'.toUInt8 :=
    (chars_drop _ p).trans (drop_length_takeWhile _ _)
  rw [rest, slashes, List.length_eq_zero_iff]
  cases split : (chars p).dropWhile fun x => x == '/'.toUInt8 with
  | nil => rfl
  | cons x rest =>
    have head := List.head?_dropWhile_not (fun x : UInt8 => x == '/'.toUInt8) (chars p)
    rw [split] at head
    have other : (x == '/'.toUInt8) = false := by simpa using head
    rw [List.takeWhile_cons, other, if_neg Bool.false_ne_true]

theorem firstOf_behind (p : List Marked) : firstOf (p.drop (slashes (chars p))) = firstOf p := by
  rw [firstOf, slashes_behind, List.drop_zero]
  rfl

theorem afterFirst_behind (p : List Marked) :
    afterFirst (p.drop (slashes (chars p))) = afterFirst p := by
  rw [afterFirst, slashes_behind, firstOf_behind, List.drop_zero]
  rfl

/-- What the first component alone spells. -/
theorem spells_single_iff {n : Nat} {c : List Marked} {path : Text} :
    Spells [(n, c)] path ↔
      ∃ name, NameFits c name ∧ path = List.replicate n '/'.toUInt8 ++ name := by
  rw [show [(n, c)] = [] ++ [(n, c)] from rfl, spells_snoc_iff]
  constructor
  · rintro ⟨dir, name, spells, fits, rfl⟩
    cases spells
    exact ⟨name, fits, rfl⟩
  · rintro ⟨name, fits, rfl⟩
    exact ⟨[], name, .nil, fits, rfl⟩

theorem solid_single {n : Nat} {c : List Marked} (nonempty : n = 0 → c ≠ []) : Solid [(n, c)] := by
  cases n with
  | succ n => exact Solid.snoc [] n c
  | zero =>
    rintro path spells rfl
    obtain ⟨name, fits, same⟩ := spells_single_iff.mp spells
    have named := fits.named
    rw [if_neg (nonempty rfl)] at named
    exact named.1 (List.append_eq_nil_iff.mp same.symm).2

/-- What the first component alone stands for. -/
theorem stands_single_iff {files : Files pathSigns} {n : Nat} {c : List Marked} (path : Text) :
    Stands files [(n, c)] path ↔ ∃ name, NameFits c name ∧
      path = List.replicate n '/'.toUInt8 ++ name ∧ (files.locate path).isSome := by
  rw [Stands, spells_single_iff]
  exact ⟨fun ⟨⟨name, fits, same⟩, located⟩ => ⟨name, fits, same, located⟩,
    fun ⟨name, fits, same, located⟩ => ⟨⟨name, fits, same⟩, located⟩⟩

theorem firstOf_ne_nil {p : List Marked} (nonempty : p ≠ []) (none : slashes (chars p) = 0) :
    firstOf p ≠ [] := by
  intro empty
  have whole : afterFirst p = p := by
    rw [afterFirst, none, empty]
    rfl
  have more : afterFirst p ≠ [] := by
    rw [whole]
    exact nonempty
  have slash := slashes_afterFirst more
  rw [whole] at slash
  exact slash none

/-- The arrays behind the first copy. -/
def Statics.first (statics : Statics) (bytes marks : Text) : Statics :=
  { statics with
    dir := bytes ++ [0] ++ statics.dir.drop (bytes ++ [0]).length
    qdir := marks ++ statics.qdir.drop marks.length }

theorem Statics.Valid.first {statics : Statics} (valid : statics.Valid) (bytes marks : Text)
    (short : bytes.length < statics.dsize) (short' : marks.length ≤ statics.dsize) :
    (statics.first bytes marks).Valid := by
  have room : (bytes ++ [0]).length ≤ statics.dir.length := by
    rw [List.length_append, valid.dir]
    exact short
  exact ⟨(length_stored room).trans valid.dir, valid.pat,
    (length_stored (valid.qdir.symm ▸ short')).trans valid.qdir, valid.qpat, valid.raw,
    valid.namePrefix⟩

/-- The beginning of `glob1`. -/
theorem glob1_first (disk : Disk) {p : List Marked} {quote : Mask} (unquoted : quote ≠ .QUOTED)
    {statics : Statics} (valid : statics.Valid) {tail : Text}
    (mask : (if quote = .UNQUOTED then (statics.reserve fresh (p.length + 1)).raw
      else quote.bytes) = maskOf p ++ tail)
    {n : Nat} (copied : ((chars p).takeWhile fun c =>
      (c == '/'.toUInt8) == decide ((chars p).head? = some '/'.toUInt8)).length = n)
    (nulFree : NulFree (chars p)) :
    let arrays := statics.reserve fresh (p.length + 1)
    let after := arrays.first (chars (p.take n)) (maskOf (p.take n))
    glob1 disk fresh (chars p) quote statics =
      if p.drop n = [] then
        dirmatch disk [] (lit ".") (chars (p.take n)) (.of (.marks after.qdir)) >>= fun list =>
          .ok (list, after)
      else
        (if (chars p).head? = some '/'.toUInt8 then .ok [chars (p.take n)]
          else dirmatch disk [] (lit ".") (chars (p.take n)) (.of (.marks after.qdir))) >>=
            fun matched =>
              globLoop disk fresh (chars (p.drop n)) (maskOf (p.drop n) ++ tail) matched after := by
  intro arrays after
  have first : ((chars p).takeWhile fun c =>
      (c == '/'.toUInt8) == decide ((chars p).head? = some '/'.toUInt8)) = chars (p.take n) := by
    rw [List.prefix_iff_eq_take.mp (List.takeWhile_prefix _), copied, chars, chars, List.map_take]
  have count : (chars (p.take n)).length = n := by
    rw [← first, copied]
  have within : n ≤ p.length := by
    rw [← copied, ← length_chars p]
    exact (List.takeWhile_sublist _).length_le
  obtain ⟨valid', roomy⟩ := valid.reserve fresh (p.length + 1)
  have room : (chars (p.take n) ++ [0]).length ≤ arrays.dir.length := by
    rw [List.length_append, count, valid'.dir]
    exact (Nat.succ_le_succ within).trans roomy
  have marks : (maskOf (p.take n)).length = n := by
    rw [maskOf, List.length_map, List.length_take_of_le within]
  have taken : (maskOf p ++ tail).take n = maskOf (p.take n) := by
    rw [List.take_append_of_le_length (by rwa [maskOf, List.length_map]), maskOf, maskOf,
      List.map_take]
  have enough : n ≤ (maskOf p ++ tail).length := by
    rw [List.length_append, maskOf, List.length_map]
    exact within.trans (Nat.le_add_right _ _)
  have copies : (maskOf (p.take n)).length ≤ arrays.qdir.length := by
    rw [marks, valid'.qdir]
    exact (within.trans (Nat.le_succ _)).trans roomy
  have ends : NulFree (chars (p.take n)) := by
    rw [chars, List.map_take]
    exact fun zero => nulFree (List.mem_of_mem_take zero)
  have none : (chars p).drop n = [] ↔ p.drop n = [] := by
    rw [← chars_drop, chars, List.map_eq_nil_iff]
  rw [glob1, if_neg unquoted, length_chars]
  dsimp only
  rw [mask, first, count, store_eq room, ok_bind, readMask_eq enough, ok_bind, taken,
    store_eq copies, ok_bind, cstring_stored ends, drop_maskOf within]
  by_cases whole : p.drop n = []
  · rw [if_pos whole, if_pos (none.mpr whole)]
    rfl
  · rw [if_neg whole, if_neg (mt none.mp whole), chars_drop]
    by_cases absolute : (chars p).head? = some '/'.toUInt8
    · rw [if_pos absolute, decide_eq_true absolute]
      rfl
    · rw [if_neg absolute, decide_eq_false absolute]
      rfl

section First

variable {files : Files pathSigns} {p : List Marked} {quote : Mask} {statics : Statics}

/-- The mask that `glob1` reads is the mask of the pattern. -/
theorem glob1_mask {pattern : Text} (fits : quote.Fits pattern) (unquoted : quote ≠ .QUOTED)
    (valid : statics.Valid) (room : pattern.length ≤ statics.dsize) :
    ∃ tail, (if quote = .UNQUOTED then statics.raw else quote.bytes) =
      maskOf (quote.marked pattern) ++ tail := by
  cases quote with
  | QUOTED => exact absurd rfl unquoted
  | UNQUOTED =>
    refine ⟨List.replicate (statics.dsize - pattern.length) 'r'.toUInt8, ?_⟩
    have marks : maskOf (Mask.UNQUOTED.marked pattern) =
        List.replicate pattern.length 'r'.toUInt8 := by
      rw [maskOf, Mask.marked, List.map_map]
      exact List.map_const' ..
    rw [if_pos rfl, valid.raw, marks, List.replicate_append_replicate, Nat.add_sub_cancel' room]
  | marks m =>
    refine ⟨[0], ?_⟩
    rw [if_neg (by simp), Mask.marked, maskOf_masked fits]
    rfl

/-- What `glob1` comes to, where nothing reads behind a component and where something does. -/
def Globs (files : Files pathSigns) (statics : Statics) (p : List Marked)
    (outcome : Except Fault (List Text × Statics)) : Prop :=
  (Harmless fresh files statics p → ∃ found after, outcome = .ok (found, after) ∧ after.Valid ∧
      Lists files (piecesOf p) found) ∧
    (¬Harmless fresh files statics p → outcome = .error .text)

theorem head_of_relative (relative : slashes (chars p) = 0) :
    ¬(chars p).head? = some '/'.toUInt8 := by
  intro absolute
  obtain ⟨rest, split⟩ := List.head?_eq_some_iff.mp absolute
  rw [split, slashes, List.takeWhile_cons, beq_self_eq_true, if_pos rfl] at relative
  cases relative

/-- `glob1` on a relative pattern. -/
theorem glob1_relative (nonempty : p ≠ []) (unquoted : quote ≠ .QUOTED)
    (relative : slashes (chars p) = 0) (nulFree : NulFree (chars p)) (valid : statics.Valid)
    {tail : Text} (mask : (if quote = .UNQUOTED then (statics.reserve fresh (p.length + 1)).raw
      else quote.bytes) = maskOf p ++ tail) :
    Globs fresh files statics p (glob1 (Disk.of files) fresh (chars p) quote statics) := by
  have head := head_of_relative relative
  have component_eq : ((chars p).takeWhile fun c =>
      (c == '/'.toUInt8) == decide ((chars p).head? = some '/'.toUInt8)) = chars (firstOf p) := by
    rw [chars_firstOf, relative, List.drop_zero, component, decide_eq_false head]
    congr 1
    funext c
    cases h : c == '/'.toUInt8 <;> simp [bne, h]
  have copied := congrArg List.length component_eq
  rw [length_chars] at copied
  have taken : p.take (firstOf p).length = firstOf p := by
    have front := List.prefix_iff_eq_take.mp
      (List.takeWhile_prefix (l := p.drop (slashes (chars p))) fun x => x.1 != '/'.toUInt8)
    rw [relative, List.drop_zero] at front
    have first : firstOf p = p.takeWhile fun x => x.1 != '/'.toUInt8 := by
      rw [firstOf, relative, List.drop_zero]
    rw [first]
    exact front.symm
  have dropped : p.drop (firstOf p).length = afterFirst p := by
    rw [afterFirst, relative, List.drop_zero]
  obtain ⟨valid', roomy⟩ := valid.reserve fresh (p.length + 1)
  have marks : (maskOf (firstOf p)).length = (firstOf p).length := List.length_map _
  have short : (firstOf p).length < (statics.reserve fresh (p.length + 1)).dsize :=
    ((firstOf_le p).trans (List.length_drop.le.trans (Nat.sub_le _ _))).trans_lt roomy
  have after_valid := valid'.first (chars (firstOf p)) (maskOf (firstOf p))
    (length_chars (firstOf p) ▸ short) (marks ▸ short.le)
  have searched := dirmatch_spec (leads_dot files) (plain_firstOf nulFree)
    (fun empty => absurd empty (firstOf_ne_nil nonempty relative))
    ((statics.reserve fresh (p.length + 1)).qdir.drop (firstOf p).length)
  have unfolded := glob1_first fresh (Disk.of files) unquoted valid mask copied nulFree
  rw [taken, dropped] at unfolded
  have pieces : piecesOf p = (0, firstOf p) :: piecesOf (afterFirst p) := by
    rw [piecesOf_cons nonempty, relative]
  rw [Globs, unfolded, Harmless, pieces]
  dsimp only
  generalize statics.reserve fresh (p.length + 1) = arrays at *
  have qdir_eq : (arrays.first (chars (firstOf p)) (maskOf (firstOf p))).qdir =
      maskOf (firstOf p) ++ arrays.qdir.drop (firstOf p).length := by
    rw [Statics.first, marks]
  rw [if_pos rfl, if_pos rfl, firstDirectory, if_pos rfl, if_neg head, qdir_eq]
  by_cases spared : SparedIn files (behindMask arrays.qdir (firstOf p)) (firstOf p) (lit ".")
  · obtain ⟨list, matched, distinct, mem_list⟩ := searched.1 spared
    have lists : Lists files [(0, firstOf p)] list :=
      ⟨distinct, fun path => (mem_list path).trans (stands_single_iff (n := 0) path).symm⟩
    have rest : Specified files [(0, firstOf p)] arrays.qpat (piecesOf (afterFirst p))
        (if afterFirst p = [] then
          .ok (list, arrays.first (chars (firstOf p)) (maskOf (firstOf p)))
        else globLoop (Disk.of files) fresh (chars (afterFirst p)) (maskOf (afterFirst p) ++ tail)
          list (arrays.first (chars (firstOf p)) (maskOf (firstOf p)))) := by
      by_cases ends : afterFirst p = []
      · rw [if_pos ends, ends]
        exact specified_nil lists after_valid
      · rw [if_neg ends]
        exact globLoop_spec fresh (solid_single fun _ => firstOf_ne_nil nonempty relative) ends
          (slashes_afterFirst ends) (nulFree_afterFirst nulFree) tail lists after_valid
          ((afterFirst_lt nonempty).trans roomy)
    rw [matched, ok_bind, ok_bind, and_iff_right spared]
    exact rest
  · rw [searched.2 spared]
    refine ⟨fun harmless => absurd harmless.1 spared, fun _ => ?_⟩
    split
    · rfl
    · rfl

/-- `glob1` on an absolute pattern. -/
theorem glob1_absolute (unquoted : quote ≠ .QUOTED) {n : Nat}
    (absolute : slashes (chars p) = n + 1) (more : p.drop (n + 1) ≠ [])
    (nulFree : NulFree (chars p)) (valid : statics.Valid)
    {tail : Text} (mask : (if quote = .UNQUOTED then (statics.reserve fresh (p.length + 1)).raw
      else quote.bytes) = maskOf p ++ tail) :
    Globs fresh files statics p (glob1 (Disk.of files) fresh (chars p) quote statics) := by
  have head : (chars p).head? = some '/'.toUInt8 := by
    by_contra relative
    cases split : chars p with
    | nil =>
      rw [split] at absolute
      cases absolute
    | cons c rest =>
      rw [split] at absolute relative
      have other : (c == '/'.toUInt8) = false :=
        beq_eq_false_iff_ne.mpr fun same => relative (congrArg some same)
      rw [slashes, List.takeWhile_cons, other, if_neg Bool.false_ne_true] at absolute
      cases absolute
  have nonempty : p ≠ [] := by
    rintro rfl
    cases absolute
  have run_eq : ((chars p).takeWhile fun c =>
      (c == '/'.toUInt8) == decide ((chars p).head? = some '/'.toUInt8)) =
        (chars p).takeWhile fun c => c == '/'.toUInt8 := by
    rw [decide_eq_true head]
    congr 1
    funext c
    exact beq_true _
  have copied := (congrArg List.length run_eq).trans absolute
  have taken : chars (p.take (n + 1)) = List.replicate (n + 1) '/'.toUInt8 := by
    have front := List.prefix_iff_eq_take.mp
      (List.takeWhile_prefix (l := chars p) fun c => c == '/'.toUInt8)
    rw [show ((chars p).takeWhile fun c => c == '/'.toUInt8).length = n + 1 from absolute] at front
    rw [chars, List.map_take]
    refine front.symm.trans (List.eq_replicate_iff.mpr ⟨absolute, fun c member => ?_⟩)
    exact eq_of_beq (List.mem_takeWhile_imp (p := fun c => c == '/'.toUInt8) member)
  obtain ⟨valid', roomy⟩ := valid.reserve fresh (p.length + 1)
  have unfolded := glob1_first fresh (Disk.of files) unquoted valid mask copied nulFree
  rw [taken] at unfolded
  have pieces : piecesOf p = (n + 1, firstOf p) :: piecesOf (afterFirst p) := by
    rw [piecesOf_cons nonempty, absolute]
  rw [Globs, unfolded, Harmless, pieces]
  dsimp only
  generalize statics.reserve fresh (p.length + 1) = arrays at *
  have behind : p.drop (n + 1) = p.drop (slashes (chars p)) := by rw [absolute]
  have first : firstOf (p.drop (n + 1)) = firstOf p := by rw [behind, firstOf_behind]
  have rest : afterFirst (p.drop (n + 1)) = afterFirst p := by rw [behind, afterFirst_behind]
  have none : slashes (chars (p.drop (n + 1))) = 0 := by rw [behind, slashes_behind]
  have nulFree' : NulFree (chars (p.drop (n + 1))) := by
    rw [chars_drop]
    exact fun zero => nulFree (List.mem_of_mem_drop zero)
  have short : (firstOf p).length < arrays.dsize :=
    ((firstOf_le p).trans (List.length_drop.le.trans (Nat.sub_le _ _))).trans_lt roomy
  have run_short : n + 1 ≤ p.length := by
    rw [← absolute, ← length_chars p]
    exact slashes_le _
  have marks : (maskOf (p.take (n + 1))).length = n + 1 := by
    rw [maskOf, List.length_map, List.length_take_of_le run_short]
  have after_valid : (arrays.first (List.replicate (n + 1) '/'.toUInt8)
      (maskOf (p.take (n + 1)))).Valid := by
    refine valid'.first _ _ ?_ ?_
    · rw [List.length_replicate]
      exact run_short.trans_lt roomy
    · rw [marks]
      exact run_short.trans (Nat.le_of_lt roomy)
  generalize after_eq : arrays.first (List.replicate (n + 1) '/'.toUInt8)
    (maskOf (p.take (n + 1))) = after at *
  have same_qpat : after.qpat = arrays.qpat := by
    rw [← after_eq]
    rfl
  have same_dsize : after.dsize = arrays.dsize := by
    rw [← after_eq]
    rfl
  have root_leads : Leads files (List.replicate (n + 1) '/'.toUInt8 ++ List.replicate 0 '/'.toUInt8)
      (List.replicate (n + 1) '/'.toUInt8) := by
    rw [List.replicate_zero, List.append_nil]
    exact leads_absolute files n
  have searched := listglob_spec fresh (plain_firstOf nulFree)
    (arrays.qpat.drop (firstOf p).length) [List.replicate (n + 1) '/'.toUInt8]
    (List.forall_mem_singleton.mpr root_leads)
    (List.forall_mem_singleton.mpr fun zero =>
      absurd (List.eq_of_mem_replicate zero) (by decide))
    (List.forall_mem_singleton.mpr (List.cons_ne_nil _ _))
    (after.round (firstOf p)) after_valid.namePrefix
  have step := globLoop_step fresh (Disk.of files) (p.drop (n + 1)) tail
    [List.replicate (n + 1) '/'.toUInt8] after
    (by rw [first, after_valid.pat, same_dsize]; exact short)
    (by rw [first, after_valid.qpat, same_dsize]; exact short.le) nulFree'
  rw [first, rest, none, same_qpat] at step
  rw [if_neg more, if_pos head, ok_bind, step, if_neg (Nat.succ_ne_zero n),
    if_neg (Nat.succ_ne_zero n), firstDirectory, if_neg (Nat.succ_ne_zero n)]
  by_cases spared : SparedIn files (behindMask arrays.qpat (firstOf p)) (firstOf p)
    (List.replicate (n + 1) '/'.toUInt8)
  · obtain ⟨found, namePrefix, prefixlen, globbed, size, distinct, mem_found⟩ :=
      searched.1 (List.forall_mem_singleton.mpr spared)
    have lists : Lists files [(n + 1, firstOf p)] found := by
      refine ⟨distinct (List.pairwise_singleton _ _), fun path => ?_⟩
      rw [mem_found, stands_single_iff]
      simp only [List.mem_singleton, exists_eq_left, List.replicate_zero, List.append_nil]
    have valid'' : Statics.Valid { after.round (firstOf p) with namePrefix, prefixlen } :=
      (after_valid.round (same_dsize ▸ short)).withPrefix size
    have goes := specified_more (Solid.snoc [] n (firstOf p))
      (Classical.or_iff_not_imp_left.mpr slashes_afterFirst) lists valid'' fun ends =>
        globLoop_spec fresh (Solid.snoc [] n (firstOf p)) ends (slashes_afterFirst ends)
          (nulFree_afterFirst nulFree) tail lists valid''
          (((afterFirst_lt nonempty).trans roomy).trans_le same_dsize.ge)
    rw [globbed, ok_bind, and_iff_right spared, ← same_qpat]
    exact goes
  · rw [searched.2 fun all => spared (List.forall_mem_singleton.mp all)]
    exact ⟨fun harmless => absurd harmless.1 spared, fun _ => rfl⟩

/-- A pattern with a wildcard has a component behind its slashes. -/
theorem behind_ne_nil {n : Nat} (absolute : slashes (chars p) = n + 1)
    (wild : p.any Marked.isWild = true) : p.drop (n + 1) ≠ [] := by
  intro none
  have run : (chars p).takeWhile (fun c => c == '/'.toUInt8) = chars p := by
    refine (List.takeWhile_prefix _).eq_of_length_le ?_
    rw [show ((chars p).takeWhile fun c => c == '/'.toUInt8).length = n + 1 from absolute,
      length_chars]
    exact List.drop_eq_nil_iff.mp none
  obtain ⟨x, member, isWild⟩ := List.any_eq_true.mp wild
  have among : x.1 ∈ chars p := List.mem_map_of_mem member
  rw [← run] at among
  have slash : x.1 = '/'.toUInt8 :=
    eq_of_beq (List.mem_takeWhile_imp (p := fun c => c == '/'.toUInt8) among)
  rw [Marked.isWild, slash] at isWild
  exact absurd (Bool.and_eq_true_iff.mp isWild).2 (by decide)

/-- `glob1` lists the paths that the pattern stands for, unless it reads behind a component. -/
theorem glob1_spec (files : Files pathSigns) {pattern : Text} (fits : quote.Fits pattern)
    (nulFree : NulFree pattern) (wild : (quote.marked pattern).any Marked.isWild = true)
    (valid : statics.Valid) :
    Globs fresh files statics (quote.marked pattern)
      (glob1 (Disk.of files) fresh pattern quote statics) := by
  have unquoted : quote ≠ .QUOTED := by
    rintro rfl
    rw [Mask.marked, List.any_map] at wild
    obtain ⟨c, -, isWild⟩ := List.any_eq_true.mp wild
    cases isWild
  have length : (quote.marked pattern).length = pattern.length := by
    rw [← length_chars, chars_marked fits]
  obtain ⟨valid', roomy⟩ := valid.reserve fresh ((quote.marked pattern).length + 1)
  obtain ⟨tail, mask⟩ := glob1_mask fits unquoted valid'
    (length ▸ (Nat.le_succ _).trans roomy)
  rw [← chars_marked fits] at nulFree
  have nonempty : quote.marked pattern ≠ [] := by
    intro empty
    rw [empty] at wild
    cases wild
  have globbed : Globs fresh files statics (quote.marked pattern)
      (glob1 (Disk.of files) fresh (chars (quote.marked pattern)) quote statics) := by
    cases count : slashes (chars (quote.marked pattern)) with
    | zero => exact glob1_relative fresh nonempty unquoted count nulFree valid mask
    | succ n =>
      exact glob1_absolute fresh unquoted count (behind_ne_nil count wild) nulFree valid mask
  rwa [chars_marked fits] at globbed

end First

end Desh
