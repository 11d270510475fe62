/-
This file is about trees of files and directories and the paths that name what
is in them. The alphabet of the names is any type with two characters singled
out, the one that separates the components of a path and the one that the names
`.` and `..` are made of.

A path is followed from a place, which is the list of the nodes from there up to
the root. It is read character by character, so that the lemmas about paths are
inductions over lists.
-/

import Mathlib.Tactic

namespace FileTree

/-- The characters with a meaning, and the ones that a name may have. -/
structure Signs (α : Type) where
  slash : α
  dot : α
  inName : α → Bool
  slash_out : inName slash = false
  dot_in : inName dot = true

/-- A file, or a directory with its entries. -/
inductive Node (α : Type) where
  | file
  | directory (entries : List (List α × Node α))

variable {α : Type} (signs : Signs α)

/-- A name that a component of a path can have. -/
def Signs.IsName (name : List α) : Prop :=
  name ≠ [] ∧ ∀ c ∈ name, signs.inName c = true

/-- The names that every directory has. -/
def Signs.own : List (List α) := [[signs.dot], [signs.dot, signs.dot]]

/-- Every directory of the tree has entries with different names, none of them `.` or `..`. -/
inductive Node.Valid : Node α → Prop where
  | file : Valid .file
  | directory {entries : List (List α × Node α)}
      (named : ∀ entry ∈ entries, signs.IsName entry.1 ∧ entry.1 ∉ signs.own)
      (distinct : (entries.map Prod.fst).Nodup) (below : ∀ entry ∈ entries, Valid entry.2) :
      Valid (.directory entries)

/-- The nodes from a place of the tree up to its root. -/
inductive Place (root : Node α) : List (Node α) → Prop where
  | root : Place root [root]
  | inside {entries : List (List α × Node α)} {up : List (Node α)}
      (place : Place root (.directory entries :: up)) {name : List α} {node : Node α}
      (member : (name, node) ∈ entries) : Place root (node :: .directory entries :: up)

/-- A tree with a current directory. -/
structure Files where
  root : Node α
  valid : root.Valid signs
  entries : List (List α × Node α)
  up : List (Node α)
  place : Place root (.directory entries :: up)

variable {signs}

theorem Place.valid {root : Node α} {place : List (Node α)} (here : Place root place)
    (valid : root.Valid signs) : ∀ node ∈ place, node.Valid signs := by
  induction here with
  | root =>
    intro node member
    rw [List.mem_singleton.mp member]
    exact valid
  | inside place member ih =>
    intro node among
    rcases List.mem_cons.mp among with rfl | above
    · cases ih _ List.mem_cons_self with
      | directory _ _ below => exact below _ member
    · exact ih node above

theorem Place.up {root node next : Node α} {up : List (Node α)}
    (place : Place root (node :: next :: up)) : Place root (next :: up) := by
  cases place with
  | inside place _ => exact place

variable [DecidableEq α]

/-! ### Following a path -/

section Following

variable (signs)

/-- The place a component leads to. An empty one stays, like `.`; the root is its own parent. -/
def enter (place : List (Node α)) (name : List α) : Option (List (Node α)) :=
  match place with
  | .directory entries :: up =>
      if name = [] ∨ name = [signs.dot] then some place
      else if name = [signs.dot, signs.dot] then
        match up with
        | [] => some place
        | next :: up => some (next :: up)
      else (entries.lookup name).map fun node => node :: .directory entries :: up
  | _ => none

/-- The place a path leads to, of whose first component `name` has been read. -/
def follow (place : List (Node α)) (name : List α) : List α → Option (List (Node α))
  | [] => enter signs place name
  | c :: path =>
      if c = signs.slash then (enter signs place name).bind fun place => follow place [] path
      else follow place (name ++ [c]) path

/-- The names in a directory. -/
def names (entries : List (List α × Node α)) : List (List α) :=
  signs.own ++ entries.map Prod.fst

end Following

/-- The names in the directory at a place. -/
def listing (signs : Signs α) : List (Node α) → Option (List (List α))
  | .directory entries :: _ => some (names signs entries)
  | _ => none

theorem enter_directory (entries : List (List α × Node α)) (up : List (Node α)) (name : List α) :
    enter signs (.directory entries :: up) name =
      if name = [] ∨ name = [signs.dot] then some (.directory entries :: up)
      else if name = [signs.dot, signs.dot] then
        match up with
        | [] => some (.directory entries :: up)
        | next :: up => some (next :: up)
      else (entries.lookup name).map fun node => node :: .directory entries :: up := rfl

theorem follow_cons (place : List (Node α)) (name : List α) (c : α) (path : List α) :
    follow signs place name (c :: path) =
      if c = signs.slash then (enter signs place name).bind fun place => follow signs place [] path
      else follow signs place (name ++ [c]) path := rfl

theorem enter_place {root : Node α} {place next : List (Node α)} {name : List α}
    (here : Place root place) (entered : enter signs place name = some next) :
    Place root next := by
  match place, entered with
  | .directory entries :: up, entered =>
    rw [enter_directory] at entered
    split at entered
    · cases entered
      exact here
    · split at entered
      · cases up with
        | nil =>
          cases entered
          exact here
        | cons above up =>
          cases entered
          exact here.up
      · obtain ⟨node, found, rfl⟩ := Option.map_eq_some_iff.mp entered
        obtain ⟨front, back, rfl, -⟩ := List.lookup_eq_some_iff.mp found
        exact .inside here (List.mem_append_right front List.mem_cons_self)

theorem follow_place {root : Node α} {path : List α} {place next : List (Node α)} {name : List α}
    (here : Place root place) (followed : follow signs place name path = some next) :
    Place root next := by
  induction path generalizing place name with
  | nil => exact enter_place here followed
  | cons c path ih =>
    rw [follow_cons] at followed
    split at followed
    · obtain ⟨middle, entered, rest⟩ := Option.bind_eq_some_iff.mp followed
      exact ih (enter_place here entered) rest
    · exact ih here followed

/-- A path is followed up to one of its slashes first. -/
theorem follow_append_slash (place : List (Node α)) (name path rest : List α) :
    follow signs place name (path ++ signs.slash :: rest) =
      (follow signs place name path).bind fun place => follow signs place [] rest := by
  induction path generalizing place name with
  | nil =>
    rw [List.nil_append, follow_cons, if_pos rfl]
    rfl
  | cons c path ih =>
    rw [List.cons_append, follow_cons, follow_cons]
    split
    · rw [Option.bind_assoc]
      exact congrArg _ (funext fun place => ih place [])
    · exact ih place (name ++ [c])

/-- The last component. -/
theorem follow_name {last : List α} (single : signs.slash ∉ last) (place : List (Node α))
    (name : List α) : follow signs place name last = enter signs place (name ++ last) := by
  induction last generalizing name with
  | nil => rw [follow, List.append_nil]
  | cons c last ih =>
    obtain ⟨other, single⟩ := not_or.mp (mt List.mem_cons.mpr single)
    rw [follow_cons, if_neg fun same => other same.symm, ih single, List.append_assoc]
    rfl

theorem enter_nil_bind (place : List (Node α)) (name : List α) :
    ((enter signs place []).bind fun place => enter signs place name) =
      enter signs place name := by
  match place with
  | [] | .file :: _ => rfl
  | .directory entries :: up => rfl

/-- Several slashes are one. -/
theorem follow_slashes {last : List α} (single : signs.slash ∉ last) (n : Nat)
    (place : List (Node α)) :
    follow signs place [] (List.replicate n signs.slash ++ last) = enter signs place last := by
  induction n with
  | zero => exact follow_name single place []
  | succ n ih =>
    rw [List.replicate_succ, List.cons_append, follow_cons, if_pos rfl, ← enter_nil_bind place last]
    match place with
    | [] | .file :: _ => rfl
    | .directory entries :: up => exact ih

/-! ### Names -/

omit [DecidableEq α] in
theorem Signs.isName_own {name : List α} (own : name ∈ signs.own) : signs.IsName name := by
  rcases List.mem_cons.mp own with rfl | own
  · exact ⟨List.cons_ne_nil _ _, by simp [signs.dot_in]⟩
  · rw [List.mem_singleton.mp own]
    exact ⟨List.cons_ne_nil _ _, by simp [signs.dot_in]⟩

omit [DecidableEq α] in
theorem Signs.IsName.slash_not_mem {name : List α} (isName : signs.IsName name) :
    signs.slash ∉ name :=
  fun member => absurd ((isName.2 _ member).symm.trans signs.slash_out) nofun

/-- A name leads somewhere just where it is in the directory. -/
theorem isSome_enter_iff {place : List (Node α)} {name : List α} (isName : signs.IsName name) :
    (enter signs place name).isSome ↔ ∃ list, listing signs place = some list ∧ name ∈ list := by
  match place with
  | [] | .file :: _ => exact ⟨nofun, nofun⟩
  | .directory entries :: up =>
    rw [listing, enter_directory]
    simp only [Option.some.injEq, exists_eq_left', names, List.mem_append, Signs.own,
      List.mem_cons, List.not_mem_nil, or_false]
    split
    · rename_i stays
      exact iff_of_true rfl (.inl (.inl (stays.resolve_left isName.1)))
    · rename_i moves
      split
      · rename_i parent
        refine iff_of_true ?_ (.inl (.inr parent))
        cases up with
        | nil => rfl
        | cons _ _ => rfl
      · rename_i other
        rw [Option.isSome_map, List.lookup_isSome_iff]
        constructor
        · rintro ⟨entry, member, same⟩
          exact .inr (List.mem_map.mpr ⟨entry, member, (eq_of_beq same).symm⟩)
        · rintro ((this | parent) | member)
          · exact absurd (.inr this) moves
          · exact absurd parent other
          · obtain ⟨entry, among, rfl⟩ := List.mem_map.mp member
            exact ⟨entry, among, beq_self_eq_true _⟩

/-- Only a directory leads on. -/
theorem listing_of_enter {place next : List (Node α)} {name : List α}
    (entered : enter signs place name = some next) : (listing signs place).isSome := by
  match place, entered with
  | .directory entries :: up, _ => rfl

omit [DecidableEq α] in
/-- The names in a directory of a tree are names, and different ones. -/
theorem listing_valid {root : Node α} (valid : root.Valid signs) {place : List (Node α)}
    (here : Place root place) {list : List (List α)} (listed : listing signs place = some list) :
    list.Nodup ∧ ∀ name ∈ list, signs.IsName name := by
  match place, listed with
  | .directory entries :: up, listed =>
    cases listed
    cases here.valid valid _ List.mem_cons_self with
    | directory named distinct _ =>
      refine ⟨List.nodup_append.mpr ⟨?_, distinct, ?_⟩, ?_⟩
      · simp [Signs.own]
      · rintro name own _ member rfl
        obtain ⟨entry, among, rfl⟩ := List.mem_map.mp member
        exact (named entry among).2 own
      · intro name member
        rcases List.mem_append.mp member with own | member
        · exact signs.isName_own own
        · obtain ⟨entry, among, rfl⟩ := List.mem_map.mp member
          exact (named entry among).1

/-! ### Paths -/

namespace Files

variable (files : Files signs)

/-- The place of a path: of an absolute one from the root on, of another one from the current
directory on. The empty path has none. -/
def locate (path : List α) : Option (List (Node α)) :=
  match path with
  | [] => none
  | c :: path =>
      follow signs (if c = signs.slash then [files.root] else .directory files.entries :: files.up)
        [] (c :: path)

theorem locate_place {path : List α} {place : List (Node α)}
    (located : files.locate path = some place) : Place files.root place := by
  match path, located with
  | c :: path, located =>
    rw [locate] at located
    split at located
    · exact follow_place .root located
    · exact follow_place files.place located

/-- A component behind a path and one or more slashes. -/
theorem locate_append {path last : List α} (nonempty : path ≠ []) (single : signs.slash ∉ last)
    (n : Nat) :
    files.locate (path ++ (List.replicate (n + 1) signs.slash ++ last)) =
      (files.locate path).bind fun place => enter signs place last := by
  obtain ⟨c, path, rfl⟩ := List.exists_cons_of_ne_nil nonempty
  have behind : c :: (path ++ (List.replicate (n + 1) signs.slash ++ last)) =
      (c :: path) ++ signs.slash :: (List.replicate n signs.slash ++ last) := rfl
  rw [List.cons_append, locate, locate, behind, follow_append_slash]
  exact congrArg _ (funext fun place => follow_slashes single n place)

/-- A component behind the slashes of an absolute path. -/
theorem locate_absolute {last : List α} (single : signs.slash ∉ last) (n : Nat) :
    files.locate (List.replicate (n + 1) signs.slash ++ last) =
      enter signs [files.root] last := by
  rw [List.replicate_succ, List.cons_append, locate, if_pos rfl, ← List.cons_append,
    ← List.replicate_succ]
  exact follow_slashes single (n + 1) [files.root]

/-- The only component of a path. -/
theorem locate_relative {last : List α} (nonempty : last ≠ []) (single : signs.slash ∉ last) :
    files.locate last = enter signs (.directory files.entries :: files.up) last := by
  obtain ⟨c, last, rfl⟩ := List.exists_cons_of_ne_nil nonempty
  have relative : ¬c = signs.slash := fun same => single (same ▸ List.mem_cons_self)
  rw [locate, if_neg relative]
  exact follow_name single _ []

end Files

end FileTree
