/-
This file proves that the program `dump.c` prints makes the state of the shell
again: it ends, each constant is declared once and behind those it points to,
and the elements of `defs` hold the names and lists of the variables. The
arrays of characters hold the strings.
-/

import Desh.Dumping

namespace Desh

namespace Dump

open Postorder

variable {memory : Memory} {schedule : Nat → List Nat}

/-! ### Memory without cycles -/

/-- An object does not reach itself: no path through the memory is infinite. -/
def Memory.Acyclic (memory : Memory) : Prop :=
  WellFounded fun child parent : Node => ∃ type pointers,
    memory.fields parent = some (type, pointers) ∧ ∃ pointer ∈ pointers, pointer.node = some child

theorem Memory.Acyclic.children (acyclic : memory.Acyclic) (complete : Complete schedule) :
    WellFounded fun child parent => child ∈ memory.children schedule parent :=
  (acyclic.mono fun _ _ member => (mem_children complete).mp member : WellFounded _)

theorem Memory.Acyclic.key_ne (acyclic : memory.Acyclic) (complete : Complete schedule)
    (node child other : Node) (isChild : child ∈ memory.children schedule node)
    (reaches : Reaches (memory.children schedule) child other) :
    memory.key other ≠ memory.key node := by
  have object : node.type ≠ .string := fun isString => by
    obtain ⟨type, pointers, found, -⟩ := (mem_children complete).mp isChild
    rw [fields, isString] at found
    cases found
  intro same
  have cycle : other = node := by
    rw [key_object object, key] at same
    split at same
    · cases same
    · exact Sum.inr.inj same
  subst cycle
  have loop : Relation.TransGen (fun child parent => child ∈ memory.children schedule parent)
      other other := .tail' (Relation.reflTransGen_swap.mp reaches) isChild
  exact (acyclic.children complete).transGen.irrefl.irrefl other loop

/-! ### What stands for an object -/

/-- What stands for a constant. -/
def Declaration.reference : Declaration → Text
  | .chars name _ => name
  | .object _ name _ => lit "&" ++ name

/-- The name of a constant. -/
def Declaration.name : Declaration → Text
  | .chars name _ => name
  | .object _ name _ => name

/-- The constants that a constant points to. -/
def Declaration.uses : Declaration → List Text
  | .chars _ _ => []
  | .object _ _ fields => fields.filter (· ≠ lit "NULL")

theorem head_stringName (s : Text) (a : Address) :
    (stringName s a).head? = some 'S'.toUInt8 ∨ (stringName s a).head? = some 'X'.toUInt8 := by
  unfold stringName
  dsimp only
  split
  · exact .inr rfl
  · exact .inl rfl

theorem Node.name_cons (node : Node) : node.name = lit "&" ++ node.name.drop 1 := rfl

theorem head_drop_name {node : Node} (object : node.type ≠ .string) :
    (node.name.drop 1).head? ≠ some 'S'.toUInt8 ∧ (node.name.drop 1).head? ≠ some 'X'.toUInt8 ∧
      (node.name.drop 1).head? ≠ some 'N'.toUInt8 := by
  obtain ⟨type, address⟩ := node
  have head : ((Node.mk type address).name.drop 1).head? = type.letter.head? := by
    cases type <;> rfl
  rw [head]
  cases type with
  | string => exact absurd rfl object
  | _ => decide

/-- A string in an order of objects is in the dictionary with its own name. -/
theorem lookup_strings {listed : List Node} (ordered : memory.Ordered schedule listed)
    {node : Node} (member : node ∈ listed) (isString : node.type = .string) {s : Text}
    (content : memory.string node.address = some s) :
    (memory.strings listed).lookup s = some (stringName s node.address) := by
  have key : memory.key node = .inl (some s) := by rw [Memory.key, if_pos isString, content]
  induction ordered with
  | nil => cases member
  | @snoc before last _ fresh _ ih =>
    rw [Memory.strings_append, List.lookup_append]
    rcases List.mem_append.mp member with earlier | isLast
    · rw [ih earlier, Option.some_or]
    · obtain rfl := List.mem_singleton.mp isLast
      rw [Memory.lookup_strings_eq_none.mpr (key ▸ fresh), Option.none_or]
      simp [Memory.strings, isString, content]

theorem declaration_string (listed : List Node) {node : Node} (isString : node.type = .string)
    {s : Text} (content : memory.string node.address = some s) :
    memory.declaration listed node = .chars (stringName s node.address) s := by
  have leaf : memory.fields node = none := by rw [Memory.fields, isString]
  rw [Memory.declaration, leaf, content]
  rfl

theorem declaration_object (listed : List Node) {node : Node} {type : ConstantType}
    {pointers : List Pointer} (found : memory.fields node = some (type, pointers)) :
    memory.declaration listed node =
      .object type (node.name.drop 1) (pointers.map (memory.reference listed)) := by
  rw [Memory.declaration, found]

/-- What can be dumped is a string or an object. -/
theorem Memory.Has.elim {node : Node} (has : memory.Has node) :
    (node.type = .string ∧ ∃ s, memory.string node.address = some s) ∨
      (node.type ≠ .string ∧ ∃ type pointers, memory.fields node = some (type, pointers)) := by
  unfold Memory.Has at has
  by_cases isString : node.type = .string
  · rw [if_pos isString] at has
    exact .inl ⟨isString, Option.isSome_iff_exists.mp has⟩
  · rw [if_neg isString] at has
    obtain ⟨⟨type, pointers⟩, found⟩ := Option.isSome_iff_exists.mp has
    exact .inr ⟨isString, type, pointers, found⟩

/-- What the fields of an object point to can be dumped too. -/
theorem Memory.WellFormed.reaches (wellFormed : memory.WellFormed) (complete : Complete schedule)
    {node other : Node} (reaches : Reaches (memory.children schedule) node other)
    (has : memory.Has node) : memory.Has other := by
  induction reaches with
  | refl => exact has
  | tail _ isChild _ =>
    obtain ⟨type, pointers, found, pointer, isField, points⟩ := (mem_children complete).mp isChild
    exact wellFormed.has _ type pointers found pointer isField _ points

/-- Objects that can be dumped, each behind the ones it points to. -/
structure Memory.Listed (memory : Memory) (schedule : Nat → List Nat) (listed : List Node) :
    Prop where
  ordered : memory.Ordered schedule listed
  has : ∀ node ∈ listed, memory.Has node

/-- The constant for an object that has been dumped is its own. -/
theorem Memory.Listed.reference {listed : List Node} (dumped : memory.Listed schedule listed)
    {node : Node} (member : node ∈ listed) :
    (memory.declaration listed node).reference = memory.reference listed node.pointer := by
  rcases (dumped.has node member).elim with
    ⟨isString, s, content⟩ | ⟨object, type, pointers, found⟩
  · rw [declaration_string listed isString content]
    show _ = if node.type = .string then _ else _
    rw [if_pos isString, content, Option.bind_some,
      lookup_strings dumped.ordered member isString content]
    rfl
  · rw [declaration_object listed found]
    show _ = if node.type = .string then _ else _
    rw [if_neg object]
    exact node.name_cons.symm

/-- Different objects have different constants. -/
theorem Memory.Listed.key_eq (wellFormed : memory.WellFormed) {listed : List Node}
    (dumped : memory.Listed schedule listed) {first second : Node} (member : first ∈ listed)
    (member' : second ∈ listed)
    (same : (memory.declaration listed first).name = (memory.declaration listed second).name) :
    memory.key first = memory.key second := by
  rcases (dumped.has first member).elim with ⟨isString, s, content⟩ | ⟨object, _, _, found⟩ <;>
    rcases (dumped.has second member').elim with
      ⟨isString', t, content'⟩ | ⟨object', _, _, found'⟩
  · rw [declaration_string listed isString content,
      declaration_string listed isString' content'] at same
    have apart : first.address = second.address → s = t := fun address =>
      Option.some.inj (content.symm.trans ((congrArg memory.string address).trans content'))
    obtain rfl := stringName_injective (wellFormed.nulFree _ _ content)
      (wellFormed.nulFree _ _ content') apart same
    rw [key, key, if_pos isString, if_pos isString', content, content']
  · rw [declaration_string listed isString content, declaration_object listed found'] at same
    have heads := head_drop_name object'
    rw [← show stringName s first.address = second.name.drop 1 from same] at heads
    exact absurd (head_stringName s first.address) (not_or.mpr ⟨heads.1, heads.2.1⟩)
  · rw [declaration_object listed found, declaration_string listed isString' content'] at same
    have heads := head_drop_name object
    rw [show first.name.drop 1 = stringName t second.address from same] at heads
    exact absurd (head_stringName t second.address) (not_or.mpr ⟨heads.1, heads.2.1⟩)
  · rw [declaration_object listed found, declaration_object listed found'] at same
    have names : first.name = second.name := by
      rw [first.name_cons, second.name_cons]
      exact congrArg (lit "&" ++ ·) same
    rw [Node.name_injective names]

/-! ### The program compiles -/

/-- What a C compiler asks of the program: the declarations come before the array, no two constants
have one name, and a constant points only to those declared before it. -/
def Compiles (lines : List Line) : Prop :=
  ∃ (declarations : List Declaration) (elements : List (Text × Text)),
    lines = declarations.map .declaration ++
      .defs :: elements.map (fun element => .element element.1 element.2) ∧
    (declarations.map Declaration.name).Nodup ∧
    (∀ before declaration after, declarations = before ++ declaration :: after →
      ∀ expression ∈ declaration.uses, expression ∈ before.map Declaration.reference) ∧
    ∀ element ∈ elements,
      element.1 ∈ declarations.map Declaration.reference ∧
        (element.2 = lit "NULL" ∨ element.2 ∈ declarations.map Declaration.reference)

theorem reference_null {pointer : Pointer} (null : pointer.node = none) (listed : List Node) :
    memory.reference listed pointer = lit "NULL" := by
  rw [Memory.reference, null]

/-- What stands for a pointer depends on the object alone. -/
theorem reference_congr {first second : Pointer} {node other : Node}
    (points : first.node = some node) (points' : second.node = some other)
    (same : memory.key node = memory.key other) (listed : List Node) :
    memory.reference listed first = memory.reference listed second := by
  unfold Memory.reference
  rw [points, points']
  dsimp only
  unfold Memory.key at same
  split at same <;> split at same
  · rename_i isString isString'
    rw [if_pos isString, if_pos isString', Sum.inl.inj same]
  · cases same
  · cases same
  · rename_i object object'
    rw [if_neg object, if_neg object', Sum.inr.inj same]

theorem Memory.Listed.of_append {first second : List Node}
    (dumped : memory.Listed schedule (first ++ second)) : memory.Listed schedule first :=
  ⟨dumped.ordered.of_append, fun node member => dumped.has node (List.mem_append_left _ member)⟩

/-- What stands for a pointer to an object that has been dumped is declared. -/
theorem Memory.Listed.reference_mem {listed : List Node} (dumped : memory.Listed schedule listed)
    {pointer : Pointer} {node : Node} (points : pointer.node = some node)
    (known : memory.key node ∈ listed.map memory.key) :
    memory.reference listed pointer ∈
      (listed.map (memory.declaration listed)).map Declaration.reference := by
  obtain ⟨other, member, same⟩ := List.mem_map.mp known
  rw [reference_congr points (rfl : other.pointer.node = some other) same.symm,
    ← dumped.reference member]
  exact List.mem_map_of_mem (List.mem_map_of_mem member)

theorem Memory.Listed.nodup_names (wellFormed : memory.WellFormed) {listed : List Node}
    (dumped : memory.Listed schedule listed) :
    ((listed.map (memory.declaration listed)).map Declaration.name).Nodup := by
  have keys := List.pairwise_map.mp dumped.ordered.nodup
  rw [List.map_map]
  refine List.pairwise_map.mpr (keys.imp_of_mem fun member member' apart same => ?_)
  exact apart (dumped.key_eq wellFormed member member' same)

/-- A constant points only to those declared before it. -/
theorem Memory.Listed.uses_before (complete : Complete schedule) {listed : List Node}
    (dumped : memory.Listed schedule listed) {before after : List Declaration}
    {declaration : Declaration}
    (split : listed.map (memory.declaration listed) = before ++ declaration :: after) :
    ∀ expression ∈ declaration.uses, expression ∈ before.map Declaration.reference := by
  obtain ⟨first, rest, rfl, rfl, same⟩ := List.map_eq_append_iff.mp split
  obtain ⟨node, others, rfl, rfl, rfl⟩ := List.map_eq_cons_iff.mp same
  have earlier : memory.Listed schedule first := dumped.of_append
  have kept : first.map (memory.declaration (first ++ node :: others)) =
      first.map (memory.declaration first) :=
    List.map_congr_left fun _ member =>
      Memory.declaration_append complete earlier.ordered member _
  intro expression member
  rw [kept]
  rcases (dumped.has node (by simp)).elim with ⟨isString, s, content⟩ | ⟨_, type, pointers, found⟩
  · rw [declaration_string _ isString content] at member
    cases member
  · rw [declaration_object _ found] at member
    obtain ⟨isUse, notNull⟩ := List.mem_filter.mp member
    obtain ⟨pointer, isField, rfl⟩ := List.mem_map.mp isUse
    cases points : pointer.node with
    | none =>
      rw [reference_null points] at notNull
      exact absurd notNull (by decide)
    | some child =>
      have known := dumped.ordered.children_before child ((Memory.mem_children complete).mpr
        ⟨type, pointers, found, pointer, isField, points⟩)
      rw [Memory.reference_append (fun other points' => by
        rw [points] at points'
        exact Option.some.inj points' ▸ known)]
      exact earlier.reference_mem points known

/-- The objects that the variables of a shell reach have been dumped. -/
theorem listed_of_runinitial (complete : Complete schedule) (acyclic : memory.Acyclic)
    (wellFormed : memory.WellFormed) {fuel : Nat} {vars : List Var} (holds : memory.Holds vars)
    {lines : List Line} (printed : runinitial memory schedule fuel vars = some lines) :
    ∃ listed, memory.Listed schedule listed ∧
      (∀ var ∈ vars, ∀ node ∈ var.nodes, memory.key node ∈ listed.map memory.key) ∧
        lines = (listed.map fun node => .declaration (memory.declaration listed node)) ++
          .defs :: (memory.defined vars).map (memory.element listed) := by
  rw [runinitial_eq complete (acyclic.key_ne complete) wellFormed fuel holds] at printed
  obtain ⟨listed, visited, rfl⟩ := Option.map_eq_some_iff.mp printed
  refine ⟨listed, ⟨Ordered.nil.visitAll (acyclic.key_ne complete) visited, fun node member => ?_⟩,
    fun var member node isNode =>
      mem_of_visitAll visited node (List.mem_flatMap.mpr ⟨var, member, isNode⟩), rfl⟩
  rcases reaches_of_visitAll visited member with none | ⟨start, isStart, reaches⟩
  · cases none
  · obtain ⟨var, isVar, isNode⟩ := List.mem_flatMap.mp isStart
    exact wellFormed.reaches complete reaches (holds var isVar start isNode)

theorem mem_defined {vars : List Var} {var : Var} (member : var ∈ memory.defined vars) :
    var ∈ vars := by
  obtain ⟨pass, -, member⟩ := List.mem_flatMap.mp member
  exact List.mem_of_mem_filter member

/-! ### A function of one word -/

/-- A memory with the name `fn-x` and the list of the word `$&echo`. -/
def oneWord : Memory where
  string address :=
    if address = 1 then some (lit "fn-x") else if address = 2 then some (lit "$&echo") else none
  tree _ := none
  binding _ := none
  closure _ := none
  term address := if address = 32 then some ⟨some 2, none⟩ else none
  list address := if address = 16 then some ⟨some 32, none⟩ else none

theorem oneWord_fields {node : Node} {type : ConstantType} {pointers : List Pointer}
    (found : oneWord.fields node = some (type, pointers)) :
    (node = ⟨.term, 32⟩ ∧ pointers = [⟨.string, some 2⟩, ⟨.closure, none⟩]) ∨
      (node = ⟨.list, 16⟩ ∧ pointers = [⟨.term, some 32⟩, ⟨.list, none⟩]) := by
  obtain ⟨pointerType, address⟩ := node
  cases pointerType with
  | term =>
    obtain ⟨term, content, same⟩ := Option.map_eq_some_iff.mp found
    obtain ⟨rfl, cell⟩ := Option.ite_none_right_eq_some.mp content
    cases cell
    cases same
    exact .inl ⟨rfl, rfl⟩
  | list =>
    obtain ⟨list, content, same⟩ := Option.map_eq_some_iff.mp found
    obtain ⟨rfl, cell⟩ := Option.ite_none_right_eq_some.mp content
    cases cell
    cases same
    exact .inr ⟨rfl, rfl⟩
  | _ => cases found

theorem oneWord_wellFormed : oneWord.WellFormed where
  nulFree address s content := by
    change (if address = 1 then _ else if address = 2 then _ else _) = some s at content
    split at content
    · cases content
      decide
    · obtain ⟨-, string⟩ := Option.ite_none_right_eq_some.mp content
      cases string
      decide
  has node type pointers found pointer isField child points := by
    rcases oneWord_fields found with ⟨-, rfl⟩ | ⟨-, rfl⟩ <;>
      rcases List.mem_pair.mp isField with rfl | rfl <;> cases points <;> rfl

theorem oneWord_acyclic : oneWord.Acyclic := by
  refine Subrelation.wf ?_ (measure fun node : Node =>
    match node.type with
    | .list => 2
    | .term => 1
    | _ => 0).wf
  rintro child node ⟨type, pointers, found, pointer, isField, points⟩
  rcases oneWord_fields found with ⟨rfl, rfl⟩ | ⟨rfl, rfl⟩ <;>
    rcases List.mem_pair.mp isField with rfl | rfl <;> cases points <;>
    exact Nat.lt_succ_self _

theorem oneWord_holds : oneWord.Holds [⟨1, some 16⟩] := by
  intro var member node isNode
  obtain rfl := List.mem_singleton.mp member
  rcases List.mem_pair.mp isNode with rfl | rfl <;> rfl

theorem complete_range : Complete List.range := fun _ => .refl _

/-- What a pointer leads to, with everything below it. -/
inductive Value where
  | null
  | string (s : Text)
  | object (type : ConstantType) (fields : List Value)

/-- The value of a pointer into the memory, to a depth. -/
def Memory.value (memory : Memory) : Nat → Pointer → Option Value
  | depth, pointer =>
      match pointer.node, depth with
      | none, _ => some .null
      | some _, 0 => none
      | some node, depth + 1 =>
          if node.type = .string then (memory.string node.address).map .string
          else (memory.fields node).bind fun object =>
            (object.2.mapM (memory.value depth)).map (.object object.1)

/-- The value of an expression of the program, to a depth. -/
def constantValue (declarations : List Declaration) : Nat → Text → Option Value
  | depth, expression =>
      if expression = lit "NULL" then some .null
      else
        match depth with
        | 0 => none
        | depth + 1 =>
            match declarations.find? (·.reference = expression) with
            | none => none
            | some (.chars _ s) => some (.string s)
            | some (.object type _ fields) =>
                (fields.mapM (constantValue declarations depth)).map (.object type)

theorem mapM_congr {α β : Type} {f g : α → Option β} {list : List α}
    (same : ∀ a ∈ list, f a = g a) : list.mapM f = list.mapM g := by
  induction list with
  | nil => rfl
  | cons a list ih =>
    rw [List.forall_mem_cons] at same
    rw [List.mapM_cons, List.mapM_cons, same.1, ih same.2]

theorem value_null {pointer : Pointer} (null : pointer.node = none) (depth : Nat) :
    memory.value depth pointer = some .null := by
  unfold Memory.value
  rw [null]

/-- What stands for a string starts differently from what stands for an object. -/
theorem Memory.Listed.reference_spec {listed : List Node} (dumped : memory.Listed schedule listed)
    {node : Node} (member : node ∈ listed) :
    (memory.declaration listed node).reference ≠ lit "NULL" ∧
      ∀ other ∈ listed, (memory.declaration listed node).reference =
          (memory.declaration listed other).reference →
        (memory.declaration listed node).name = (memory.declaration listed other).name := by
  have ofString : ∀ node ∈ listed, ∀ s, node.type = .string →
      memory.string node.address = some s →
        (memory.declaration listed node).reference.head? ≠ some '&'.toUInt8 := by
    intro node _ s isString content
    rw [declaration_string listed isString content]
    show (stringName s node.address).head? ≠ _
    rcases head_stringName s node.address with head | head <;> rw [head] <;> decide
  rcases (dumped.has node member).elim with ⟨isString, s, content⟩ | ⟨object, _, _, found⟩
  · refine ⟨fun null => ?_, fun other member' same => ?_⟩
    · rw [declaration_string listed isString content] at null
      have head := head_stringName s node.address
      rw [show stringName s node.address = lit "NULL" from null] at head
      exact absurd head (by decide)
    · rcases (dumped.has other member').elim with ⟨isString', t, content'⟩ | ⟨_, _, _, found'⟩
      · rw [declaration_string listed isString content,
          declaration_string listed isString' content'] at same ⊢
        exact same
      · refine absurd ?_ (ofString node member s isString content)
        rw [same, declaration_object listed found']
        rfl
  · refine ⟨fun null => ?_, fun other member' same => ?_⟩
    · rw [declaration_object listed found] at null
      have head : some '&'.toUInt8 = some 'N'.toUInt8 := congrArg List.head? null
      exact absurd head (by decide)
    · rcases (dumped.has other member').elim with ⟨isString', t, content'⟩ | ⟨_, _, _, found'⟩
      · refine absurd ?_ (ofString other member' t isString' content')
        rw [← same, declaration_object listed found]
        rfl
      · rw [declaration_object listed found, declaration_object listed found'] at same ⊢
        exact List.append_cancel_left same

/-- The declaration behind what stands for a pointer. -/
theorem Memory.Listed.find_declaration (wellFormed : memory.WellFormed) {listed : List Node}
    (dumped : memory.Listed schedule listed) {pointer : Pointer} {node : Node}
    (points : pointer.node = some node) (known : memory.key node ∈ listed.map memory.key) :
    memory.reference listed pointer ≠ lit "NULL" ∧
      ∃ other ∈ listed, memory.key other = memory.key node ∧
        (listed.map (memory.declaration listed)).find?
          (·.reference = memory.reference listed pointer) =
            some (memory.declaration listed other) := by
  obtain ⟨own, member, same⟩ := List.mem_map.mp known
  have reference : (memory.declaration listed own).reference = memory.reference listed pointer :=
    (dumped.reference member).trans (reference_congr rfl points same listed)
  refine ⟨reference ▸ (dumped.reference_spec member).1, ?_⟩
  have isFound : ((listed.map (memory.declaration listed)).find?
      (·.reference = memory.reference listed pointer)).isSome :=
    List.find?_isSome.mpr ⟨_, List.mem_map_of_mem member, decide_eq_true reference⟩
  obtain ⟨declaration, found⟩ := Option.isSome_iff_exists.mp isFound
  obtain ⟨other, member', rfl⟩ := List.mem_map.mp (List.mem_of_find?_eq_some found)
  have alike : (memory.declaration listed other).reference = memory.reference listed pointer := by
    simpa using List.find?_some found
  have names := (dumped.reference_spec member).2 other member' (reference.trans alike.symm)
  exact ⟨other, member', (dumped.key_eq wellFormed member member' names).symm.trans same, found⟩

/-- The constants hold what the pointers lead to. -/
theorem Memory.Listed.constantValue_eq (wellFormed : memory.WellFormed)
    (complete : Complete schedule) {listed : List Node} (dumped : memory.Listed schedule listed)
    (depth : Nat) (pointer : Pointer)
    (known : ∀ node, pointer.node = some node → memory.key node ∈ listed.map memory.key) :
    constantValue (listed.map (memory.declaration listed)) depth
        (memory.reference listed pointer) = memory.value depth pointer := by
  induction depth generalizing pointer with
  | zero =>
    unfold constantValue Memory.value
    cases points : pointer.node with
    | none => rw [reference_null points, if_pos rfl]
    | some node =>
      rw [if_neg (dumped.find_declaration wellFormed points (known node points)).1]
  | succ depth ih =>
    cases points : pointer.node with
    | none =>
      rw [reference_null points, value_null points, constantValue, if_pos rfl]
    | some node =>
      obtain ⟨notNull, other, member, same, found⟩ :=
        dumped.find_declaration wellFormed points (known node points)
      rw [constantValue, if_neg notNull, found]
      unfold Memory.value
      rw [points]
      rcases (dumped.has other member).elim with
        ⟨isString, s, content⟩ | ⟨object, type, pointers, fields⟩
      · have content' : node.type = .string ∧ memory.string node.address = some s := by
          unfold Memory.key at same
          rw [if_pos isString] at same
          split at same
          · rename_i isString'
            exact ⟨isString', (Sum.inl.inj same).symm.trans content⟩
          · cases same
        rw [declaration_string listed isString content]
        simp only [content'.1, if_true, content'.2, Option.map_some]
      · obtain rfl : other = node := by
          unfold Memory.key at same
          rw [if_neg object] at same
          split at same
          · cases same
          · exact Sum.inr.inj same
        rw [declaration_object listed fields]
        simp only [object, if_false, fields, Option.bind_some]
        refine congrArg (Option.map (Value.object type)) ?_
        rw [List.mapM_map]
        exact mapM_congr fun pointer isField => ih pointer fun child points' =>
          dumped.ordered.children_mem member child ((mem_children complete).mpr
            ⟨type, pointers, fields, pointer, isField, points'⟩)

/-- Each variable is defined once. -/
theorem defined_perm {vars : List Var} (holds : memory.Holds vars) :
    (memory.defined vars).Perm vars := by
  have apart : ∀ s : Text, (lit "set-").isPrefixOf s = true → (lit "fn-").isPrefixOf s = false := by
    intro s settor
    cases s with
    | nil => cases settor
    | cons c s =>
      have head : 's'.toUInt8 = c := by
        have both := (Bool.and_eq_true _ _).mp settor
        exact beq_iff_eq.mp both.1
      subst head
      rfl
  have others : vars.filter (memory.takes .settors) =
      (vars.filter (!memory.takes .functions ·)).filter (memory.takes .settors) ∧
      vars.filter (memory.takes .variables) =
        (vars.filter (!memory.takes .functions ·)).filter (!memory.takes .settors ·) := by
    rw [List.filter_filter, List.filter_filter]
    constructor <;> refine List.filter_congr fun var member => ?_ <;>
      obtain ⟨s, content⟩ := Option.isSome_iff_exists.mp (holds var member _ List.mem_cons_self :
        memory.Has ⟨.string, var.key⟩)
    · simp only [Memory.takes, content, Option.any_some, Pass.takes]
      cases settor : (lit "set-").isPrefixOf s with
      | false => rfl
      | true => rw [apart s settor]; rfl
    · simp only [Memory.takes, content, Option.any_some, Pass.takes]
      exact Bool.and_comm _ _
  have listed : memory.defined vars = vars.filter (memory.takes .functions) ++
      (vars.filter (memory.takes .settors) ++ (vars.filter (memory.takes .variables) ++ [])) := rfl
  rw [listed, List.append_nil, others.1, others.2]
  exact ((List.filter_append_perm _ _).append_left _).trans (List.filter_append_perm _ _)

/-- The elements of `defs` are the variables, functions first, then settors, then the others; each
holds the name and the value of its variable. -/
def Recreates (memory : Memory) (vars : List Var) (lines : List Line) : Prop :=
  (memory.defined vars).Perm vars ∧ ∃ (declarations : List Declaration)
      (elements : List (Text × Text)),
    lines = declarations.map .declaration ++
      .defs :: elements.map (fun element => .element element.1 element.2) ∧
    List.Forall₂
      (fun (var : Var) (element : Text × Text) => ∀ depth,
        constantValue declarations depth element.1 =
            memory.value depth ⟨.string, some var.key⟩ ∧
          constantValue declarations depth element.2 = memory.value depth ⟨.list, var.defn⟩)
      (memory.defined vars) elements

/-- The program that is printed makes the variables again. -/
theorem runinitial_recreates (complete : Complete schedule) (acyclic : memory.Acyclic)
    (wellFormed : memory.WellFormed) {fuel : Nat} {vars : List Var} (holds : memory.Holds vars)
    {lines : List Line} (printed : runinitial memory schedule fuel vars = some lines) :
    Recreates memory vars lines := by
  obtain ⟨listed, dumped, known, rfl⟩ :=
    listed_of_runinitial complete acyclic wellFormed holds printed
  refine ⟨defined_perm holds, listed.map (memory.declaration listed),
    (memory.defined vars).map fun var =>
      (memory.reference listed ⟨.string, some var.key⟩, memory.reference listed ⟨.list, var.defn⟩),
    ?_, ?_⟩
  · rw [List.map_map, List.map_map]
    rfl
  · refine List.forall₂_map_right_iff.mpr (List.forall₂_same.mpr fun var isDefined depth => ?_)
    have isKnown := known var (mem_defined isDefined)
    have key : ∀ node, Pointer.node ⟨.string, some var.key⟩ = some node →
        memory.key node ∈ listed.map memory.key := by
      rintro _ ⟨⟩
      exact isKnown _ List.mem_cons_self
    exact ⟨dumped.constantValue_eq wellFormed complete depth _ key,
      dumped.constantValue_eq wellFormed complete depth _ fun node points =>
        isKnown node (.tail _ (Option.mem_toList.mpr points))⟩

theorem runinitial_recreates_oneWord :
    Recreates oneWord [⟨1, some 16⟩]
      [.declaration (.chars (lit "S_fn__2dx") (lit "fn-x")),
        .declaration (.chars (lit "S___24__26echo") (lit "$&echo")),
        .declaration (.object .Term (lit "E_20") [lit "S___24__26echo", lit "NULL"]),
        .declaration (.object .List (lit "L_10") [lit "&E_20", lit "NULL"]), .defs,
        .element (lit "S_fn__2dx") (lit "&L_10")] :=
  @runinitial_recreates _ _ complete_range oneWord_acyclic oneWord_wellFormed 4 _ oneWord_holds _
    (by decide +kernel)

end Dump

end Desh
