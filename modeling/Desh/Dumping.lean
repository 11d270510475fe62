/-
This file proves what `dump.c` prints of the variables. A dump is a walk through
the objects in the order of `Postorder`: what a function prints, and what the two
dictionaries hold, depends only on the objects that have been left so far. The
functions for the types do the same but for the fields of the object.
-/

import Desh.Dump
import Desh.Names
import Desh.Postorder
import Desh.Status

namespace Desh

namespace Dump

open Postorder

/-! ### Objects -/

/-- A pointer that is not null. -/
structure Node where
  type : PointerType
  address : Address
  deriving DecidableEq

def Node.pointer (node : Node) : Pointer := ⟨node.type, some node.address⟩

def Pointer.node (pointer : Pointer) : Option Node := pointer.address.map (Node.mk pointer.type)

/-- The letter in the name of an object. -/
def PointerType.letter : PointerType → Text
  | .string => lit "S"
  | .tree => lit "T"
  | .binding => lit "B"
  | .closure => lit "C"
  | .term => lit "E"
  | .list => lit "L"

/-- The name of an object that is not a string, with the `&` in front. -/
def Node.name (node : Node) : Text :=
  lit "&" ++ node.type.letter ++ lit "_" ++ ulx node.address

/-- What `dumptree` makes of a node. -/
def Tree.fields (tree : Tree) : Option (ConstantType × List Pointer) :=
  match tree.kind with
  | .nWord | .nQword | .nPrim => some (.Tree_s tree.kind, [⟨.string, tree.u0⟩])
  | .nCall | .nThunk | .nVar => some (.Tree_p tree.kind, [⟨.tree, tree.u0⟩])
  | .nRedir | .nPipe => none
  | kind => some (.Tree_pp kind, [⟨.tree, tree.u0⟩, ⟨.tree, tree.u1⟩])

/-- The names of the objects that have been dumped. -/
def cvars (listed : List Node) : List Text :=
  listed.filterMap fun node => if node.type = .string then none else some node.name

namespace Memory

variable (memory : Memory)

/-- The type of the constant for an object, and the pointers in its fields. -/
def fields (node : Node) : Option (ConstantType × List Pointer) :=
  match node.type with
  | .string => none
  | .tree => (memory.tree node.address).bind Tree.fields
  | .binding => (memory.binding node.address).map fun b =>
      (.Binding, [⟨.string, b.name⟩, ⟨.list, b.defn⟩, ⟨.binding, b.next⟩])
  | .closure => (memory.closure node.address).map fun c =>
      (.Closure, [⟨.binding, c.binding⟩, ⟨.tree, c.tree⟩])
  | .term => (memory.term node.address).map fun t =>
      (.Term, [⟨.string, t.str⟩, ⟨.closure, t.closure⟩])
  | .list => (memory.list node.address).map fun l =>
      (.List, [⟨.term, l.term⟩, ⟨.list, l.next⟩])

/-- A pointer leads to what the shell can dump. -/
def Has (node : Node) : Prop :=
  if node.type = .string then (memory.string node.address).isSome else (memory.fields node).isSome

/-- What an object is told by: strings with the same characters are one. -/
def key (node : Node) : Option Text ⊕ Node :=
  if node.type = .string then .inl (memory.string node.address) else .inr node

/-- The objects that an object points to, in the order of the schedule. -/
def children (schedule : Nat → List Nat) (node : Node) : List Node :=
  match memory.fields node with
  | none => []
  | some (_, pointers) =>
      (schedule pointers.length).filterMap fun i => pointers[i]?.bind Pointer.node

/-- The dictionary of strings when some objects have been dumped. -/
def strings (listed : List Node) : List (Text × Text) :=
  listed.filterMap fun node =>
    if node.type = .string then
      (memory.string node.address).map fun s => (s, stringName s node.address)
    else none

/-- What stands for a pointer in the program. -/
def reference (listed : List Node) (pointer : Pointer) : Text :=
  match pointer.node with
  | none => lit "NULL"
  | some node =>
      if node.type = .string then
        ((memory.string node.address).bind ((memory.strings listed).lookup ·)).getD []
      else node.name

/-- The declaration of the constant for an object. -/
def declaration (listed : List Node) (node : Node) : Declaration :=
  match memory.fields node with
  | some (type, pointers) =>
      .object type (node.name.drop 1) (pointers.map (memory.reference listed))
  | none =>
      let s := (memory.string node.address).getD []
      .chars (stringName s node.address) s

end Memory

/-! ### Names -/

theorem valueOf_utoa {radix : Nat} [radix.AtLeastTwo] (small : radix ≤ 16) (u : Nat) :
    valueOf radix (utoa u radix (digitTable false)) = u := by
  have digits : ∀ d < 16, digitOf ((digitTable false).getD d 0) = d := by decide +kernel
  have positive := Nat.AtLeastTwo.prop (n := radix)
  induction u using Nat.strong_induction_on with
  | h u inductionHypothesis =>
    rw [utoa]
    by_cases more : u ≥ radix
    · rw [if_pos more, valueOf_snoc, inductionHypothesis _ (Nat.div_lt_self (by omega) positive),
        digits _ ((Nat.mod_lt _ (by omega)).trans_le small), Nat.div_add_mod']
    · rw [if_neg more, ← List.nil_append [_], valueOf_snoc, digits _ (by omega)]
      show 0 * radix + u = u
      rw [Nat.zero_mul, Nat.zero_add]

theorem ulx_eq (address : Address) : ulx address = utoa address.toNat 16 (digitTable false) := by
  unfold ulx intconv
  simp [FormatFlags.none]

theorem ulx_injective {a b : Address} (same : ulx a = ulx b) : a = b := by
  rw [ulx_eq, ulx_eq] at same
  have value := congrArg (valueOf 16) same
  rw [valueOf_utoa le_rfl, valueOf_utoa le_rfl] at value
  exact UInt64.toNat_inj.mp value

theorem Node.name_injective {first second : Node} (same : first.name = second.name) :
    first = second := by
  obtain ⟨type, a⟩ := first
  obtain ⟨type', b⟩ := second
  have width : ∀ type : PointerType, type.letter.length = 1 := by rintro ⟨⟩ <;> rfl
  rw [name, name, List.append_assoc, List.append_assoc, List.append_assoc,
    List.append_assoc] at same
  obtain ⟨letter, rest⟩ :=
    List.append_inj (List.append_cancel_left same) ((width type).trans (width type').symm)
  have letters : Function.Injective PointerType.letter := by
    rintro ⟨⟩ ⟨⟩ same <;> first
      | rfl
      | exact absurd same (by decide)
  exact congrArg₂ Node.mk (letters letter) (ulx_injective (List.append_cancel_left rest))

/-- Different strings have different names. -/
theorem stringName_injective {s t : Text} {a b : Address} (nulFree : NulFree s)
    (nulFree' : NulFree t) (apart : a = b → s = t) (same : stringName s a = stringName t b) :
    s = t := by
  unfold stringName at same
  dsimp only at same
  split at same <;> split at same
  · exact apart (ulx_injective (List.append_cancel_left same))
  · cases same
  · cases same
  · have read := nconv_fconvLoop true s [] nulFree
    have read' := nconv_fconvLoop true t [] nulFree'
    rw [show fconvLoop true s = fconvLoop true t from List.append_cancel_left same, read'] at read
    exact (Option.some.inj read).symm

/-! ### A walk with names -/

/-- Strings are C strings, and what is dumped points only to what can be dumped. -/
structure Memory.WellFormed (memory : Memory) : Prop where
  nulFree : ∀ address s, memory.string address = some s → NulFree s
  has : ∀ node type pointers, memory.fields node = some (type, pointers) →
    ∀ pointer ∈ pointers, ∀ child, pointer.node = some child → memory.Has child

/-- The order in which arguments are evaluated leaves none out. -/
def Complete (schedule : Nat → List Nat) : Prop := ∀ n, (schedule n).Perm (List.range n)

section

variable {memory : Memory} {schedule : Nat → List Nat}

theorem Memory.key_string (a : Address) : memory.key ⟨.string, a⟩ = .inl (memory.string a) := rfl

theorem Memory.key_object {node : Node} (object : node.type ≠ .string) :
    memory.key node = .inr node := if_neg object

/-- The objects that have a key are the ones of a name. -/
theorem Memory.name_mem_cvars {listed : List Node} {node : Node} (object : node.type ≠ .string) :
    node.name ∈ cvars listed ↔ memory.key node ∈ listed.map memory.key := by
  rw [key_object object, cvars, List.mem_filterMap, List.mem_map]
  refine exists_congr fun other => and_congr_right fun _ => ?_
  by_cases isString : other.type = .string
  · rw [if_pos isString, key, if_pos isString]
    exact ⟨nofun, nofun⟩
  · rw [if_neg isString, key_object isString]
    exact ⟨fun same => congrArg _ (Node.name_injective (Option.some.inj same)),
      fun same => congrArg (fun other : Node => some other.name) (Sum.inr.inj same)⟩

theorem Memory.strings_append (first second : List Node) :
    memory.strings (first ++ second) = memory.strings first ++ memory.strings second :=
  List.filterMap_append

/-- A string is in its dictionary once it has been dumped. -/
theorem Memory.lookup_strings_eq_none {listed : List Node} {s : Text} :
    (memory.strings listed).lookup s = none ↔ .inl (some s) ∉ listed.map memory.key := by
  rw [List.lookup_eq_none_iff, strings]
  constructor
  · intro absent member
    obtain ⟨node, isNode, same⟩ := List.mem_map.mp member
    unfold key at same
    split at same
    · rename_i isString
      have entry := absent (s, stringName s node.address) (List.mem_filterMap.mpr
        ⟨node, isNode, by rw [if_pos isString, Sum.inl.inj same, Option.map_some]⟩)
      simp at entry
    · cases same
  · intro absent entry member
    obtain ⟨node, isNode, same⟩ := List.mem_filterMap.mp member
    split at same
    · rename_i isString
      obtain ⟨t, content, rfl⟩ := Option.map_eq_some_iff.mp same
      have other : s ≠ t := by
        rintro rfl
        exact absent (List.mem_map.mpr ⟨node, isNode, by rw [key, if_pos isString, content]⟩)
      simpa using other
    · cases same

/-- What stands for a pointer stays the same when more objects are dumped. -/
theorem Memory.reference_append {listed : List Node} {pointer : Pointer}
    (dumped : ∀ node, pointer.node = some node → memory.key node ∈ listed.map memory.key)
    (others : List Node) :
    memory.reference (listed ++ others) pointer = memory.reference listed pointer := by
  unfold reference
  cases found : pointer.node with
  | none => rfl
  | some node =>
    dsimp only
    by_cases isString : node.type = .string
    · rw [if_pos isString, if_pos isString]
      cases content : memory.string node.address with
      | none => rfl
      | some s =>
        have member := dumped node found
        rw [key, if_pos isString, content] at member
        obtain ⟨name, known⟩ := Option.ne_none_iff_exists'.mp fun absent =>
          lookup_strings_eq_none.mp absent member
        rw [Option.bind_some, Option.bind_some, strings_append, List.lookup_append, known,
          Option.some_or]
    · rw [if_neg isString, if_neg isString]

theorem Memory.mem_children (complete : Complete schedule) {node child : Node} :
    child ∈ memory.children schedule node ↔ ∃ type pointers,
      memory.fields node = some (type, pointers) ∧
        ∃ pointer ∈ pointers, pointer.node = some child := by
  unfold children
  cases found : memory.fields node with
  | none => simp
  | some object =>
    obtain ⟨type, pointers⟩ := object
    simp only [List.mem_filterMap, (complete _).mem_iff, List.mem_range, Option.bind_eq_some_iff,
      Option.some.injEq, Prod.mk.injEq]
    constructor
    · rintro ⟨i, -, pointer, isField, points⟩
      exact ⟨type, pointers, ⟨rfl, rfl⟩, pointer, List.mem_of_getElem? isField, points⟩
    · rintro ⟨_, _, ⟨rfl, rfl⟩, pointer, member, points⟩
      obtain ⟨i, isField⟩ := List.mem_iff_getElem?.mp member
      exact ⟨i, (List.getElem?_eq_some_iff.mp isField).1, pointer, isField, points⟩

/-- An order of objects in which each is behind the ones it points to. -/
abbrev Memory.Ordered (memory : Memory) (schedule : Nat → List Nat) : List Node → Prop :=
  Postorder.Ordered memory.key (memory.children schedule)

theorem Memory.declaration_append (complete : Complete schedule) {listed : List Node}
    (ordered : memory.Ordered schedule listed) {node : Node} (member : node ∈ listed)
    (others : List Node) :
    memory.declaration (listed ++ others) node = memory.declaration listed node := by
  unfold declaration
  cases found : memory.fields node with
  | none => rfl
  | some object =>
    obtain ⟨type, pointers⟩ := object
    refine congrArg (Declaration.object type _) (List.map_congr_left fun pointer isField => ?_)
    exact reference_append (fun child points => ordered.children_mem member child
      ((mem_children complete).mpr ⟨type, pointers, found, pointer, isField, points⟩)) others

/-- The state that a walk leaves, where something has been printed before it. -/
def Memory.emitted (memory : Memory) (output : List Line) (before after : List Node) : State :=
  ⟨output ++ (after.drop before.length).map fun node =>
    .declaration (memory.declaration after node), cvars after, memory.strings after⟩

theorem Memory.emitted_self (output : List Line) (listed : List Node) :
    memory.emitted output listed listed = ⟨output, cvars listed, memory.strings listed⟩ := by
  rw [emitted, List.drop_length, List.map_nil, List.append_nil]

/-- One walk after the other prints what both print. -/
theorem Memory.emitted_emitted (complete : Complete schedule) (output : List Line)
    {first second third : List Node} (ordered : memory.Ordered schedule second)
    (grown : first <+: second) (more : second <+: third) :
    memory.emitted (memory.emitted output first second).output second third =
      memory.emitted output first third := by
  obtain ⟨new, rfl⟩ := grown
  obtain ⟨newer, rfl⟩ := more
  have same : new.map (fun node => Line.declaration
        (memory.declaration (first ++ new ++ newer) node)) =
      new.map fun node => Line.declaration (memory.declaration (first ++ new) node) :=
    List.map_congr_left fun node member => congrArg Line.declaration
      (declaration_append complete ordered (List.mem_append_right _ member) newer)
  have dropped : (first ++ new ++ newer).drop first.length = new ++ newer := by
    rw [List.append_assoc, List.drop_left]
  simp only [emitted, List.drop_left, dropped, List.map_append, same]
  rw [List.append_assoc]

theorem Memory.emitted_object {node : Node} (object : node.type ≠ .string) (output : List Line)
    (listed : List Node) :
    memory.emitted output listed (listed ++ [node]) =
      ⟨output ++ [.declaration (memory.declaration (listed ++ [node]) node)],
        cvars listed ++ [node.name], memory.strings listed⟩ := by
  rw [emitted, List.drop_left, cvars, List.filterMap_append, strings_append]
  simp [strings, cvars, object]

theorem Memory.emitted_string {address : Address} {s : Text}
    (content : memory.string address = some s) (output : List Line) (listed : List Node) :
    memory.emitted output listed (listed ++ [⟨.string, address⟩]) =
      ⟨output ++ [.declaration (.chars (stringName s address) s)], cvars listed,
        memory.strings listed ++ [(s, stringName s address)]⟩ := by
  rw [emitted, List.drop_left, cvars, List.filterMap_append, strings_append]
  simp [strings, cvars, content, declaration, fields]

/-! ### The functions walk -/

theorem lookup_map_pair {α : Type} (f : Nat → α) {order : List Nat} {i : Nat}
    (member : i ∈ order) : (order.map fun i => (i, f i)).lookup i = some (f i) := by
  induction order with
  | nil => cases member
  | cons j order ih =>
    rw [List.map_cons, List.lookup_cons]
    by_cases same : i = j
    · rw [same, beq_self_eq_true]
    · rw [beq_false_of_ne same]
      exact ih ((List.mem_cons.mp member).resolve_left same)

theorem Dumping.bind_apply {α β : Type} (x : Dumping α) (f : α → Dumping β) (state : State) :
    (x >>= f) state = (x state).bind fun ended => f ended.1 ended.2 := rfl

theorem Dumping.fetch_bind {α β : Type} (value : α) (f : α → Dumping β) (state : State) :
    (fetch (some value) >>= f) state = f value state := rfl

theorem Dumping.get_bind {α : Type} (f : State → Dumping α) (state : State) :
    ((get : Dumping State) >>= f) state = f state state := rfl

/-- The functions for the types other than strings do the same with the fields of the object. -/
theorem dump_object {fuel : Nat} {node : Node} {type : ConstantType} {pointers : List Pointer}
    (found : memory.fields node = some (type, pointers)) :
    dump memory schedule (fuel + 1) node.pointer =
      declare node.name (do
        let fields ← arguments schedule (pointers.map (dump memory schedule fuel))
        pure (type, fields)) := by
  obtain ⟨pointerType, address⟩ := node
  cases pointerType with
  | string => cases found
  | tree =>
    obtain ⟨tree, content, found⟩ := Option.bind_eq_some_iff.mp found
    show declare (lit "&T_" ++ ulx address) (fetch (memory.tree address) >>= _) = _
    rw [content]
    obtain ⟨kind, u0, u1⟩ := tree
    cases kind <;> cases found <;> rfl
  | binding =>
    obtain ⟨binding, content, found⟩ := Option.map_eq_some_iff.mp found
    cases found
    show declare (lit "&B_" ++ ulx address) (fetch (memory.binding address) >>= _) = _
    rw [content]
    rfl
  | closure =>
    obtain ⟨closure, content, found⟩ := Option.map_eq_some_iff.mp found
    cases found
    show declare (lit "&C_" ++ ulx address) (fetch (memory.closure address) >>= _) = _
    rw [content]
    rfl
  | term =>
    obtain ⟨term, content, found⟩ := Option.map_eq_some_iff.mp found
    cases found
    show declare (lit "&E_" ++ ulx address) (fetch (memory.term address) >>= _) = _
    rw [content]
    rfl
  | list =>
    obtain ⟨list, content, found⟩ := Option.map_eq_some_iff.mp found
    cases found
    show declare (lit "&L_" ++ ulx address) (fetch (memory.list address) >>= _) = _
    rw [content]
    rfl

/-- A dump that walks through objects and returns something about those it has left. -/
def Walks (memory : Memory) (schedule : Nat → List Nat) {α : Type} (fuel : Nat)
    (nodes : List Node) (value : List Node → α) (dump : Dumping α) : Prop :=
  ∀ (listed : List Node) (output : List Line), memory.Ordered schedule listed →
    dump ⟨output, cvars listed, memory.strings listed⟩ =
      (visitAll memory.key (memory.children schedule) fuel listed nodes).map fun after =>
        (value after, memory.emitted output listed after)

/-- A value that more objects do not change, once these have been left. -/
def Settled (memory : Memory) {α : Type} (nodes : List Node) (value : List Node → α) : Prop :=
  ∀ listed others, (∀ node ∈ nodes, memory.key node ∈ listed.map memory.key) →
    value (listed ++ others) = value listed

theorem visitAll_append {fuel : Nat} (listed first second : List Node) :
    visitAll memory.key (memory.children schedule) fuel listed (first ++ second) =
      (visitAll memory.key (memory.children schedule) fuel listed first).bind fun after =>
        visitAll memory.key (memory.children schedule) fuel after second :=
  List.foldlM_append

theorem Walks.pure {α : Type} (fuel : Nat) (a : α) :
    Walks memory schedule fuel [] (fun _ => a) (pure a) := by
  intro listed output ordered
  rw [visitAll_nil, Option.map_some, Memory.emitted_self]
  rfl

theorem Walks.map {α β : Type} {fuel : Nat} {nodes : List Node} {value : List Node → α}
    {x : Dumping α} (walks : Walks memory schedule fuel nodes value x) (f : α → β) :
    Walks memory schedule fuel nodes (fun after => f (value after))
      (x >>= fun a => Pure.pure (f a)) := by
  intro listed output ordered
  rw [Dumping.bind_apply, walks listed output ordered]
  cases visitAll memory.key (memory.children schedule) fuel listed nodes <;> rfl

theorem settled_reference (pointer : Pointer) :
    Settled memory pointer.node.toList fun after => memory.reference after pointer :=
  fun _ others dumped => Memory.reference_append
    (fun node points => dumped node (Option.mem_toList.mpr points)) others

/-- The objects a variable points to. -/
def Var.nodes (var : Var) : List Node :=
  ⟨.string, var.key⟩ :: (Pointer.node ⟨.list, var.defn⟩).toList

/-- The variables are names with lists. -/
def Memory.Holds (memory : Memory) (vars : List Var) : Prop :=
  ∀ var ∈ vars, ∀ node ∈ var.nodes, memory.Has node

theorem Memory.Holds.defn {vars : List Var} (holds : memory.Holds vars) {var : Var}
    (member : var ∈ vars) (node : Node) (points : Pointer.node ⟨.list, var.defn⟩ = some node) :
    memory.Has node :=
  holds var member node (.tail _ (Option.mem_toList.mpr points))

/-- A string is declared once, whatever addresses it has. -/
theorem Walks.dumpstring {fuel : Nat} {address : Address} {s : Text}
    (content : memory.string address = some s) :
    Walks memory schedule (fuel + 1) [⟨.string, address⟩]
      (fun after => memory.reference after ⟨.string, some address⟩)
      (dumpstring memory (some address)) := by
  have key : memory.key ⟨.string, address⟩ = .inl (some s) := congrArg Sum.inl content
  have leaf : memory.children schedule ⟨.string, address⟩ = [] := rfl
  have reference : ∀ listed : List Node, memory.reference listed ⟨.string, some address⟩ =
      ((memory.strings listed).lookup s).getD [] := fun listed => by
    show ((memory.string address).bind ((memory.strings listed).lookup ·)).getD [] = _
    rw [content, Option.bind_some]
  intro listed output ordered
  rw [visitAll_cons, visit_succ, key, leaf, visitAll_nil]
  unfold Dump.dumpstring Dump.orNull
  dsimp only
  rw [content, Dumping.fetch_bind, Dumping.get_bind]
  cases known : (memory.strings listed).lookup s with
  | some name =>
    have member : Sum.inl (some s) ∈ listed.map memory.key := by
      by_contra absent
      rw [Memory.lookup_strings_eq_none.mpr absent] at known
      cases known
    rw [if_pos member, Option.bind_some, visitAll_nil, Option.map_some, Memory.emitted_self,
      reference, known]
    rfl
  | none =>
    rw [if_neg (Memory.lookup_strings_eq_none.mp known)]
    have name : memory.reference (listed ++ [⟨.string, address⟩]) ⟨.string, some address⟩ =
        stringName s address := by
      rw [reference, Memory.strings_append, List.lookup_append, known, Option.none_or]
      simp [Memory.strings, content]
    exact congrArg some (Prod.ext name.symm (Memory.emitted_string content output listed).symm)

section

variable (complete : Complete schedule)
  (acyclic : ∀ node child other, child ∈ memory.children schedule node →
    Reaches (memory.children schedule) child other → memory.key other ≠ memory.key node)

include complete acyclic

theorem Walks.bind {α β : Type} {fuel : Nat} {first second : List Node} {value : List Node → α}
    (next : α → List Node → β) {x : Dumping α} {f : α → Dumping β}
    (settled : Settled memory first value) (walks : Walks memory schedule fuel first value x)
    (others : ∀ a, Walks memory schedule fuel second (next a) (f a)) :
    Walks memory schedule fuel (first ++ second) (fun after => next (value after) after)
      (x >>= f) := by
  intro listed output ordered
  rw [Dumping.bind_apply, walks listed output ordered, visitAll_append]
  cases visited : visitAll memory.key (memory.children schedule) fuel listed first with
  | none => rfl
  | some middle =>
    have kept := ordered.visitAll acyclic visited
    rw [Option.map_some, Option.bind_some, Option.bind_some]
    refine (others (value middle) middle _ kept).trans ?_
    cases more : visitAll memory.key (memory.children schedule) fuel middle second with
    | none => rfl
    | some after =>
      have grown := visitAll_isPrefix more
      have same : value after = value middle := by
        obtain ⟨new, rfl⟩ := grown
        exact settled middle new (mem_of_visitAll visited)
      exact congrArg some (Prod.ext (congrArg (next · after) same.symm)
        (Memory.emitted_emitted complete output kept (visitAll_isPrefix visited) grown))

/-- Some arguments of a call, one after the other. -/
theorem Walks.mapM {fuel : Nat} {dump : Pointer → Dumping Text} {pointers : List Pointer}
    (walks : ∀ pointer ∈ pointers, Walks memory schedule fuel pointer.node.toList
      (fun after => memory.reference after pointer) (dump pointer))
    {order : List Nat} (inside : ∀ i ∈ order, i < pointers.length) :
    Walks memory schedule fuel (order.filterMap fun i => pointers[i]?.bind Pointer.node)
      (fun after => order.map fun i =>
        (i, ((pointers.map (memory.reference after))[i]?).getD []))
      (order.mapM fun i => do
        let text ← (pointers.map dump).getD i failure
        Pure.pure (i, text)) := by
  induction order with
  | nil => exact Walks.pure fuel []
  | cons i order ih =>
    rw [List.forall_mem_cons] at inside
    have isField : pointers[i]? = some pointers[i] := List.getElem?_eq_getElem inside.1
    have nodes : ((i :: order).filterMap fun i => pointers[i]?.bind Pointer.node) =
        pointers[i].node.toList ++
          order.filterMap fun i => pointers[i]?.bind Pointer.node := by
      rw [List.filterMap_cons, isField, Option.bind_some]
      cases pointers[i].node <;> rfl
    have job : (pointers.map dump).getD i failure = dump pointers[i] := by
      rw [List.getD_eq_getElem?_getD, List.getElem?_map, isField]
      rfl
    have first := (walks _ (List.getElem_mem inside.1)).map fun text => (i, text)
    have settled : Settled memory pointers[i].node.toList
        fun after => (i, memory.reference after pointers[i]) := fun listed others dumped =>
      congrArg (Prod.mk i) (settled_reference pointers[i] listed others dumped)
    rw [nodes, List.mapM_cons, job]
    have both := first.bind complete acyclic _ settled fun entry => (ih inside.2).map (entry :: ·)
    refine cast (congrArg (Walks memory schedule fuel _ · _) ?_) both
    funext after
    rw [List.map_cons, List.getElem?_map, isField]
    rfl

/-- The arguments of a call, in the order of the schedule. -/
theorem Walks.arguments {fuel : Nat} {dump : Pointer → Dumping Text} {pointers : List Pointer}
    (walks : ∀ pointer ∈ pointers, Walks memory schedule fuel pointer.node.toList
      (fun after => memory.reference after pointer) (dump pointer)) :
    Walks memory schedule fuel
      ((schedule pointers.length).filterMap fun i => pointers[i]?.bind Pointer.node)
      (fun after => pointers.map (memory.reference after))
      (arguments schedule (pointers.map dump)) := by
  have inside : ∀ i, i ∈ schedule pointers.length ↔ i < pointers.length := fun i => by
    rw [(complete _).mem_iff, List.mem_range]
  have found := (Walks.mapM complete acyclic walks fun i => (inside i).mp).map fun found =>
    (List.range (pointers.map dump).length).map fun i => (found.lookup i).getD []
  unfold Dump.arguments
  rw [List.length_map] at found ⊢
  refine cast (congrArg (Walks memory schedule fuel _ · _) ?_) found
  funext after
  refine List.ext_getElem (by simp) fun i inRange isField => ?_
  rw [List.length_map] at isField
  rw [List.getElem_map, List.getElem_range, lookup_map_pair _ ((inside i).mpr isField),
    Option.getD_some, List.getElem?_eq_getElem (by rwa [List.length_map]), Option.getD_some]

/-- An object is declared behind what its fields point to. -/
theorem Walks.declare {fuel : Nat} {node : Node} (object : node.type ≠ .string)
    {type : ConstantType} {pointers : List Pointer}
    (found : memory.fields node = some (type, pointers)) {dump : Dumping (ConstantType × List Text)}
    (walks : Walks memory schedule fuel (memory.children schedule node)
      (fun after => (type, pointers.map (memory.reference after))) dump) :
    Walks memory schedule (fuel + 1) [node] (fun _ => node.name) (declare node.name dump) := by
  intro listed output ordered
  rw [visitAll_cons, visit_succ]
  unfold Dump.declare
  rw [Dumping.get_bind]
  by_cases known : memory.key node ∈ listed.map memory.key
  · rw [if_pos ((Memory.name_mem_cvars object).mpr known), if_pos known, Option.bind_some,
      visitAll_nil, Option.map_some, Memory.emitted_self]
    rfl
  · rw [if_neg (mt (Memory.name_mem_cvars object).mp known), if_neg known, Dumping.bind_apply,
      walks listed output ordered]
    cases visited : visitAll memory.key (memory.children schedule) fuel listed
        (memory.children schedule node) with
    | none => rfl
    | some below =>
      have kept := ordered.visitAll acyclic visited
      have fields : pointers.map (memory.reference (below ++ [node])) =
          pointers.map (memory.reference below) :=
        List.map_congr_left fun pointer isField => Memory.reference_append
          (fun child points => mem_of_visitAll visited child
            ((Memory.mem_children complete).mpr
              ⟨type, pointers, found, pointer, isField, points⟩)) [node]
      have declared : memory.declaration (below ++ [node]) node =
          .object type (node.name.drop 1) (pointers.map (memory.reference below)) := by
        unfold Memory.declaration
        rw [found]
        exact congrArg (Declaration.object type _) fields
      refine congrArg some (Prod.ext rfl ?_)
      refine Eq.trans ?_ (Memory.emitted_emitted complete output kept (visitAll_isPrefix visited)
        (List.prefix_append below [node]))
      rw [Memory.emitted_object object, declared]
      rfl

/-- An object is declared with what its fields point to. -/
theorem Walks.object {fuel : Nat} {node : Node} (object : node.type ≠ .string)
    {type : ConstantType} {pointers : List Pointer}
    (found : memory.fields node = some (type, pointers)) {dump : Pointer → Dumping Text}
    (walks : ∀ pointer ∈ pointers, Walks memory schedule fuel pointer.node.toList
      (fun after => memory.reference after pointer) (dump pointer)) :
    Walks memory schedule (fuel + 1) [node] (fun _ => node.name)
      (Dump.declare node.name do
        let fields ← Dump.arguments schedule (pointers.map dump)
        Pure.pure (type, fields)) := by
  refine Walks.declare complete acyclic object found ?_
  have children : memory.children schedule node =
      (schedule pointers.length).filterMap fun i => pointers[i]?.bind Pointer.node := by
    unfold Memory.children
    rw [found]
  rw [children]
  exact (Walks.arguments complete acyclic walks).map (Prod.mk type)

/-- Dumping a pointer is a walk from the object it points to. -/
theorem Walks.dump (wellFormed : memory.WellFormed) (fuel : Nat) (pointer : Pointer)
    (has : ∀ node, pointer.node = some node → memory.Has node) :
    Walks memory schedule fuel pointer.node.toList
      (fun after => memory.reference after pointer) (dump memory schedule fuel pointer) := by
  induction fuel generalizing pointer with
  | zero =>
    obtain ⟨type, address⟩ := pointer
    cases address with
    | none => exact Walks.pure 0 (lit "NULL")
    | some address => exact fun listed output ordered => rfl
  | succ fuel ih =>
    obtain ⟨type, address⟩ := pointer
    cases address with
    | none => cases type <;> exact Walks.pure (fuel + 1) (lit "NULL")
    | some address =>
      have isNode := has ⟨type, address⟩ rfl
      by_cases isString : type = .string
      · subst isString
        obtain ⟨s, content⟩ := Option.isSome_iff_exists.mp isNode
        exact Walks.dumpstring content
      rw [Memory.Has, if_neg isString] at isNode
      obtain ⟨⟨constant, pointers⟩, found⟩ := Option.isSome_iff_exists.mp isNode
      have walks := Walks.object complete acyclic isString found fun pointer isField =>
        ih pointer (wellFormed.has _ constant pointers found pointer isField)
      rw [← dump_object found] at walks
      exact cast (congrArg (Walks memory schedule (fuel + 1) _ · _)
        (funext fun after => (if_neg isString).symm)) walks

/-- All variables are dumped, one after the other. -/
theorem Walks.vars (wellFormed : memory.WellFormed) (fuel : Nat) {vars : List Var}
    (holds : memory.Holds vars) :
    Walks memory schedule fuel (vars.flatMap Var.nodes) (fun _ => ())
      (vars.forM (dumpvar memory schedule fuel)) := by
  induction vars with
  | nil => exact Walks.pure fuel ()
  | cons var vars ih =>
    have first : Walks memory schedule fuel var.nodes (fun _ => ())
        (dumpvar memory schedule fuel var) := by
      have key := Walks.dump complete acyclic wellFormed fuel ⟨.string, some var.key⟩
        fun node points => holds var (.head _) node (by cases points; exact .head _)
      have defn := Walks.dump complete acyclic wellFormed fuel ⟨.list, var.defn⟩
        (holds.defn List.mem_cons_self)
      exact key.bind complete acyclic (fun _ _ => ()) (settled_reference _)
        fun _ => defn.map fun _ => ()
    exact first.bind complete acyclic (fun _ _ => ()) (fun _ _ _ => rfl)
      fun _ => ih fun other member => holds other (.tail _ member)

end

/-- What has been dumped is not printed again. -/
theorem Walks.again {α : Type} {fuel : Nat} {nodes : List Node} {value : List Node → α}
    {x : Dumping α} (walks : Walks memory schedule (fuel + 1) nodes value x)
    {listed : List Node} (ordered : memory.Ordered schedule listed)
    (known : ∀ node ∈ nodes, memory.key node ∈ listed.map memory.key) (output : List Line) :
    x ⟨output, cvars listed, memory.strings listed⟩ =
      some (value listed, ⟨output, cvars listed, memory.strings listed⟩) := by
  rw [walks listed output ordered, visitAll_of_mem known, Option.map_some, Memory.emitted_self]

/-! ### What is printed -/

/-- Does a pass print a variable? -/
def Memory.takes (memory : Memory) (pass : Pass) (var : Var) : Bool :=
  (memory.string var.key).any pass.takes

/-- The variables in the order in which they are defined: functions, settors, and others. -/
def Memory.defined (memory : Memory) (vars : List Var) : List Var :=
  [.functions, .settors, .variables].flatMap fun pass => vars.filter (memory.takes pass)

/-- The element of `defs` for a variable. -/
def Memory.element (memory : Memory) (listed : List Node) (var : Var) : Line :=
  .element (memory.reference listed ⟨.string, some var.key⟩)
    (memory.reference listed ⟨.list, var.defn⟩)

section

variable (complete : Complete schedule)
  (acyclic : ∀ node child other, child ∈ memory.children schedule node →
    Reaches (memory.children schedule) child other → memory.key other ≠ memory.key node)
  (wellFormed : memory.WellFormed)

include complete acyclic wellFormed

/-- A pass over variables whose objects are known prints elements alone. -/
theorem dumpPass_known {fuel : Nat} {listed : List Node}
    (ordered : memory.Ordered schedule listed) (pass : Pass) {vars : List Var}
    (holds : memory.Holds vars)
    (known : ∀ var ∈ vars, ∀ node ∈ var.nodes, memory.key node ∈ listed.map memory.key)
    (output : List Line) :
    vars.forM (dumpPass memory schedule (fuel + 1) pass)
        ⟨output, cvars listed, memory.strings listed⟩ =
      some ((), ⟨output ++ (vars.filter (memory.takes pass)).map (memory.element listed),
        cvars listed, memory.strings listed⟩) := by
  induction vars generalizing output with
  | nil =>
    rw [List.filter_nil, List.map_nil, List.append_nil]
    rfl
  | cons var vars ih =>
    rw [Memory.Holds, List.forall_mem_cons] at holds
    rw [List.forall_mem_cons] at known
    obtain ⟨s, content⟩ := Option.isSome_iff_exists.mp (holds.1 _ List.mem_cons_self :
      memory.Has ⟨.string, var.key⟩)
    have head : dumpPass memory schedule (fuel + 1) pass var
        ⟨output, cvars listed, memory.strings listed⟩ =
          some ((), ⟨output ++ ([var].filter (memory.takes pass)).map (memory.element listed),
            cvars listed, memory.strings listed⟩) := by
      have takes : memory.takes pass var = pass.takes s := by
        rw [Memory.takes, content, Option.any_some]
      unfold dumpPass
      rw [content, List.filter_cons, takes]
      show (if pass.takes s = true then _ else _ : Dumping Unit) _ = _
      by_cases taken : pass.takes s = true
      · rw [if_pos taken, if_pos taken]
        have walks : ∀ pointer ∈ [Pointer.mk .string (some var.key), ⟨.list, var.defn⟩],
            Walks memory schedule (fuel + 1) pointer.node.toList
              (fun after => memory.reference after pointer)
              (dump memory schedule (fuel + 1) pointer) := by
          rw [List.forall_mem_cons, List.forall_mem_singleton]
          exact ⟨Walks.dump complete acyclic wellFormed _ _ fun node points =>
              holds.1 node (by cases points; exact List.mem_cons_self),
            Walks.dump complete acyclic wellFormed _ _ fun node points =>
              holds.1 node (.tail _ (Option.mem_toList.mpr points))⟩
        have isKnown : ∀ node ∈ (schedule 2).filterMap fun i =>
              [Pointer.mk .string (some var.key), ⟨.list, var.defn⟩][i]?.bind Pointer.node,
            memory.key node ∈ listed.map memory.key := fun node member => by
          obtain ⟨i, -, points⟩ := List.mem_filterMap.mp member
          obtain ⟨pointer, isField, points⟩ := Option.bind_eq_some_iff.mp points
          rcases List.mem_pair.mp (List.mem_of_getElem? isField) with rfl | rfl
          · cases points
            exact known.1 _ List.mem_cons_self
          · exact known.1 _ (.tail _ (Option.mem_toList.mpr points))
        have again := (Walks.arguments complete acyclic walks).again ordered isKnown output
        rw [List.map_cons, List.map_cons, List.map_nil] at again
        unfold dumpdef
        rw [Dumping.bind_apply, again]
        rfl
      · rw [if_neg taken, if_neg taken, List.filter_nil, List.map_nil, List.append_nil]
        rfl
    show (dumpPass memory schedule (fuel + 1) pass var >>= fun _ =>
      vars.forM (dumpPass memory schedule (fuel + 1) pass)) _ = _
    rw [Dumping.bind_apply, head, Option.bind_some, ih holds.2 known.2, List.append_assoc,
      ← List.map_append, ← List.filter_append, List.singleton_append]

/-- The program: the constants in the order of the walk, then the variables. -/
theorem runinitial_eq (fuel : Nat) {vars : List Var} (holds : memory.Holds vars) :
    runinitial memory schedule fuel vars =
      (visitAll memory.key (memory.children schedule) fuel [] (vars.flatMap Var.nodes)).map
        fun listed => (listed.map fun node => .declaration (memory.declaration listed node)) ++
          .defs :: (memory.defined vars).map (memory.element listed) := by
  have start : memory.Ordered schedule [] := .nil
  have first := Walks.vars complete acyclic wellFormed fuel holds [] [] start
  have run : runinitial memory schedule fuel vars =
      (((vars.forM (dumpvar memory schedule fuel)) ⟨[], [], []⟩).bind fun ended =>
        (do
          print .defs
          vars.forM (dumpPass memory schedule fuel .functions)
          vars.forM (dumpPass memory schedule fuel .settors)
          vars.forM (dumpPass memory schedule fuel .variables) : Dumping Unit) ended.2).map
        fun ended => ended.2.output := rfl
  rw [run, show vars.forM (dumpvar memory schedule fuel) ⟨[], [], []⟩ = _ from first]
  cases visited : visitAll memory.key (memory.children schedule) fuel []
      (vars.flatMap Var.nodes) with
  | none => rfl
  | some listed =>
    have ordered := start.visitAll acyclic visited
    have known : ∀ var ∈ vars, ∀ node ∈ var.nodes, memory.key node ∈ listed.map memory.key :=
      fun var member node isNode =>
        mem_of_visitAll visited node (List.mem_flatMap.mpr ⟨var, member, isNode⟩)
    cases fuel with
    | zero =>
      cases vars with
      | nil =>
        cases visited
        rfl
      | cons => cases visited
    | succ fuel =>
      have pass := fun pass =>
        @dumpPass_known _ _ complete acyclic wellFormed fuel _ ordered pass _ holds known
      show Option.map _ ((vars.forM (dumpPass memory schedule (fuel + 1) .functions) >>= fun _ =>
        vars.forM (dumpPass memory schedule (fuel + 1) .settors) >>= fun _ =>
          vars.forM (dumpPass memory schedule (fuel + 1) .variables))
        ⟨(memory.emitted [] [] listed).output ++ [.defs], cvars listed,
          memory.strings listed⟩) = _
      rw [Dumping.bind_apply, pass .functions, Option.bind_some, Dumping.bind_apply, pass .settors,
        Option.bind_some, pass .variables]
      simp [Memory.defined, Memory.emitted]

end

end

end Dump

end Desh
