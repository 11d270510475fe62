/-
This file says what it means for a text to show a term of the heap: a string
shows itself, a closure is shown by what `getstr` prints for it, and also by any
text that reads as that closure, which is what an imported variable is until
its closure is asked for. It then says which changes of the heap keep a text
shown, and when printing ends.
-/

import Desh.Vars

namespace Desh

/-! ### Lists of results -/

section

variable {α β : Type}

theorem forall₂_of_mapM {f : α → Option β} {list : List α} {values : List β}
    (run : list.mapM f = some values) :
    List.Forall₂ (fun a b => f a = some b) list values := by
  induction list generalizing values with
  | nil =>
    obtain rfl : [] = values := Option.some.inj run
    exact .nil
  | cons a list inductionHypothesis =>
    rw [List.mapM_cons] at run
    obtain ⟨b, here, later⟩ := Option.bind_eq_some_iff.mp run
    obtain ⟨rest, tail, equation⟩ := Option.bind_eq_some_iff.mp later
    obtain rfl : b :: rest = values := Option.some.inj equation
    exact .cons here (inductionHypothesis tail)

theorem exists_mapM {f : α → Option β} {list : List α} (each : ∀ a ∈ list, (f a).isSome) :
    ∃ values, list.mapM f = some values := by
  induction list with
  | nil => exact ⟨[], rfl⟩
  | cons a list inductionHypothesis =>
    obtain ⟨b, here⟩ := Option.isSome_iff_exists.mp (each a List.mem_cons_self)
    obtain ⟨rest, run⟩ := inductionHypothesis fun a member => each a (List.mem_cons_of_mem _ member)
    exact ⟨b :: rest, by rw [List.mapM_cons, here, run]; rfl⟩

/-- Two lists stay related when the relation is weakened at the elements they have. -/
theorem forall₂_weaken {related related' : α → β → Prop} {list : List α} {values : List β}
    (each : List.Forall₂ related list values)
    (weaker : ∀ a ∈ list, ∀ b, related a b → related' a b) :
    List.Forall₂ related' list values := by
  have members := (List.forall₂_and_left list values).mpr ⟨fun a member => member, each⟩
  exact members.imp fun a b both => weaker a both.1 b both.2

end

/-! ### What a text shows -/

/-- The cells of a chain of bindings, related to a list of names with values. -/
def CellsShow {α : Type} (heap : Heap) (shown : TermRef → α → Prop) (binding : List BindingRef)
    (values : List (Text × List α)) : Prop :=
  List.Forall₂
    (fun b value => ∃ cell, heap.bindings[b]? = some cell ∧ cell.name = value.1 ∧
      List.Forall₂ shown cell.defn value.2)
    binding values

/-- A term of a binding, related to a value read by `extract`. -/
def ValueShows (heap : Heap) (shown : TermRef → Text → Prop) (tree : Tree)
    (binding : List BindingRef) (t : TermRef) : Value → Prop
  | .str s => shown t s
  | .nested => heap.terms[t]? = some (.closure tree binding)

/-- A text shows a term with the values its bindings hold now. -/
inductive Shows (parsestring : Text → Option Tree) (heap : Heap) : TermRef → Text → Prop where
  | str {t : TermRef} {s : Text} (here : heap.terms[t]? = some (.str s)) :
      Shows parsestring heap t s
  | printed {t : TermRef} {s : Text} {tree : Tree} {binding : List BindingRef}
      {values : List (Text × List Text)} (shown : TermRef → Text → Prop)
      (here : heap.terms[t]? = some (.closure tree binding))
      (sound : ∀ t s, shown t s → Shows parsestring heap t s)
      (cells : CellsShow heap shown binding values) (text : cconv tree values = some s) :
      Shows parsestring heap t s
  | read {t : TermRef} {s : Text} {tree : Tree} {binding : List BindingRef}
      {values : List (Text × List Value)} (shown : TermRef → Text → Prop)
      (here : heap.terms[t]? = some (.closure tree binding))
      (sound : ∀ t s, shown t s → Shows parsestring heap t s)
      (cells : CellsShow heap (ValueShows heap shown tree binding) binding values)
      (text : readsClosure parsestring s = some (values, tree)) :
      Shows parsestring heap t s

/-- The bindings that decide what a term prints as. -/
inductive Captures (heap : Heap) : TermRef → BindingRef → Prop where
  | direct {t : TermRef} {b : BindingRef} {tree : Tree} {binding : List BindingRef}
      (here : heap.terms[t]? = some (.closure tree binding)) (member : b ∈ binding) :
      Captures heap t b
  | inside {t t' : TermRef} {b b' : BindingRef} {tree : Tree} {binding : List BindingRef}
      {cell : Binding} (here : heap.terms[t]? = some (.closure tree binding))
      (member : b' ∈ binding) (there : heap.bindings[b']? = some cell) (value : t' ∈ cell.defn)
      (captures : Captures heap t' b) : Captures heap t b

/-- Printing a term comes to an end: no closure captures itself, however indirectly. -/
inductive Printable (heap : Heap) : TermRef → Prop where
  | str {t : TermRef} {s : Text} (here : heap.terms[t]? = some (.str s)) : Printable heap t
  | closure {t : TermRef} {tree : Tree} {binding : List BindingRef}
      (here : heap.terms[t]? = some (.closure tree binding)) (body : (tconv false tree).isSome)
      (defined : ∀ b ∈ binding, (heap.bindings[b]?).isSome)
      (values : ∀ b ∈ binding, ∀ cell, heap.bindings[b]? = some cell →
        ∀ t ∈ cell.defn, Printable heap t) : Printable heap t

section

variable {parsestring : Text → Option Tree} {heap heap' : Heap}

theorem CellsShow.mono {α : Type} {shown shown' : TermRef → α → Prop}
    {binding : List BindingRef} {values : List (Text × List α)}
    (cells : CellsShow heap shown binding values)
    (kept : ∀ b ∈ binding, ∀ cell, heap.bindings[b]? = some cell →
      heap'.bindings[b]? = some cell)
    (weaker : ∀ b ∈ binding, ∀ cell, heap.bindings[b]? = some cell →
      ∀ t ∈ cell.defn, ∀ value, shown t value → shown' t value) :
    CellsShow heap' shown' binding values := by
  refine forall₂_weaken cells ?_
  rintro b member value ⟨cell, there, name, defn⟩
  refine ⟨cell, kept b member cell there, name, forall₂_weaken defn ?_⟩
  exact weaker b member cell there

/-! ### Changes that keep a text shown -/

/-- A change that leaves the terms and what a term captures alone. -/
theorem Shows.of_kept {t : TermRef} {s : Text} (shows : Shows parsestring heap t s)
    (terms : ∀ (t : TermRef) (cell : TermCell), heap.terms[t]? = some cell →
      heap'.terms[t]? = some cell)
    (bindings : ∀ b, Captures heap t b → ∀ cell, heap.bindings[b]? = some cell →
      heap'.bindings[b]? = some cell) : Shows parsestring heap' t s := by
  induction shows with
  | str here => exact .str (terms _ _ here)
  | printed shown here sound cells text inductionHypothesis =>
    refine .printed (Shows parsestring heap') (terms _ _ here) (fun _ _ shows => shows)
      (cells.mono ?_ ?_) text
    · exact fun b member => bindings b (.direct here member)
    · intro b member cell there t value s shows
      exact inductionHypothesis t s shows fun b captures =>
        bindings b (.inside here member there value captures)
  | read shown here sound cells text inductionHypothesis =>
    refine .read (Shows parsestring heap') (terms _ _ here) (fun _ _ shows => shows)
      (cells.mono ?_ ?_) text
    · exact fun b member => bindings b (.direct here member)
    · intro b member cell there t value v shows
      cases v with
      | str s =>
        exact inductionHypothesis t s shows fun b captures =>
          bindings b (.inside here member there value captures)
      | nested => exact terms _ _ shows

/-- A change that only adds terms and bindings. -/
structure Extends (heap heap' : Heap) : Prop where
  terms : ∀ (t : TermRef) (cell : TermCell), heap.terms[t]? = some cell →
    heap'.terms[t]? = some cell
  bindings : ∀ (b : BindingRef) (cell : Binding), heap.bindings[b]? = some cell →
    heap'.bindings[b]? = some cell

theorem Shows.of_extends {t : TermRef} {s : Text} (shows : Shows parsestring heap t s)
    (extended : Extends heap heap') : Shows parsestring heap' t s :=
  shows.of_kept extended.terms fun b _ => extended.bindings b

theorem extends_append (heap : Heap) (terms : List TermCell) (bindings : List Binding) :
    Extends heap ⟨heap.terms ++ terms, heap.bindings ++ bindings⟩ where
  terms t cell here := by
    rw [List.getElem?_append_left (List.getElem?_eq_some_iff.mp here).1, here]
  bindings b cell here := by
    rw [List.getElem?_append_left (List.getElem?_eq_some_iff.mp here).1, here]

theorem Extends.trans {heap'' : Heap} (first : Extends heap heap')
    (second : Extends heap' heap'') : Extends heap heap'' where
  terms t cell here := second.terms t cell (first.terms t cell here)
  bindings b cell here := second.bindings b cell (first.bindings b cell here)

/-! ### Strings that become closures -/

theorem mkbindings_extends (tree : Tree) (binding : List BindingRef)
    (values : List (Text × List Value)) (heap : Heap) :
    Extends heap (heap.mkbindings tree binding values) := by
  induction values generalizing heap with
  | nil => exact ⟨fun _ _ here => here, fun _ _ here => here⟩
  | cons value values inductionHypothesis =>
    exact (extends_append heap _ _).trans (inductionHypothesis _)

/-- The new bindings hold new terms, which are the values. -/
theorem mkbindings_spec (tree : Tree) (binding : List BindingRef)
    (values : List (Text × List Value)) (heap : Heap) :
    CellsShow (heap.mkbindings tree binding values)
      (fun t value => heap.terms.length ≤ t ∧
        (heap.mkbindings tree binding values).terms[t]? = some (valueCell tree binding value))
      (List.range' heap.bindings.length values.length) values := by
  induction values generalizing heap with
  | nil => exact .nil
  | cons value values inductionHypothesis =>
    obtain ⟨name, defn⟩ := value
    rw [Heap.mkbindings]
    set next : Heap := _ with isNext
    have extended := mkbindings_extends tree binding values next
    rw [List.length_cons, List.range'_succ]
    refine .cons ⟨⟨name, List.range' heap.terms.length defn.length⟩, ?_, rfl, ?_⟩ ?_
    · exact extended.bindings _ _ (by rw [isNext, List.getElem?_concat_length])
    · rw [List.forall₂_iff_get]
      refine ⟨List.length_range', fun i _ inside => ?_⟩
      have position : (List.range' heap.terms.length defn.length).get ⟨i, ‹_›⟩ =
          heap.terms.length + i := by simp
      rw [position]
      refine ⟨Nat.le_add_right _ _, extended.terms _ _ ?_⟩
      rw [isNext, List.getElem?_append_right (Nat.le_add_right _ _), Nat.add_sub_cancel_left,
        List.getElem?_map, List.getElem?_eq_getElem inside]
      rfl
    · have rest := inductionHypothesis next
      have length : next.bindings.length = heap.bindings.length + 1 := by simp [isNext]
      rw [length] at rest
      refine rest.mono (fun _ _ _ there => there) ?_
      rintro b _ cell _ t _ value ⟨le, here⟩
      refine ⟨le_trans ?_ le, here⟩
      simp [isNext]

/-- `getclosure` changes no term but the one it is called on, and that only from a string. -/
theorem getclosure_cases (parsestring : Text → Option Tree) (heap : Heap) (t : TermRef) :
    heap.getclosure parsestring t = heap ∨
      ∃ (s : Text) (values : List (Text × List Value)) (tree : Tree) (binding : List BindingRef)
        (shown : TermRef → Text → Prop),
        heap.terms[t]? = some (.str s) ∧ readsClosure parsestring s = some (values, tree) ∧
        (∀ (b : BindingRef) (cell : Binding), heap.bindings[b]? = some cell →
          (heap.getclosure parsestring t).bindings[b]? = some cell) ∧
        (∀ (t' : TermRef) (cell : TermCell), t' ≠ t → heap.terms[t']? = some cell →
          (heap.getclosure parsestring t).terms[t']? = some cell) ∧
        (heap.getclosure parsestring t).terms[t]? = some (.closure tree binding) ∧
        (∀ t' s, shown t' s → (heap.getclosure parsestring t).terms[t']? = some (.str s)) ∧
        CellsShow (heap.getclosure parsestring t)
          (ValueShows (heap.getclosure parsestring t) shown tree binding) binding values := by
  unfold Heap.getclosure
  split
  case h_2 => exact .inl rfl
  case h_1 s here =>
    split
    case h_2 => exact .inl rfl
    case h_1 values tree reads =>
      right
      have inside : t < heap.terms.length := (List.getElem?_eq_some_iff.mp here).1
      set binding := List.range' heap.bindings.length values.length
      have extended := mkbindings_extends tree binding values heap
      have made := mkbindings_spec tree binding values heap
      set next := heap.mkbindings tree binding values
      have insideNext : t < next.terms.length :=
        (List.getElem?_eq_some_iff.mp (extended.terms t _ here)).1
      -- The new terms are none of the old ones, so replacing `t` leaves them alone.
      refine ⟨s, values, tree, binding,
        fun t' s => heap.terms.length ≤ t' ∧ next.terms[t']? = some (.str s), here, reads,
        extended.bindings, ?_, ?_, ?_, ?_⟩
      · intro t' cell other there
        exact (List.getElem?_set_ne (Ne.symm other)).trans (extended.terms t' cell there)
      · exact List.getElem?_set_self insideNext
      · rintro t' s ⟨fresh, there⟩
        have other : t ≠ t' := Nat.ne_of_lt (Nat.lt_of_lt_of_le inside fresh)
        exact (List.getElem?_set_ne other).trans there
      · refine made.mono (fun _ _ _ there => there) ?_
        rintro b _ cell _ t' _ value ⟨fresh, there⟩
        have other : t ≠ t' := Nat.ne_of_lt (Nat.lt_of_lt_of_le inside fresh)
        cases value with
        | str s => exact ⟨fresh, there⟩
        | nested => exact (List.getElem?_set_ne other).trans there

/-- A text that showed a term still shows it once it, or a term inside it, is a closure. -/
theorem Shows.getclosure {t : TermRef} {s : Text} (shows : Shows parsestring heap t s)
    (converted : TermRef) : Shows parsestring (heap.getclosure parsestring converted) t s := by
  rcases getclosure_cases parsestring heap converted with
    unchanged | ⟨s', values', tree', binding', fresh, before, reads, bindings, terms, after,
      strings, cells'⟩
  · rw [unchanged]
    exact shows
  set next := heap.getclosure parsestring converted
  have closures : ∀ (t' : TermRef) (tree : Tree) (binding : List BindingRef),
      heap.terms[t']? = some (.closure tree binding) →
        next.terms[t']? = some (.closure tree binding) := by
    intro t' tree binding here
    refine terms t' _ ?_ here
    rintro rfl
    rw [before] at here
    cases here
  induction shows with
  | @str t s here =>
    by_cases same : t = converted
    · subst same
      rw [before] at here
      cases here
      exact .read fresh after (fun t s shown => .str (strings t s shown)) cells' reads
    · exact .str (terms t _ same here)
  | printed shown here sound cells text inductionHypothesis =>
    exact .printed (Shows parsestring next) (closures _ _ _ here) (fun _ _ shows => shows)
      (cells.mono (fun b _ => bindings b) fun _ _ _ _ t _ s => inductionHypothesis t s) text
  | read shown here sound cells text inductionHypothesis =>
    refine .read (Shows parsestring next) (closures _ _ _ here) (fun _ _ shows => shows)
      (cells.mono (fun b _ => bindings b) ?_) text
    intro b _ cell _ t _ value shows
    cases value with
    | str s => exact inductionHypothesis t s shows
    | nested => exact closures _ _ _ shows

/-! ### Printing -/

/-- What `getstr` prints shows the term. -/
theorem shows_getstr {fuel : Nat} {t : TermRef} {s : Text}
    (printed : heap.getstr fuel t = some s) : Shows parsestring heap t s := by
  induction fuel generalizing t s with
  | zero => cases printed
  | succ fuel inductionHypothesis =>
    rw [Heap.getstr] at printed
    split at printed
    case h_1 s' here =>
      cases printed
      exact .str here
    case h_2 tree binding here =>
      obtain ⟨values, run, text⟩ := Option.bind_eq_some_iff.mp printed
      refine .printed (Shows parsestring heap) here (fun _ _ shows => shows) ?_ text
      refine (forall₂_of_mapM run).imp ?_
      intro b value result
      obtain ⟨cell, there, result⟩ := Option.bind_eq_some_iff.mp result
      obtain ⟨strings, run, equation⟩ := Option.bind_eq_some_iff.mp result
      obtain rfl : (cell.name, strings) = value := Option.some.inj equation
      exact ⟨cell, there, rfl, (forall₂_of_mapM run).imp fun _ _ => inductionHypothesis⟩
    case h_3 => cases printed

/-- Printing that comes to an end does so with all fuel from some amount on. -/
theorem Printable.eventually_getstr {t : TermRef} (printable : Printable heap t) :
    ∀ᶠ fuel in Filter.atTop, (heap.getstr fuel t).isSome := by
  induction printable with
  | str here =>
    filter_upwards [Filter.eventually_ge_atTop 1] with fuel positive
    obtain ⟨fuel, rfl⟩ := Nat.exists_eq_add_of_le' positive
    rw [Heap.getstr, here]
    rfl
  | @closure t tree binding here body defined values inductionHypothesis =>
    have inner : ∀ᶠ fuel in Filter.atTop, ∀ b ∈ binding, ∀ cell, heap.bindings[b]? = some cell →
        ∀ t ∈ cell.defn, (heap.getstr fuel t).isSome := by
      refine (Filter.eventually_all_finite (List.finite_toSet binding)).mpr fun b member => ?_
      obtain ⟨cell, there⟩ := Option.isSome_iff_exists.mp (defined b member)
      have each := (Filter.eventually_all_finite (List.finite_toSet cell.defn)).mpr
        fun t value => inductionHypothesis b member cell there t value
      filter_upwards [each] with fuel each cell' there'
      obtain rfl : cell = cell' := Option.some.inj (there.symm.trans there')
      exact each
    obtain ⟨enough, inner⟩ := Filter.eventually_atTop.mp inner
    refine Filter.eventually_atTop.mpr ⟨enough + 1, fun fuel more => ?_⟩
    obtain ⟨fuel, rfl⟩ := Nat.exists_eq_add_of_le' (Nat.le_of_add_left_le more)
    rw [Heap.getstr, here]
    have each : ∀ b ∈ binding, (heap.values (heap.getstr fuel) b).isSome := by
      intro b member
      obtain ⟨cell, there⟩ := Option.isSome_iff_exists.mp (defined b member)
      obtain ⟨strings, run⟩ := exists_mapM (inner fuel (by omega) b member cell there)
      simp [Heap.values, there, run]
    obtain ⟨printed, run⟩ := exists_mapM each
    obtain ⟨text, isText⟩ := Option.isSome_iff_exists.mp body
    simp [run, cconv, isText]

end

end Desh
