/-
This file says where the characters of a glommed word come from, and proves that
the quote flags of `glom2` and of the tilde expansion tell it. The evaluator
`glomTraced` carries along with every character whether an unquoted word of
the tree is its source; forgetting that gives `glom1`, and the quote list of
`glom2` is its record.
-/

import Desh.Glom

namespace Desh

variable {State Binding Shared Exception : Type}

/-! ### Terms with the origin of their characters -/

/-- A term that is passed on whole, or characters, each with whether it is raw. -/
inductive Traced (Binding Shared : Type) where
  | whole (term : Term Binding Shared)
  | chars (cs : List (UInt8 × Bool))

namespace Traced

/-- The term itself. -/
def term : Traced Binding Shared → Term Binding Shared
  | .whole term => term
  | .chars cs => .str (cs.map Prod.fst)

/-- No character is raw. -/
def Quoted : Traced Binding Shared → Prop
  | .whole _ => True
  | .chars cs => ∀ c ∈ cs, c.2 = false

end Traced

/-- The characters of a text, all raw or all quoted. -/
def tag (raw : Bool) (s : Text) : List (UInt8 × Bool) := s.map fun c => (c, raw)

/-- The mark of a character. -/
def mark (raw : Bool) : UInt8 := if raw then 'r'.toUInt8 else 'q'.toUInt8

/-- A mask marks exactly the raw characters of a term: `QUOTED` is for terms without any,
`UNQUOTED` for texts of nothing else, and a string has one mark for each character. -/
def Mask.MarksOf (q : Mask) (traced : Traced Binding Shared) : Prop :=
  match traced with
  | .whole _ => q = .QUOTED
  | .chars cs =>
      match q with
      | .QUOTED => ∀ c ∈ cs, c.2 = false
      | .UNQUOTED => ∀ c ∈ cs, c.2 = true
      | .marks q => q = cs.map fun c => mark c.2

/-- A list and its quote list are the record of traced terms. -/
structure RecordOf (result : List (Term Binding Shared) × List Mask)
    (traced : List (Traced Binding Shared)) : Prop where
  terms : result.1 = traced.map Traced.term
  masks : List.Forall₂ Mask.MarksOf result.2 traced

theorem recordOf_nil : RecordOf (([], []) : List (Term Binding Shared) × List Mask) [] :=
  ⟨rfl, .nil⟩

theorem RecordOf.cons {term : Term Binding Shared} {q : Mask} {terms : List (Term Binding Shared)}
    {quote : List Mask} {traced : Traced Binding Shared} {rest : List (Traced Binding Shared)}
    (record : RecordOf (terms, quote) rest) (isTerm : term = traced.term)
    (marks : q.MarksOf traced) :
    RecordOf (term :: terms, q :: quote) (traced :: rest) :=
  ⟨by rw [List.map_cons, ← record.terms, isTerm], .cons marks record.masks⟩

theorem RecordOf.append {first second : List (Term Binding Shared) × List Mask}
    {traced rest : List (Traced Binding Shared)} (record : RecordOf first traced)
    (others : RecordOf second rest) :
    RecordOf (first.1 ++ second.1, first.2 ++ second.2) (traced ++ rest) :=
  ⟨by rw [List.map_append, ← record.terms, ← others.terms],
    List.rel_append record.masks others.masks⟩

namespace Interpreter

variable (interpreter : Interpreter State Binding Shared Exception)

/-- The characters of a traced term. -/
def tracedChars (traced : Traced Binding Shared) (state : State) : List (UInt8 × Bool) :=
  match traced with
  | .whole term => tag false (interpreter.getstr term state)
  | .chars cs => cs

/-- Concatenation keeps the origin of every character. -/
def concatTraced (list1 list2 : List (Traced Binding Shared)) (state : State) :
    List (Traced Binding Shared) :=
  list1.flatMap fun t1 => list2.map fun t2 =>
    .chars (interpreter.tracedChars t1 state ++ interpreter.tracedChars t2 state)

/-- `glom1` on traced terms: the characters of an unquoted word are raw, those of a quoted word
are not, and everything that is looked up, called or closed over is passed on whole. -/
def glomTraced : Tree → Binding → EStateM Exception State (List (Traced Binding Shared))
  | .null, _ => pure []
  | .nQword s, _ => pure [.chars (tag false s)]
  | .nWord s, _ => pure [.chars (tag true s)]
  | .nThunk p, binding => pure [.whole (.closure (.nThunk p) binding)]
  | .nLambda p q, binding => pure [.whole (.closure (.nLambda p q) binding)]
  | .nPrim s, _ => pure [.whole (.closure (.nPrim s) interpreter.nullBinding)]
  | .nVar p, binding => do
      let var ← glomTraced p binding
      let list ← interpreter.lookupAll binding (var.map Traced.term)
      return list.map .whole
  | .nVarsub p q, binding => do
      match ← glomTraced p binding with
      | [] => throw (interpreter.glomFail (lit "null variable name in subscript"))
      | [traced] =>
          let name ← observing (interpreter.getstr traced.term)
          let list ← interpreter.varlookup name binding
          let sub ← glomTraced q binding
          let subs ← observing fun state =>
            sub.map fun traced => interpreter.getstr traced.term state
          match subscript (list.map Term.shared) subs with
          | .ok list => pure (list.map .whole)
          | .error bad => throw (interpreter.subscriptFail bad)
      | _ => throw (interpreter.glomFail (lit "multi-word variable name in subscript"))
  | .nCall p, binding => do
      let list ← interpreter.walk p binding
      return list.map fun term => .whole (.shared term)
  | .nList p q, binding => do
      let list ← glomTraced p binding
      let rest ← glomTraced q binding
      return list ++ rest
  | .nConcat p q, binding => do
      let l ← glomTraced p binding
      let r ← glomTraced q binding
      observing (interpreter.concatTraced l r)
  | tree, _ =>
      throw (interpreter.glomFail (lit "glom1: bad node kind " ++ decimalDigits tree.kind))

/-- Tilde expansion of one traced term: a raw `~` and the characters up to a slash become the
home directory, whose characters are quoted. -/
def tildeTraced (traced : Traced Binding Shared) :
    EStateM Exception State (Traced Binding Shared) :=
  match traced with
  | .whole term => pure (.whole term)
  | .chars cs =>
      if cs.head? = some ('~'.toUInt8, true) then do
        let fn ← interpreter.varlookup (lit "fn-%home") interpreter.nullBinding
        if fn.isEmpty then return .chars cs
        else
          let user := cs.tail.takeWhile fun c => c.1 != '/'.toUInt8
          let list ← interpreter.evalAppend fn
            (if user.isEmpty then none else some (user.map Prod.fst))
          match list with
          | [] => return .chars cs
          | [term] =>
              let home ← observing (interpreter.sharedStr term)
              return .chars (tag false home ++ cs.tail.dropWhile fun c => c.1 != '/'.toUInt8)
          | _ =>
              throw (interpreter.fail (lit "es:expandhome")
                (lit "%home returned more than one value"))
      else pure (.chars cs)

/-- Tilde expansion of a list. -/
def tildesTraced : List (Traced Binding Shared) →
    EStateM Exception State (List (Traced Binding Shared))
  | [] => pure []
  | traced :: rest => do
      let traced ← interpreter.tildeTraced traced
      let rest ← tildesTraced rest
      return traced :: rest

/-! ### Concatenation -/

@[simp] theorem map_fst_tag (raw : Bool) (s : Text) : (tag raw s).map Prod.fst = s := by
  simp [tag, Function.comp_def]

theorem forall_mem_tag (raw : Bool) (s : Text) : ∀ c ∈ tag raw s, c.2 = raw := by
  intro c member
  obtain ⟨d, -, rfl⟩ := List.mem_map.mp member
  rfl

/-- A traced term prints as its characters. -/
theorem map_fst_tracedChars (traced : Traced Binding Shared) (state : State) :
    (interpreter.tracedChars traced state).map Prod.fst =
      interpreter.getstr traced.term state := by
  cases traced with
  | whole term => exact map_fst_tag false _
  | chars cs => rfl

theorem map_term_concatTraced (list1 list2 : List (Traced Binding Shared)) (state : State) :
    (interpreter.concatTraced list1 list2 state).map Traced.term =
      interpreter.concat (list1.map Traced.term) (list2.map Traced.term) state := by
  unfold concatTraced concat
  rw [List.map_flatMap, List.flatMap_map]
  refine congrArg (fun f => list1.flatMap f) (funext fun t1 => ?_)
  rw [List.map_map, List.map_map]
  refine congrArg (fun f => list2.map f) (funext fun t2 => ?_)
  simp [Traced.term, termcat, map_fst_tracedChars]

/-- Characters that are all raw, or all quoted, have all the same mark. -/
theorem replicate_mark {cs : List (UInt8 × Bool)} {raw : Bool} (same : ∀ c ∈ cs, c.2 = raw) :
    cs.map (fun c => mark c.2) = List.replicate cs.length (mark raw) := by
  rw [List.eq_replicate_iff, List.length_map]
  refine ⟨rfl, fun m member => ?_⟩
  obtain ⟨c, inside, rfl⟩ := List.mem_map.mp member
  rw [same c inside]

theorem length_tracedChars (traced : Traced Binding Shared) (state : State) :
    (interpreter.tracedChars traced state).length =
      (interpreter.getstr traced.term state).length := by
  rw [← map_fst_tracedChars, List.length_map]

/-- Whatever its form, a mask stands for the marks of the characters. -/
theorem qcatMarks_eq {q : Mask} {traced : Traced Binding Shared} (marks : q.MarksOf traced)
    (state : State) :
    interpreter.qcatMarks q traced.term state =
      (interpreter.tracedChars traced state).map fun c => mark c.2 := by
  cases traced with
  | whole term =>
    obtain rfl : q = .QUOTED := marks
    rw [tracedChars, replicate_mark (forall_mem_tag false _), tag, List.length_map]
    rfl
  | chars cs =>
    cases q with
    | QUOTED =>
      rw [tracedChars, replicate_mark marks, qcatMarks, ← length_tracedChars]
      rfl
    | UNQUOTED =>
      rw [tracedChars, replicate_mark marks, qcatMarks, ← length_tracedChars]
      rfl
    | marks q => exact marks

theorem quoted_tracedChars {traced : Traced Binding Shared} (marks : Mask.QUOTED.MarksOf traced)
    (state : State) : ∀ c ∈ interpreter.tracedChars traced state, c.2 = false := by
  cases traced with
  | whole term => exact forall_mem_tag false _
  | chars cs => exact marks

theorem unquoted_tracedChars {traced : Traced Binding Shared}
    (marks : Mask.UNQUOTED.MarksOf traced) (state : State) :
    ∀ c ∈ interpreter.tracedChars traced state, c.2 = true := by
  cases traced with
  | whole term => cases marks
  | chars cs => exact marks

theorem qcat_marksOf {q1 q2 : Mask} {t1 t2 : Traced Binding Shared} (marks1 : q1.MarksOf t1)
    (marks2 : q2.MarksOf t2) (state : State) :
    (interpreter.qcat q1 q2 t1.term t2.term state).MarksOf
      (.chars (interpreter.tracedChars t1 state ++ interpreter.tracedChars t2 state) :
        Traced Binding Shared) := by
  have written : interpreter.qcatMarks q1 t1.term state ++ interpreter.qcatMarks q2 t2.term state =
      (interpreter.tracedChars t1 state ++ interpreter.tracedChars t2 state).map
        fun c => mark c.2 := by
    rw [interpreter.qcatMarks_eq marks1, interpreter.qcatMarks_eq marks2, List.map_append]
  unfold qcat
  split
  · exact List.forall_mem_append.mpr
      ⟨interpreter.quoted_tracedChars marks1 state, interpreter.quoted_tracedChars marks2 state⟩
  · exact List.forall_mem_append.mpr ⟨interpreter.unquoted_tracedChars marks1 state,
      interpreter.unquoted_tracedChars marks2 state⟩
  · exact written

theorem qconcatRow_recordOf {t1 : Traced Binding Shared} {q1 : Mask} (marks1 : q1.MarksOf t1)
    (state : State) {list2 : List (Term Binding Shared)} {ql2 : List Mask}
    {traced2 : List (Traced Binding Shared)} (record : RecordOf (list2, ql2) traced2) :
    ∃ result, interpreter.qconcatRow t1.term q1 state list2 ql2 = some result ∧
      RecordOf result (traced2.map fun t2 =>
        .chars (interpreter.tracedChars t1 state ++ interpreter.tracedChars t2 state)) := by
  obtain ⟨terms, masks⟩ := record
  simp only at terms masks
  subst terms
  induction masks with
  | nil => exact ⟨_, rfl, recordOf_nil⟩
  | @cons q2 t2 ql2 traced2 marks2 masks inductionHypothesis =>
    obtain ⟨result, row, record⟩ := inductionHypothesis
    refine ⟨(_, _), by rw [List.map_cons, qconcatRow, row]; rfl, ?_⟩
    refine record.cons ?_ (interpreter.qcat_marksOf marks1 marks2 state)
    simp [Traced.term, termcat, map_fst_tracedChars]

theorem qconcat_recordOf {list1 list2 : List (Term Binding Shared)} {ql1 ql2 : List Mask}
    {traced1 traced2 : List (Traced Binding Shared)} (record1 : RecordOf (list1, ql1) traced1)
    (record2 : RecordOf (list2, ql2) traced2) (state : State) :
    ∃ result, interpreter.qconcat list2 ql2 state list1 ql1 = some result ∧
      RecordOf result (interpreter.concatTraced traced1 traced2 state) := by
  obtain ⟨terms, masks⟩ := record1
  simp only at terms masks
  subst terms
  induction masks with
  | nil => exact ⟨_, rfl, recordOf_nil⟩
  | @cons q1 t1 ql1 traced1 marks1 masks inductionHypothesis =>
    obtain ⟨rest, others, restRecord⟩ := inductionHypothesis
    obtain ⟨row, first, rowRecord⟩ := interpreter.qconcatRow_recordOf marks1 state record2
    refine ⟨(row.1 ++ rest.1, row.2 ++ rest.2), ?_, ?_⟩
    · rw [List.map_cons, qconcat, first, others]
      rfl
    · exact rowRecord.append restRecord

/-! ### The two glommers -/

/-- The kinds of nodes `glom2` evaluates by itself. -/
def mayBeRaw : Tree → Bool
  | .nWord _ | .nList .. | .nConcat .. => true
  | _ => false

/-- Forgetting the origins leaves the terms, and only trees of some kinds have raw characters. -/
def Forgets (raw : Bool) (terms : List (Term Binding Shared))
    (traced : List (Traced Binding Shared)) : Prop :=
  terms = traced.map Traced.term ∧ (raw = false → ∀ t ∈ traced, t.Quoted)

theorem forgets_whole (raw : Bool) (list : List (Term Binding Shared)) :
    Forgets raw list (list.map Traced.whole) := by
  refine ⟨by simp [Function.comp_def, Traced.term], fun _ t member => ?_⟩
  obtain ⟨term, -, rfl⟩ := List.mem_map.mp member
  exact trivial

/-- `glom1` is the traced evaluator with the origins forgotten. -/
theorem glom1_agree (tree : Tree) (binding : Binding) :
    Agree (Forgets (mayBeRaw tree)) (interpreter.glom1 tree binding)
      (interpreter.glomTraced tree binding) := by
  induction tree with
  | null => exact agree_pure (forgets_whole _ [])
  | nWord s => exact agree_pure ⟨by simp [Traced.term], by rintro ⟨⟩⟩
  | nQword s =>
    refine agree_pure ⟨by simp [Traced.term], fun _ t member => ?_⟩
    rw [List.mem_singleton.mp member]
    exact forall_mem_tag false s
  | nPrim s => exact agree_pure (forgets_whole _ [_])
  | nThunk p => exact agree_pure (forgets_whole _ [_])
  | nLambda p q => exact agree_pure (forgets_whole _ [_])
  | nVar p inductionHypothesis =>
    refine agree_bind inductionHypothesis fun var traced same => ?_
    rw [same.1]
    exact agree_bind_pure (forgets_whole _) _
  | nVarsub p q nameHypothesis subHypothesis =>
    refine agree_bind nameHypothesis fun names tracedNames same => ?_
    obtain rfl : names = tracedNames.map Traced.term := same.1
    rcases tracedNames with _ | ⟨traced, _ | ⟨second, others⟩⟩
    · exact agree_throw _
    · refine agree_bind (agree_refl _) ?_
      rintro name _ rfl
      refine agree_bind (agree_refl _) ?_
      rintro list _ rfl
      refine agree_bind subHypothesis fun sub tracedSub same => ?_
      obtain rfl : sub = tracedSub.map Traced.term := same.1
      simp only [List.map_map, Function.comp_def]
      refine agree_bind (agree_refl _) ?_
      rintro subs _ rfl
      cases subscript (list.map Term.shared) subs with
      | error bad => exact agree_throw _
      | ok list => exact agree_pure (forgets_whole _ list)
    · exact agree_throw _
  | nCall p =>
    refine agree_bind (agree_refl _) ?_
    rintro list _ rfl
    have whole := forgets_whole false (list.map Term.shared : List (Term Binding Shared))
    rw [List.map_map] at whole
    exact agree_pure whole
  | nList p q firstHypothesis restHypothesis =>
    refine agree_bind firstHypothesis fun list traced same => ?_
    refine agree_bind restHypothesis fun rest tracedRest sameRest => ?_
    exact agree_pure ⟨by rw [List.map_append, ← same.1, ← sameRest.1], by rintro ⟨⟩⟩
  | nConcat p q firstHypothesis secondHypothesis =>
    refine agree_bind firstHypothesis fun l traced same => ?_
    refine agree_bind secondHypothesis fun r tracedR sameR => ?_
    refine agree_observing fun state => ⟨?_, by rintro ⟨⟩⟩
    rw [map_term_concatTraced, ← same.1, ← sameR.1]
  | _ => exact agree_throw _

theorem inStep_recordOf {result : List (Term Binding Shared) × List Mask}
    {traced : List (Traced Binding Shared)} (record : RecordOf result traced) :
    (interpreter.inStep result : EStateM Exception State _) = pure result := by
  have length : result.1.length = result.2.length := by
    rw [record.terms, List.length_map, record.masks.length_eq]
  unfold inStep
  by_cases empty : result.1.isEmpty = true
  · rw [if_pos empty]
    rw [List.isEmpty_iff] at empty
    rw [empty, List.length_nil] at length
    rw [← empty, ← List.eq_nil_of_length_eq_zero length.symm]
  · rw [if_neg empty, if_pos length]

theorem quoted_marksOf {traced : Traced Binding Shared} (quoted : traced.Quoted) :
    Mask.QUOTED.MarksOf traced := by
  cases traced with
  | whole term => exact rfl
  | chars cs => exact quoted

/-- Where `glom2` leaves a tree to `glom1` every character is quoted. -/
theorem glom2_quoted_agree {tree : Tree} (quoted : mayBeRaw tree = false) (binding : Binding) :
    Agree RecordOf
      (do
        let list ← interpreter.glom1 tree binding
        interpreter.inStep (list, list.map fun _ => Mask.QUOTED))
      (interpreter.glomTraced tree binding) := by
  rw [← bind_pure (interpreter.glomTraced tree binding)]
  refine agree_bind (interpreter.glom1_agree tree binding) fun list traced same => ?_
  have record : RecordOf (list, list.map fun _ => Mask.QUOTED) traced := by
    refine ⟨same.1, ?_⟩
    rw [same.1, List.map_map]
    refine List.forall₂_map_left_iff.mpr (List.forall₂_same.mpr fun t member => ?_)
    exact quoted_marksOf (same.2 quoted t member)
  rw [interpreter.inStep_recordOf record]
  exact agree_pure record

/-- The quote list of `glom2` is the record of the traced evaluator. -/
theorem glom2_agree (tree : Tree) (binding : Binding) :
    Agree RecordOf (interpreter.glom2 tree binding) (interpreter.glomTraced tree binding) := by
  induction tree with
  | null => exact agree_pure recordOf_nil
  | nWord s =>
    have record : RecordOf ([.str s], [.UNQUOTED])
        ([.chars (tag true s)] : List (Traced Binding Shared)) :=
      recordOf_nil.cons (by simp [Traced.term]) (forall_mem_tag true s)
    rw [glom2, interpreter.inStep_recordOf record]
    exact agree_pure record
  | nList p q firstHypothesis restHypothesis =>
    refine agree_bind firstHypothesis fun first traced record => ?_
    rw [interpreter.inStep_recordOf record, pure_bind]
    refine agree_bind restHypothesis fun rest tracedRest recordRest => ?_
    exact agree_pure (record.append recordRest)
  | nConcat p q firstHypothesis secondHypothesis =>
    refine agree_bind firstHypothesis fun l traced record => ?_
    refine agree_bind secondHypothesis fun r tracedR recordR => ?_
    have both : Agree (fun result concat => ∃ both, result = some both ∧ RecordOf both concat)
        (observing fun state => interpreter.qconcat r.1 r.2 state l.1 l.2 :
          EStateM Exception State _)
        (observing (interpreter.concatTraced traced tracedR)) :=
      agree_observing fun state => interpreter.qconcat_recordOf record recordR state
    rw [← bind_pure (observing (interpreter.concatTraced traced tracedR))]
    refine agree_bind both ?_
    rintro _ concat ⟨both, rfl, recordBoth⟩
    simp only
    rw [interpreter.inStep_recordOf recordBoth]
    exact agree_pure recordBoth
  | _ => exact interpreter.glom2_quoted_agree rfl binding

/-! ### Tilde expansion -/

theorem mark_false : mark false = 'q'.toUInt8 := rfl

theorem mark_true : mark true = 'r'.toUInt8 := rfl

/-- A string starts with an unquoted tilde when its first character is a raw one. -/
theorem hastilde_iff {q : Mask} {cs : List (UInt8 × Bool)}
    (marks : q.MarksOf (.chars cs : Traced Binding Shared)) :
    hastilde (cs.map Prod.fst) q = true ↔ cs.head? = some ('~'.toUInt8, true) := by
  cases cs with
  | nil => cases q <;> simp [hastilde]
  | cons c cs =>
    obtain ⟨c, raw⟩ := c
    cases q with
    | QUOTED =>
      obtain rfl : raw = false := marks (c, raw) List.mem_cons_self
      simp [hastilde]
    | UNQUOTED =>
      obtain rfl : raw = true := marks (c, raw) List.mem_cons_self
      simp [hastilde]
    | marks q =>
      obtain rfl : q = ((c, raw) :: cs).map fun c => mark c.2 := marks
      have different : 'q'.toUInt8 ≠ 'r'.toUInt8 := by decide
      cases raw <;> simp [hastilde, mark, different]

/-- The quote flags of an expanded word: the home directory is quoted, the rest as it was. -/
theorem expandhomeMask_marksOf {q : Mask} {user rest : List (UInt8 × Bool)} {c : UInt8}
    (marks : q.MarksOf (.chars ((c, true) :: (user ++ rest)) : Traced Binding Shared))
    (home : Text) :
    (expandhomeMask q home.length ((c, true) :: (user ++ rest)).length (1 + user.length)).MarksOf
      (.chars (tag false home ++ rest) : Traced Binding Shared) := by
  have left : ((c, true) :: (user ++ rest)).length - (1 + user.length) = rest.length := by
    simp only [List.length_cons, List.length_append]
    omega
  have quoted : (tag false home).map (fun c => mark c.2) =
      List.replicate home.length 'q'.toUInt8 := by
    rw [replicate_mark (forall_mem_tag false home), tag, List.length_map, mark_false]
  cases q with
  | QUOTED => exact absurd (marks (c, true) List.mem_cons_self) Bool.noConfusion
  | UNQUOTED =>
    have raw : ∀ d ∈ rest, d.2 = true := fun d member =>
      marks d (List.mem_cons_of_mem _ (List.mem_append_right user member))
    show _ = _
    rw [left, List.map_append, quoted, replicate_mark raw, mark_true]
  | marks q =>
    obtain rfl : q = ((c, true) :: (user ++ rest)).map fun c => mark c.2 := marks
    have found : 'r'.toUInt8 ∈ ((c, true) :: (user ++ rest)).map fun c => mark c.2 := by
      rw [List.map_cons]
      exact List.mem_cons_self
    have dropped : (((c, true) :: (user ++ rest)).map fun c => mark c.2).drop (1 + user.length) =
        rest.map fun c => mark c.2 := by
      rw [Nat.add_comm, ← List.map_drop, List.drop_succ_cons, List.drop_left]
    rw [expandhomeMask, if_neg (not_not.mpr found), dropped, left, List.take_of_length_le (by simp)]
    show _ = _
    rw [List.map_append, quoted]

/-- What `expandhome` returns is the record of a traced term. -/
def RecordOfOne (result : Text × Mask) (traced : Traced Binding Shared) : Prop :=
  .str result.1 = traced.term ∧ result.2.MarksOf traced

/-- `expandhome` does what tilde expansion does to a traced term. -/
theorem expandhome_agree {q : Mask} {cs : List (UInt8 × Bool)}
    (marks : q.MarksOf (.chars cs : Traced Binding Shared))
    (tilde : cs.head? = some ('~'.toUInt8, true)) :
    Agree RecordOfOne (interpreter.expandhome (cs.map Prod.fst) q)
      (interpreter.tildeTraced (.chars cs)) := by
  obtain ⟨first, rfl⟩ : ∃ tail, cs = ('~'.toUInt8, true) :: tail := by
    cases cs with
    | nil => cases tilde
    | cons c cs => exact ⟨cs, by rw [Option.some.inj tilde]⟩
  have unchanged : RecordOfOne ((('~'.toUInt8, true) :: first).map Prod.fst, q)
      (.chars (('~'.toUInt8, true) :: first) : Traced Binding Shared) := ⟨rfl, marks⟩
  -- the user's name, and what follows it from the slash on
  obtain ⟨user, isUser⟩ : ∃ user, (first.takeWhile fun c => c.1 != '/'.toUInt8) = user := ⟨_, rfl⟩
  obtain ⟨rest, isRest⟩ : ∃ rest, (first.dropWhile fun c => c.1 != '/'.toUInt8) = rest := ⟨_, rfl⟩
  have split : first = user ++ rest := by
    rw [← isUser, ← isRest, List.takeWhile_append_dropWhile]
  have name : ((user.map Prod.fst ++ rest.map Prod.fst).takeWhile fun c => c != '/'.toUInt8) =
      user.map Prod.fst := by
    rw [← List.map_append, ← split, List.takeWhile_map, ← isUser]
    rfl
  have whole : (('~'.toUInt8, true) :: first).map Prod.fst =
      '~'.toUInt8 :: (user.map Prod.fst ++ rest.map Prod.fst) := by
    rw [split, List.map_cons, List.map_append]
  have argument : (if 1 < 1 + user.length then
      some (((('~'.toUInt8 :: (user.map Prod.fst ++ rest.map Prod.fst)) : Text).drop 1).take
        (1 + user.length - 1)) else none) =
      if user.isEmpty then none else some (user.map Prod.fst) := by
    cases user with
    | nil => rfl
    | cons c user =>
      rw [if_pos (by simp), if_neg (by simp), List.drop_succ_cons, List.drop_zero,
        Nat.add_sub_cancel_left]
      refine congrArg some (List.take_left' (by simp))
  have left : ('~'.toUInt8 :: (user.map Prod.fst ++ rest.map Prod.fst)).drop (1 + user.length) =
      rest.map Prod.fst := by
    rw [Nat.add_comm, List.drop_succ_cons]
    exact List.drop_left' (by simp)
  rw [tildeTraced, if_pos tilde, expandhome, whole]
  simp only [List.tail_cons, isUser, isRest, name, List.length_map, argument, left]
  refine agree_bind (agree_refl _) ?_
  rintro fn _ rfl
  by_cases nobody : fn.isEmpty = true
  · rw [if_pos nobody, if_pos nobody, ← whole]
    exact agree_pure unchanged
  rw [if_neg nobody, if_neg nobody]
  refine agree_bind (agree_refl _) ?_
  rintro list _ rfl
  rcases list with _ | ⟨term, _ | ⟨second, others⟩⟩
  · rw [← whole]
    exact agree_pure unchanged
  · refine agree_bind (agree_refl _) ?_
    rintro home _ rfl
    have text : home ++ rest.map Prod.fst = (tag false home ++ rest).map Prod.fst := by
      rw [List.map_append, map_fst_tag]
    split_ifs with more
    · refine agree_pure ⟨by simp only [Traced.term, text], ?_⟩
      have expanded := expandhomeMask_marksOf (split ▸ marks) home
      simpa using expanded
    · have none : rest = [] := by
        rw [List.length_cons, List.length_append, List.length_map, List.length_map] at more
        exact List.eq_nil_of_length_eq_zero (by omega)
      rw [none, List.append_nil]
      exact agree_pure ⟨by simp [Traced.term], forall_mem_tag false home⟩
  · exact agree_throw _

theorem tildeTraced_of_not_tilde {cs : List (UInt8 × Bool)}
    (other : cs.head? ≠ some ('~'.toUInt8, true)) :
    interpreter.tildeTraced (.chars cs) = pure (.chars cs) := if_neg other

theorem tildeTraced_of_quoted {traced : Traced Binding Shared} (quoted : traced.Quoted) :
    interpreter.tildeTraced traced = pure traced := by
  cases traced with
  | whole term => rfl
  | chars cs =>
    refine interpreter.tildeTraced_of_not_tilde fun tilde => ?_
    have raw := quoted _ (List.mem_of_mem_head? tilde)
    cases raw

/-- The assertions of `glob` hold of a mask and its word. -/
theorem globAsserts_of_marksOf {q : Mask} {cs : List (UInt8 × Bool)}
    (marks : q.MarksOf (.chars cs : Traced Binding Shared)) (state : State) :
    interpreter.globAsserts (.str (cs.map Prod.fst)) q state = true := by
  cases q with
  | QUOTED => rfl
  | UNQUOTED => rfl
  | marks q =>
    obtain rfl : q = cs.map fun c => mark c.2 := marks
    simp [globAsserts, isclosure, getstr]

/-- The loop of `glob` keeps the record. -/
theorem globTildes_agree {result : List (Term Binding Shared) × List Mask}
    {traced : List (Traced Binding Shared)} (record : RecordOf result traced) :
    Agree (fun expanded traced => RecordOf expanded.1 traced)
      (interpreter.globTildes result.1 result.2) (interpreter.tildesTraced traced) := by
  obtain ⟨terms, quote⟩ := result
  obtain ⟨isTerms, masks⟩ := record
  simp only at isTerms masks
  subst isTerms
  induction masks with
  | nil => exact agree_pure recordOf_nil
  | @cons q t quote traced marks masks inductionHypothesis =>
    have rest : ∀ (wild : Bool → Bool) {term : Term Binding Shared} {q : Mask}
        {t : Traced Binding Shared}, term = t.term → q.MarksOf t →
        Agree (fun expanded traced => RecordOf expanded.1 traced)
          (do
            let expanded ← interpreter.globTildes (traced.map Traced.term) quote
            return ((term :: expanded.1.1, q :: expanded.1.2), wild expanded.2))
          (do
            let rest ← interpreter.tildesTraced traced
            return t :: rest) := by
      intro wild term q t isTerm marks
      refine agree_bind inductionHypothesis ?_
      rintro ⟨⟨terms, quote⟩, doglobbing⟩ traced record
      exact agree_pure (record.cons isTerm marks)
    rw [List.map_cons, globTildes, tildesTraced]
    by_cases quoted : q = .QUOTED
    · subst quoted
      have noRaw : t.Quoted := by
        cases t with
        | whole term => exact trivial
        | chars cs => exact marks
      rw [if_pos rfl, interpreter.tildeTraced_of_quoted noRaw, pure_bind]
      exact rest id rfl marks
    · rw [if_neg quoted]
      obtain ⟨cs, rfl⟩ : ∃ cs, t = .chars cs := by
        cases t with
        | whole term => exact absurd marks quoted
        | chars cs => exact ⟨cs, rfl⟩
      have asserts : (observing (interpreter.globAsserts (.str (cs.map Prod.fst)) q) :
          EStateM Exception State Bool) = pure true := by
        funext state
        exact congrArg (fun b => EStateM.Result.ok b state)
          (interpreter.globAsserts_of_marksOf marks state)
      have string : (observing (interpreter.getstr (.str (cs.map Prod.fst))) :
          EStateM Exception State Text) = pure (cs.map Prod.fst) := rfl
      rw [Traced.term, asserts, pure_bind, if_pos rfl, string, pure_bind]
      by_cases tilde : cs.head? = some ('~'.toUInt8, true)
      · rw [if_pos ((hastilde_iff marks).mpr tilde)]
        refine agree_bind (interpreter.expandhome_agree marks tilde) ?_
        rintro ⟨s, q⟩ t ⟨isTerm, marks⟩
        exact rest (fun doglobbing => haswild s q || doglobbing) isTerm marks
      · rw [if_neg (fun found => tilde ((hastilde_iff marks).mp found)),
          interpreter.tildeTraced_of_not_tilde tilde, pure_bind]
        exact rest (fun doglobbing => haswild (cs.map Prod.fst) q || doglobbing) rfl marks

/-- `glom2` returns the terms of `glom1`, its quote list has their length and marks exactly the
characters that come from unquoted words, and tilde expansion by `glob` keeps it so. -/
theorem glom2_globTildes_spec (tree : Tree) (binding : Binding) :
    Agree (fun result list => result.1 = list ∧ result.2.length = list.length)
        (interpreter.glom2 tree binding) (interpreter.glom1 tree binding) ∧
      Agree RecordOf (interpreter.glom2 tree binding) (interpreter.glomTraced tree binding) ∧
      Agree (fun expanded traced => RecordOf expanded.1 traced)
        (do
          let (list, quote) ← interpreter.glom2 tree binding
          interpreter.globTildes list quote)
        (do
          let traced ← interpreter.glomTraced tree binding
          interpreter.tildesTraced traced) := by
  refine ⟨?_, interpreter.glom2_agree tree binding,
    agree_bind (interpreter.glom2_agree tree binding) fun result traced record =>
      interpreter.globTildes_agree record⟩
  refine (interpreter.glom2_agree tree binding).join (interpreter.glom1_agree tree binding) ?_
  intro result list traced record same
  rw [record.terms, same.1]
  exact ⟨rfl, by rw [record.masks.length_eq, List.length_map]⟩

end Interpreter

end Desh
