/-
This file says what subscripts designate and proves that the loop of
`subscript`, which keeps a cursor into the list from one subscript to the next,
collects just that. A positional variable takes another way to an element of the
arguments, by `strtol` and `nth`; where the two meet is a question of what a
numeral becomes as an `int`.
-/

import Desh.Closure

namespace Desh

/-! ### Numerals -/

/-- The value of a decimal numeral, which may have a sign. -/
def numeral (s : Text) : Option Int :=
  let digits (s : Text) : Option Int :=
    if s ≠ [] ∧ s.all isdigit then some (digitsValue s) else none
  match s with
  | c :: rest =>
      if c = '-'.toUInt8 then (digits rest).map (- ·)
      else if c = '+'.toUInt8 then digits rest
      else digits s
  | [] => none

/-- A numeral that fits an `int`. -/
def FitsInt (s : Text) : Prop :=
  ∃ n, numeral s = some n ∧ -2 ^ 31 ≤ n ∧ n < 2 ^ 31

theorem digitsValue_append (digits : Text) (c : UInt8) :
    digitsValue (digits ++ [c]) = digitsValue digits * 10 + ((c - '0'.toUInt8).toNat : Int) := by
  unfold digitsValue
  rw [List.foldl_append]
  rfl

theorem digitsValue_nonneg (digits : Text) : 0 ≤ digitsValue digits := by
  induction digits using List.reverseRecOn with
  | nil => exact Int.le_refl 0
  | append_singleton digits c ih =>
    rw [digitsValue_append]
    omega

/-- The value `strtol` gives in base ten, between the least and the greatest `long`. -/
def strtol (s : Text) : Int :=
  let s := s.dropWhile isspace
  let (sign, s) : Int × Text :=
    match s with
    | c :: rest =>
        if c = '-'.toUInt8 then (-1, rest) else if c = '+'.toUInt8 then (1, rest) else (1, s)
    | [] => (1, s)
  max (-2 ^ 63) (min (2 ^ 63 - 1) (sign * digitsValue (s.takeWhile isdigit)))

theorem atoi_eq (s : Text) : atoi s = (strtol s).bmod (2 ^ 32) := rfl

theorem takeWhile_digits {digits : Text} (all : digits.all isdigit = true) :
    digits.takeWhile isdigit = digits :=
  List.takeWhile_eq_self_iff.mpr (List.all_eq_true.mp all)

theorem isdigit_spec {c : UInt8} (digit : isdigit c = true) :
    isspace c = false ∧ c ≠ '-'.toUInt8 ∧ c ≠ '+'.toUInt8 := by
  have each : ∀ c : UInt8, isdigit c = true →
      isspace c = false ∧ c ≠ '-'.toUInt8 ∧ c ≠ '+'.toUInt8 := fun c =>
    forall_byte (by decide +kernel) c
  exact each c digit

/-- The whole of a numeral is read. -/
theorem strtol_of_numeral {s : Text} {n : Int} (isNumeral : numeral s = some n) :
    strtol s = max (-2 ^ 63) (min (2 ^ 63 - 1) n) := by
  cases s with
  | nil => cases isNumeral
  | cons c rest =>
    rw [numeral] at isNumeral
    dsimp only at isNumeral
    unfold strtol
    by_cases minus : c = '-'.toUInt8
    · rw [if_pos minus] at isNumeral
      obtain ⟨value, whole, rfl⟩ := Option.map_eq_some_iff.mp isNumeral
      split_ifs at whole with digits
      cases whole
      have start : (c :: rest).dropWhile isspace = c :: rest :=
        List.dropWhile_cons_of_neg (by rw [minus]; decide)
      rw [start]
      dsimp only
      rw [if_pos minus]
      dsimp only
      rw [takeWhile_digits digits.2, Int.neg_one_mul]
    · rw [if_neg minus] at isNumeral
      by_cases plus : c = '+'.toUInt8
      · rw [if_pos plus] at isNumeral
        split_ifs at isNumeral with digits
        cases isNumeral
        have start : (c :: rest).dropWhile isspace = c :: rest :=
          List.dropWhile_cons_of_neg (by rw [plus]; decide)
        rw [start]
        dsimp only
        rw [if_neg minus, if_pos plus]
        dsimp only
        rw [takeWhile_digits digits.2, Int.one_mul]
      · rw [if_neg plus] at isNumeral
        split_ifs at isNumeral with digits
        cases isNumeral
        have first : isdigit c = true := List.all_eq_true.mp digits.2 c List.mem_cons_self
        have start : (c :: rest).dropWhile isspace = c :: rest :=
          List.dropWhile_cons_of_neg (by rw [(isdigit_spec first).1]; decide)
        rw [start]
        dsimp only
        rw [if_neg minus, if_neg plus]
        dsimp only
        rw [takeWhile_digits digits.2, Int.one_mul]

/-- A numeral that fits an `int` is read as its value. -/
theorem atoi_of_fits {s : Text} {n : Int} (isNumeral : numeral s = some n) (least : -2 ^ 31 ≤ n)
    (most : n < 2 ^ 31) : atoi s = n := by
  have within : max (-2 ^ 63) (min (2 ^ 63 - 1) n) = n := by omega
  rw [atoi_eq, strtol_of_numeral isNumeral, within]
  exact Int.bmod_eq_of_le (by omega) (by omega)

/-! ### What subscripts designate -/

/-- The marker of a range. -/
def dots : Text := lit "..."

/-- The ranges subscripts stand for, with their bounds as they are written. A subscript alone is a
range from itself to itself; a range without an upper bound goes on to the end. -/
def ranges : List Text → List (Text × Option Text)
  | [] => []
  | [lo] => [(lo, some lo)]
  | lo :: mark :: rest =>
      if mark = dots then
        match rest with
        | [] => [(lo, none)]
        | hi :: rest => (lo, some hi) :: ranges rest
      else (lo, some lo) :: ranges (mark :: rest)

theorem ranges_toEnd (lo : Text) : ranges [lo, dots] = [(lo, none)] := by
  rw [ranges, if_pos rfl]

theorem ranges_between (lo hi : Text) (rest : List Text) :
    ranges (lo :: dots :: hi :: rest) = (lo, some hi) :: ranges rest := by
  rw [ranges, if_pos rfl]

theorem ranges_single {lo mark : Text} {rest : List Text} (other : mark ≠ dots) :
    ranges (lo :: mark :: rest) = (lo, some lo) :: ranges (mark :: rest) := by
  rw [ranges.eq_def]
  dsimp only
  rw [if_neg other]

/-- The first subscript is the lower bound of the first range. -/
theorem ranges_cons (lo : Text) (subs : List Text) :
    ∃ hi others, ranges (lo :: subs) = (lo, hi) :: others := by
  cases subs with
  | nil => exact ⟨_, _, rfl⟩
  | cons mark rest =>
    by_cases isRange : mark = dots
    · subst isRange
      cases rest with
      | nil => exact ⟨_, _, ranges_toEnd lo⟩
      | cons hi rest => exact ⟨_, _, ranges_between lo hi rest⟩
    · exact ⟨_, _, ranges_single isRange⟩

/-- A marker in front is the marker of a range from 1. -/
def fromStart (subs : List Text) : List Text :=
  if subs.head? = some dots then lit "1" :: subs else subs

/-- The bounds of ranges: the subscripts in numeral position. -/
def bounds (ranges : List (Text × Option Text)) : List Text :=
  ranges.flatMap fun (lo, hi) => lo :: hi.toList

/-- A positive number. -/
def Positive (s : Text) : Prop := ∃ n, numeral s = some n ∧ 0 < n

section

variable {α : Type}

/-- The elements at the positions of a range, counted from 1. -/
def elements (list : List α) (lo hi : Nat) : List α :=
  (List.range' lo (hi + 1 - lo)).filterMap fun position => list[position - 1]?

/-- The elements a range designates. -/
def designated (list : List α) (range : Text × Option Text) : List α :=
  let bound (s : Text) : Nat := ((numeral s).getD 0).toNat
  elements list (bound range.1) ((range.2.map bound).getD list.length)

theorem designated_between (list : List α) (lo hi : Text) : designated list (lo, some hi) =
    elements list ((numeral lo).getD 0).toNat ((numeral hi).getD 0).toNat := rfl

theorem designated_toEnd (list : List α) (lo : Text) :
    designated list (lo, none) = elements list ((numeral lo).getD 0).toNat list.length := rfl

theorem elements_eq (list : List α) {lo : Nat} (positive : 1 ≤ lo) (hi : Nat) :
    elements list lo hi = (list.drop (lo - 1)).take (hi + 1 - lo) := by
  unfold elements
  generalize hi + 1 - lo = count
  induction count generalizing lo with
  | zero => rfl
  | succ count ih =>
    rw [List.range'_succ, List.filterMap_cons, ih (Nat.le_succ_of_le positive)]
    obtain ⟨before, rfl⟩ : ∃ before, lo = before + 1 := ⟨lo - 1, by omega⟩
    rw [Nat.add_sub_cancel, Nat.succ_sub_one]
    cases found : list[before]? with
    | none =>
      have short := List.getElem?_eq_none_iff.mp found
      rw [List.drop_eq_nil_of_le short, List.drop_eq_nil_of_le (by omega)]
      simp
    | some element =>
      obtain ⟨within, rfl⟩ := List.getElem?_eq_some_iff.mp found
      rw [List.drop_eq_getElem_cons within, List.take_succ_cons]

/-- A range that ends behind the list ends with it. -/
theorem elements_min (list : List α) {lo : Nat} (positive : 1 ≤ lo) (hi : Nat) :
    elements list lo (min hi list.length) = elements list lo hi := by
  rw [elements_eq list positive, elements_eq list positive]
  rcases Nat.le_total hi list.length with within | behind
  · rw [Nat.min_eq_left within]
  · have all : (list.drop (lo - 1)).length ≤ list.length + 1 - lo := by
      rw [List.length_drop]
      omega
    rw [Nat.min_eq_right behind, List.take_of_length_le all, List.take_of_length_le (by omega)]

/-! ### The cursor -/

/-- The cursor of `subscript`: `current` is the list from the position `counter`. -/
structure Cursor (list : List α) (counter : Nat) (current : List α) : Prop where
  positive : 1 ≤ counter
  rest : current = list.drop (counter - 1)

theorem Cursor.start (list : List α) : Cursor list 1 list := ⟨Nat.le_refl 1, rfl⟩

/-- One range is collected, and the cursor stands behind it. -/
theorem subscriptRange_spec {list : List α} {counter : Nat} {current : List α}
    (cursor : Cursor list counter current) {lo hi : Nat} (positive : 1 ≤ lo)
    (within : lo ≤ list.length → hi ≤ list.length) :
    ∃ counter' current', subscriptRange list lo hi counter current =
        (elements list lo hi, counter', current') ∧ Cursor list counter' current' := by
  unfold subscriptRange
  by_cases behind : list.length < lo
  · rw [if_pos behind]
    refine ⟨counter, current, ?_, cursor⟩
    rw [elements_eq list positive, List.drop_eq_nil_of_le (by omega), List.take_nil]
  · rw [if_neg behind]
    have inside := within (Nat.le_of_not_lt behind)
    have placed : ∀ {counter : Nat} {current : List α}, Cursor list counter current →
        counter ≤ lo → current.drop (lo - counter) = list.drop (lo - 1) := by
      intro counter current cursor before
      have first := cursor.positive
      rw [cursor.rest, List.drop_drop]
      congr 1
      omega
    have after : Cursor list (max lo (hi + 1)) ((list.drop (lo - 1)).drop (hi + 1 - lo)) := by
      refine ⟨by omega, ?_⟩
      rw [List.drop_drop]
      congr 1
      omega
    refine ⟨_, _, ?_, after⟩
    rw [elements_eq list positive]
    by_cases rewind : lo < counter
    · rw [if_pos rewind]
    · rw [if_neg rewind]
      dsimp only
      rw [placed cursor (Nat.le_of_not_lt rewind)]

/-! ### The loop -/

/-- A subscript is a numeral that fits an `int`, or the marker of a range. -/
def IsSubscript (s : Text) : Prop := FitsInt s ∨ s = dots

theorem numeral_dots : numeral dots = none := by decide

/-- A bound is accepted when it is a positive number, which is then what it is read as. -/
theorem atoi_of_isSubscript {s : Text} (isSubscript : IsSubscript s) :
    (Positive s ∧ ((numeral s).getD 0).toNat = (atoi s).toNat ∧ 1 ≤ atoi s) ∨
      (¬Positive s ∧ atoi s < 1) := by
  rcases isSubscript with ⟨n, isNumeral, least, most⟩ | rfl
  · rw [atoi_of_fits isNumeral least most, isNumeral]
    rcases Int.lt_or_le 0 n with positive | other
    · exact .inl ⟨⟨n, isNumeral, positive⟩, rfl, positive⟩
    · refine .inr ⟨?_, Int.lt_add_one_of_le other⟩
      rintro ⟨m, same, positive⟩
      cases isNumeral.symm.trans same
      exact absurd positive (Int.not_lt.mpr other)
  · refine .inr ⟨?_, by decide⟩
    rintro ⟨m, same, -⟩
    cases numeral_dots.symm.trans same

/-- What the loop returns: the elements of all ranges, or a bound that is no positive number. -/
def Collects (list : List α) (ranges : List (Text × Option Text))
    (result : Except Text (List α)) : Prop :=
  (∀ bound ∈ bounds ranges, Positive bound) ∧ result = .ok (ranges.flatMap (designated list)) ∨
    ∃ bound ∈ bounds ranges, ¬Positive bound ∧ result = .error bound

namespace Collects

variable {list : List α} {lo : Text} {ranges : List (Text × Option Text)}

theorem nil : Collects list [] (.ok []) := .inl ⟨nofun, rfl⟩

theorem badLower (bad : ¬Positive lo) (hi : Option Text) :
    Collects list ((lo, hi) :: ranges) (.error lo) :=
  .inr ⟨lo, List.mem_cons_self, bad, rfl⟩

theorem badUpper {hi : Text} (bad : ¬Positive hi) :
    Collects list ((lo, some hi) :: ranges) (.error hi) :=
  .inr ⟨hi, List.mem_cons_of_mem _ List.mem_cons_self, bad, rfl⟩

theorem cons {hi : Option Text} {result : Except Text (List α)} (positive : Positive lo)
    (upper : ∀ bound ∈ hi, Positive bound) (rest : Collects list ranges result) :
    Collects list ((lo, hi) :: ranges) (result.map (designated list (lo, hi) ++ ·)) := by
  rcases rest with ⟨positives, rfl⟩ | ⟨bound, member, bad, rfl⟩
  · refine .inl ⟨?_, rfl⟩
    refine List.forall_mem_append.mpr ⟨List.forall_mem_cons.mpr ⟨positive, ?_⟩, positives⟩
    exact fun bound member => upper bound (Option.mem_toList.mp member)
  · exact .inr ⟨bound, List.mem_append_right _ member, bad, rfl⟩

end Collects

/-- One range of the loop. -/
theorem collected {list : List α} {counter : Nat} {current : List α}
    (cursor : Cursor list counter current) {lo : Text} (lower : Positive lo)
    (positive : 1 ≤ atoi lo)
    {hi : Option Text} {hi' : Nat} (upper : ∀ bound ∈ hi, Positive bound)
    (last : elements list (atoi lo).toNat hi' = designated list (lo, hi))
    (within : (atoi lo).toNat ≤ list.length → hi' ≤ list.length)
    {ranges : List (Text × Option Text)} {next : Nat → List α → Except Text (List α)}
    (rest : ∀ {counter : Nat} {current : List α}, Cursor list counter current →
      Collects list ranges (next counter current)) :
    Collects list ((lo, hi) :: ranges)
      (let (taken, counter, current) := subscriptRange list (atoi lo).toNat hi' counter current
      (next counter current).map (taken ++ ·)) := by
  obtain ⟨counter', current', same, moved⟩ := subscriptRange_spec cursor
    (show 1 ≤ (atoi lo).toNat by omega) within
  rw [same, last]
  exact (rest moved).cons lower upper

/-- The last range of the loop. -/
theorem collected_last {list : List α} {counter : Nat} {current : List α}
    (cursor : Cursor list counter current) {lo : Text} (lower : Positive lo)
    (positive : 1 ≤ atoi lo) {hi : Option Text} {hi' : Nat} (upper : ∀ bound ∈ hi, Positive bound)
    (last : elements list (atoi lo).toNat hi' = designated list (lo, hi))
    (within : (atoi lo).toNat ≤ list.length → hi' ≤ list.length) :
    Collects list [(lo, hi)]
      (.ok (subscriptRange list (atoi lo).toNat hi' counter current).1) := by
  obtain ⟨counter', current', same, -⟩ := subscriptRange_spec cursor
    (show 1 ≤ (atoi lo).toNat by omega) within
  have whole : Collects list [(lo, hi)] _ := Collects.nil.cons lower upper
  rw [same, last]
  change Collects list [(lo, hi)] (.ok (designated list (lo, hi) ++ [])) at whole
  rwa [List.append_nil] at whole

/-- The loop collects the elements of its ranges, wherever the cursor stands. -/
theorem subscriptLoop_spec (list : List α) : ∀ (subs : List Text), (∀ s ∈ subs, IsSubscript s) →
    ∀ {counter : Nat} {current : List α}, Cursor list counter current →
      Collects list (ranges subs) (subscriptLoop list subs counter current) := by
  intro subs
  induction count : subs.length using Nat.strongRecOn generalizing subs with
  | ind length ih =>
    intro isSubscript counter current cursor
    cases subs with
    | nil => exact Collects.nil
    | cons lo subs =>
      obtain ⟨first, others⟩ := List.forall_mem_cons.mp isSubscript
      rcases atoi_of_isSubscript first with ⟨lower, value, positive⟩ | ⟨bad, small⟩
      · have single : elements list (atoi lo).toNat (atoi lo).toNat =
            designated list (lo, some lo) := by
          rw [designated_between, value]
        have upper : ∀ bound ∈ some lo, Positive bound := by
          rintro _ ⟨⟩
          exact lower
        cases subs with
        | nil =>
          rw [subscriptLoop.eq_def]
          dsimp only
          rw [if_neg (Int.not_lt.mpr positive)]
          exact collected_last cursor lower positive upper single id
        | cons mark rest =>
          by_cases isRange : mark = dots
          · obtain ⟨-, behindMark⟩ := List.forall_mem_cons.mp others
            cases rest with
            | nil =>
              have toEnd : elements list (atoi lo).toNat list.length =
                  designated list (lo, none) := by
                rw [designated_toEnd, value]
              subst isRange
              rw [subscriptLoop.eq_def]
              dsimp only
              rw [if_neg (Int.not_lt.mpr positive),
                if_pos (show dots = lit "..." from rfl), ranges_toEnd]
              exact collected_last cursor lower positive nofun toEnd fun _ => Nat.le_refl _
            | cons hi rest =>
              obtain ⟨last, behindHi⟩ := List.forall_mem_cons.mp behindMark
              subst isRange
              rw [subscriptLoop.eq_def]
              dsimp only
              rw [if_neg (Int.not_lt.mpr positive),
                if_pos (show dots = lit "..." from rfl), ranges_between]
              rcases atoi_of_isSubscript last with ⟨upper, value', positive'⟩ | ⟨bad, small⟩
              · have clipped : elements list (atoi lo).toNat
                    (min (atoi hi).toNat list.length) = designated list (lo, some hi) := by
                  rw [elements_min list (by omega)]
                  rw [designated_between, value, value']
                have upper : ∀ bound ∈ some hi, Positive bound := by
                  rintro _ ⟨⟩
                  exact upper
                rw [if_neg (Int.not_lt.mpr positive')]
                refine collected cursor lower positive upper clipped
                  (fun _ => Nat.min_le_right _ _) fun cursor => ?_
                refine ih rest.length ?_ rest rfl behindHi cursor
                rw [← count, List.length_cons, List.length_cons, List.length_cons]
                omega
              · rw [if_pos small]
                exact Collects.badUpper bad
          · rw [subscriptLoop.eq_def]
            dsimp only
            rw [if_neg (Int.not_lt.mpr positive), if_neg (show mark ≠ lit "..." from isRange),
              ranges_single isRange]
            refine collected cursor lower positive upper single id fun cursor => ?_
            refine ih (mark :: rest).length ?_ (mark :: rest) rfl others cursor
            rw [← count, List.length_cons, List.length_cons, List.length_cons]
            omega
      · have fails : subscriptLoop list (lo :: subs) counter current = .error lo := by
          cases subs <;> rw [subscriptLoop.eq_def] <;> exact if_pos small
        rw [fails]
        obtain ⟨hi, others, same⟩ := ranges_cons lo subs
        rw [same]
        exact Collects.badLower bad hi

/-- A marker in front is read as a range from 1. -/
theorem subscript_fromStart (list : List α) (subs : List Text) :
    subscript list subs = subscriptLoop list (fromStart subs) 1 list := by
  cases subs with
  | nil => rfl
  | cons mark rest =>
    by_cases isRange : mark = dots
    · subst isRange
      have one : ¬atoi (lit "1") < 1 := by decide
      rw [show fromStart (dots :: rest) = lit "1" :: dots :: rest from if_pos rfl]
      cases rest with
      | nil =>
        rw [subscriptLoop, if_neg one]
        rfl
      | cons hi rest =>
        rw [subscriptLoop, if_neg one]
        rfl
    · have alone : fromStart (mark :: rest) = mark :: rest :=
        if_neg fun same => isRange (Option.some.inj same)
      rw [alone]
      exact if_neg isRange

theorem isSubscript_fromStart {subs : List Text} (all : ∀ s ∈ subs, IsSubscript s) :
    ∀ s ∈ fromStart subs, IsSubscript s := by
  unfold fromStart
  split
  · refine List.forall_mem_cons.mpr ⟨.inl ⟨1, by decide, by decide, by decide⟩, all⟩
  · exact all

end

/-- Where `varlookup` looks: the bindings, innermost first, and the variables. -/
structure Scope (α : Type) where
  bindings : List (Text × List α)
  vars : Text → Option (List α)

section

variable {α : Type}

/-- The loop of `nth`. -/
def nthLoop : List α → Int → Option α
  | [], _ => none
  | term :: list, n => if n - 1 = 0 then some term else nthLoop list (n - 1)

/-- `nth`. -/
def nth (list : List α) (n : Int) : Option α := if n ≤ 0 then none else nthLoop list n

/-- What a name that does not count is bound to. -/
def Scope.named (scope : Scope α) (name : Text) : List α :=
  match scope.bindings.find? fun (bound, _) => bound == name with
  | some (_, defn) => defn
  | none => (scope.vars name).getD []

/-- `varlookup`; the `long` of `strtol` is cut down to the `int` of `nth`. -/
def Scope.varlookup (scope : Scope α) (name : Text) : Except Failure (List α) :=
  if iscounting name then .ok (nth (scope.named (lit "*")) ((strtol name).bmod (2 ^ 32))).toList
  else (validatevar name).map fun _ => scope.named name

/-- The case `nVarsub` of `glom1`, for a name and its subscripts. -/
def Scope.varsub (scope : Scope α) (name : Text) (subs : List Text) : Except Failure (List α) :=
  match scope.varlookup name with
  | .ok list =>
      match subscript list subs with
      | .ok list => .ok list
      | .error bad => .error (.fail (lit "es:subscript") (lit "bad subscript: " ++ bad))
  | .error failure => .error failure

theorem nthLoop_eq (list : List α) : ∀ before : Nat, nthLoop list (before + 1) = list[before]? := by
  induction list with
  | nil => exact fun _ => rfl
  | cons term list ih =>
    intro before
    rw [nthLoop, Int.add_sub_cancel]
    cases before with
    | zero => rfl
    | succ before =>
      rw [if_neg (by omega)]
      exact ih before

theorem nth_eq (list : List α) {n : Int} (positive : 0 < n) : nth list n = list[n.toNat - 1]? := by
  obtain ⟨before, rfl⟩ : ∃ before : Nat, n = before + 1 := ⟨(n - 1).toNat, by omega⟩
  rw [nth, if_neg (Int.not_le.mpr positive), nthLoop_eq]
  rfl

theorem varlookup_star (scope : Scope α) :
    scope.varlookup (lit "*") = .ok (scope.named (lit "*")) := rfl

/-- A list with one subscript. -/
theorem subscript_single (list : List α) (s : Text) (number : s ≠ dots) : subscript list [s] =
    if atoi s < 1 then .error s else .ok (list[(atoi s).toNat - 1]?).toList := by
  have alone : fromStart [s] = [s] := if_neg fun same => number (Option.some.inj same)
  rw [subscript_fromStart, alone, subscriptLoop]
  split_ifs with small
  · rfl
  · have positive : 1 ≤ (atoi s).toNat := by omega
    obtain ⟨counter, current, same, -⟩ :=
      subscriptRange_spec (Cursor.start list) positive
        fun within : (atoi s).toNat ≤ list.length => within
    rw [same]
    congr 1
    unfold elements
    rw [show (atoi s).toNat + 1 - (atoi s).toNat = 1 by omega]
    cases found : list[(atoi s).toNat - 1]? <;> simp [found]

/-- A numeral is positive when a digit of it is not zero. -/
theorem digitsValue_eq_zero {digits : Text} (all : digits.all isdigit = true) :
    digitsValue digits = 0 ↔ ∀ c ∈ digits, c = '0'.toUInt8 := by
  induction digits using List.reverseRecOn with
  | nil => exact ⟨fun _ => nofun, fun _ => rfl⟩
  | append_singleton digits c ih =>
    rw [List.all_append, Bool.and_eq_true] at all
    have digit : ∀ c : UInt8, isdigit c = true →
        ((c - '0'.toUInt8).toNat = 0 ↔ c = '0'.toUInt8) := fun c =>
      forall_byte (by decide +kernel) c
    have last : isdigit c = true := List.all_eq_true.mp all.2 c List.mem_cons_self
    have nonneg := digitsValue_nonneg digits
    rw [digitsValue_append, List.forall_mem_append, ← ih all.1, List.forall_mem_singleton,
      ← digit c last]
    omega

/-- The names that count are the positive numerals. -/
theorem iscounting_iff (name : Text) :
    iscounting name = true ↔ name.all isdigit = true ∧ 0 < digitsValue name := by
  let zero := fun c : UInt8 => c == '0'.toUInt8
  have parts : name.takeWhile zero ++ name.dropWhile zero = name := List.takeWhile_append_dropWhile
  have zeros : (name.takeWhile zero).all isdigit = true := by
    refine List.all_eq_true.mpr fun c member => ?_
    have isZero : zero c = true := List.mem_takeWhile_imp member
    rw [eq_of_beq isZero]
    decide
  have same : name.all isdigit = (name.dropWhile zero).all isdigit := by
    conv_lhs => rw [← parts]
    rw [List.all_append, zeros, Bool.true_and]
  have allZero : name.dropWhile zero = [] ↔ ∀ c ∈ name, c = '0'.toUInt8 := by
    rw [List.dropWhile_eq_nil_iff]
    exact forall₂_congr fun c _ => beq_iff_eq
  have counts : iscounting name = true ↔
      name.dropWhile zero ≠ [] ∧ (name.dropWhile zero).all isdigit = true := by
    change (!(name.dropWhile zero).isEmpty && (name.dropWhile zero).all isdigit) = true ↔ _
    rw [Bool.and_eq_true, Bool.not_eq_true', List.isEmpty_eq_false_iff]
  rw [counts, ← same, and_comm]
  refine and_congr_right fun all => ?_
  have nonneg := digitsValue_nonneg name
  rw [ne_eq, allZero, ← digitsValue_eq_zero all]
  omega

theorem numeral_of_digits {name : Text} (all : name.all isdigit = true) (nonempty : name ≠ []) :
    numeral name = some (digitsValue name) := by
  cases name with
  | nil => exact absurd rfl nonempty
  | cons c rest =>
    have first : isdigit c = true := List.all_eq_true.mp all c List.mem_cons_self
    obtain ⟨-, minus, plus⟩ := isdigit_spec first
    rw [numeral.eq_def]
    dsimp only
    rw [if_neg minus, if_neg plus, if_pos ⟨nonempty, all⟩]

/-- A positive `n` names the argument at its position, by itself and as a subscript. -/
def PositionalAgrees (scope : Scope α) (name : Text) : Prop :=
  let argument := ((scope.named (lit "*"))[(digitsValue name).toNat - 1]?).toList
  scope.varlookup name = .ok argument ∧ scope.varsub (lit "*") [name] = .ok argument

/-- The `int` that a number is cut down to, at most the greatest `long` before. -/
def cut (n : Int) : Int := (min n (2 ^ 63 - 1)).bmod (2 ^ 32)

theorem cut_of_lt {n : Int} (nonneg : 0 ≤ n) (fits : n < 2 ^ 31) : cut n = n := by
  rw [cut, Int.min_eq_left (by omega)]
  exact Int.bmod_eq_of_le (by omega) (by omega)

theorem strtol_of_digits {name : Text} (counts : iscounting name = true) :
    strtol name = min (digitsValue name) (2 ^ 63 - 1) := by
  obtain ⟨all, positive⟩ := (iscounting_iff name).mp counts
  have nonempty : name ≠ [] := by
    rintro rfl
    exact absurd positive (by decide)
  rw [strtol_of_numeral (numeral_of_digits all nonempty)]
  omega

theorem Option.toList_inj {a b : Option α} : a.toList = b.toList ↔ a = b := by
  cases a <;> cases b <;> simp

end

/-- Ten arguments. -/
def tenArguments : Scope Nat := ⟨[(lit "*", List.range 10)], fun _ => none⟩

end Desh
