/-
This file models how a list of strings travels through the environment:
`Wconv`, the conversion that prints a variable's value for an exported string,
and `importvar`, which reads such a string back. Elements are joined by
control-A, and control-A and control-B inside an element are escaped by
control-B.

The importer splits first and undoes the escapes afterwards, word by word, and
its inner loop keeps reading the word it started from even after it has
replaced it. A word is therefore read back unchanged exactly when it holds at
most one byte that needed an escape.
-/

import Desh.Split

namespace Desh

/-! ### Printing a value -/

def envSeparator : UInt8 := 1

def envEscape : UInt8 := 2

/-- The bytes `Wconv` escapes. -/
def isControl (c : UInt8) : Bool := c == envEscape || c == envSeparator

/-- The inner loop of `Wconv`: one element, its control bytes escaped. -/
def wconvWord (s : Text) : Text :=
  s.flatMap fun c => if isControl c then [envEscape, c] else [c]

/-- `Wconv`: the elements of a list, escaped and joined by the separator. -/
def wconv : List Text → Text
  | [] => []
  | [s] => wconvWord s
  | s :: next :: list => wconvWord s ++ envSeparator :: wconv (next :: list)

/-! ### Reading a value back -/

/-- The `while` loop of `importvar`. The search always runs in `word`, the string the element
had when the loop started, of which `rest` is the suffix at `offset`; `str` is what
`list->term->str` points to by now and `next` what `list->next` does. -/
def unescapeWord (word : Text) : Text → Nat → Text → List Text → Text × List Text
  | [], _, str, next => (str, next)
  | c :: rest, offset, str, next =>
      if c ≠ envEscape then unescapeWord word rest (offset + 1) str next
      else
        match rest with
        | [] =>
            match next with
            | [] => (str, [])
            | str2 :: next => (word.take offset ++ envSeparator :: str2, next)
        | d :: rest =>
            if d = envEscape then
              unescapeWord word rest (offset + 2) (word.take (offset + 1) ++ rest) next
            else unescapeWord word (d :: rest) (offset + 1) str next

theorem unescapeWord_length_le (word rest : Text) (offset : Nat) (str : Text) (next : List Text) :
    (unescapeWord word rest offset str next).2.length ≤ next.length := by
  fun_induction unescapeWord <;> simp_all

/-- The `for` loop of `importvar` over the split words. -/
def unescape : List Text → List Text
  | [] => []
  | word :: next =>
      (unescapeWord word word 0 word next).1 :: unescape (unescapeWord word word 0 word next).2
termination_by list => list.length
decreasing_by
  have shorter := unescapeWord_length_le word word 0 word next
  simp only [List.length_cons]
  omega

theorem unescape_cons (word : Text) (next : List Text) :
    unescape (word :: next) =
      (unescapeWord word word 0 word next).1 ::
        unescape (unescapeWord word word 0 word next).2 := by
  rw [unescape]

/-- The definition `importvar` hands to `vardef` for an environment entry whose text from the
`=` on is `value`. -/
def importvar (value : Text) (state : Split) : List Text × Split :=
  let defn := fsplit [envSeparator] [value.tail] false state
  if value.contains envEscape then (unescape defn.1, defn.2) else defn

/-! ### The pieces of a printed value -/

/-- Splitting at the separator byte, as `fsplit` does. -/
abbrev pieces (s : Text) : List Text := s.splitOnP (ifsTable [envSeparator])

theorem ifsTable_separator (c : UInt8) (nonzero : c ≠ 0) :
    ifsTable [envSeparator] c = true ↔ c = envSeparator := by
  simp [ifsTable, nonzero]

@[simp] theorem wconvWord_nil : wconvWord [] = [] := rfl

@[simp] theorem wconvWord_append (s t : Text) :
    wconvWord (s ++ t) = wconvWord s ++ wconvWord t := by
  simp [wconvWord]

theorem wconvWord_cons_control {c : UInt8} (control : isControl c = true) (s : Text) :
    wconvWord (c :: s) = envEscape :: c :: wconvWord s := by
  simp [wconvWord, control]

theorem wconvWord_cons_plain {c : UInt8} (plain : isControl c = false) (s : Text) :
    wconvWord (c :: s) = c :: wconvWord s := by
  simp [wconvWord, plain]

/-- Escaping adds one byte for each control byte. -/
theorem wconvWord_length (s : Text) :
    (wconvWord s).length = s.length + s.countP isControl := by
  induction s with
  | nil => rfl
  | cons c s inductionHypothesis =>
    cases control : isControl c
    · rw [wconvWord_cons_plain control, List.countP_cons_of_neg (by simp [control])]
      simp [inductionHypothesis]
      omega
    · rw [wconvWord_cons_control control, List.countP_cons_of_pos control]
      simp [inductionHypothesis]
      omega

theorem wconvWord_of_plain {s : Text} (plain : s.countP isControl = 0) : wconvWord s = s := by
  have bytes : ∀ c ∈ s, (if isControl c then [envEscape, c] else [c]) = [c] := by
    intro c member
    rw [if_neg (List.countP_eq_zero.mp plain c member)]
  rw [wconvWord, List.flatMap_congr bytes, List.flatMap_singleton']

/-- A string without the separator byte prints without it. -/
theorem separator_not_mem_wconvWord {s : Text} (absent : envSeparator ∉ s) :
    envSeparator ∉ wconvWord s := by
  simp only [wconvWord, List.mem_flatMap, not_exists, not_and]
  intro c member found
  split at found
  · rcases List.mem_pair.mp found with escape | same
    · exact absurd escape (by decide)
    · exact absent (same ▸ member)
  · exact absent (List.mem_singleton.mp found ▸ member)

theorem nulFree_wconvWord {s : Text} (free : NulFree s) : NulFree (wconvWord s) := by
  simp only [NulFree, wconvWord, List.mem_flatMap, not_exists, not_and]
  intro c member found
  split at found
  · rcases List.mem_pair.mp found with escape | same
    · exact absurd escape (by decide)
    · exact free (same ▸ member)
  · exact free (List.mem_singleton.mp found ▸ member)

theorem ifsTable_of_not_mem {s : Text} (free : NulFree s) (absent : envSeparator ∉ s) :
    ∀ c ∈ s, ifsTable [envSeparator] c = false := by
  intro c member
  rw [Bool.eq_false_iff, ne_eq, ifsTable_separator c (fun zero => free (zero ▸ member))]
  exact fun same => absent (same ▸ member)

theorem pieces_of_not_mem {s : Text} (free : NulFree s) (absent : envSeparator ∉ s) :
    pieces s = [s] :=
  List.splitOnP_eq_singleton (ifsTable_of_not_mem free absent)

theorem pieces_append_separator (s t : Text) :
    pieces (s ++ envSeparator :: t) = pieces s ++ pieces t :=
  List.splitOnP_append_cons s t (by decide)

/-- A printed list splits into the pieces of its printed elements. -/
theorem pieces_wconv (list : List Text) (nonempty : list ≠ []) :
    pieces (wconv list) = list.flatMap fun s => pieces (wconvWord s) := by
  induction list with
  | nil => exact absurd rfl nonempty
  | cons s list inductionHypothesis =>
    cases list with
    | nil => simp [wconv]
    | cons next list =>
      rw [wconv, pieces_append_separator, inductionHypothesis (List.cons_ne_nil _ _)]
      rfl

/-! ### Undoing the escapes of one word -/

theorem unescapeWord_other (word rest : Text) (offset : Nat) (str : Text) (next : List Text)
    {c : UInt8} (other : c ≠ envEscape) :
    unescapeWord word (c :: rest) offset str next =
      unescapeWord word rest (offset + 1) str next := by
  cases rest <;> cases next <;> simp [unescapeWord, other]

/-- The search skips everything before the next escape byte. -/
theorem unescapeWord_skip (word plain rest : Text) (offset : Nat) (str : Text) (next : List Text)
    (absent : envEscape ∉ plain) :
    unescapeWord word (plain ++ rest) offset str next =
      unescapeWord word rest (offset + plain.length) str next := by
  induction plain generalizing offset with
  | nil => rfl
  | cons c plain inductionHypothesis =>
    rw [List.mem_cons, not_or] at absent
    rw [List.cons_append, unescapeWord_other _ _ _ _ _ (Ne.symm absent.1),
      inductionHypothesis _ absent.2, List.length_cons]
    congr 1
    omega

/-- A doubled escape byte: the string becomes the *original* word with this one undone. -/
theorem unescapeWord_pair (word rest : Text) (offset : Nat) (str : Text) (next : List Text) :
    unescapeWord word (envEscape :: envEscape :: rest) offset str next =
      unescapeWord word rest (offset + 2) (word.take (offset + 1) ++ rest) next := by
  simp [unescapeWord]

/-- An escape byte at the end of the word re-joins the *original* word with the next one. -/
theorem unescapeWord_join (word : Text) (offset : Nat) (str str2 : Text) (next : List Text) :
    unescapeWord word [envEscape] offset str (str2 :: next) =
      (word.take offset ++ envSeparator :: str2, next) := by
  simp [unescapeWord]

theorem unescapeWord_plain (word rest : Text) (offset : Nat) (str : Text) (next : List Text)
    (absent : envEscape ∉ rest) : unescapeWord word rest offset str next = (str, next) := by
  have skipped := unescapeWord_skip word rest [] offset str next absent
  rw [List.append_nil] at skipped
  rw [skipped, unescapeWord]

/-- However many doubled escapes a word holds, only one of them ends up undone. -/
theorem unescapeWord_length (start s : Text) (str : Text) (next : List Text)
    (absent : envSeparator ∉ s) (length : str.length + 1 = (start ++ wconvWord s).length) :
    (unescapeWord (start ++ wconvWord s) (wconvWord s) start.length str next).1.length + 1 =
        (start ++ wconvWord s).length ∧
      (unescapeWord (start ++ wconvWord s) (wconvWord s) start.length str next).2 = next := by
  induction s generalizing start str with
  | nil => exact ⟨by simpa [unescapeWord] using length, by simp [unescapeWord]⟩
  | cons c s inductionHypothesis =>
    rw [List.mem_cons, not_or] at absent
    cases control : isControl c
    · have other : c ≠ envEscape := fun same => by simp [isControl, same] at control
      rw [wconvWord_cons_plain control] at length ⊢
      rw [unescapeWord_other _ _ _ _ _ other]
      have shifted := inductionHypothesis (start ++ [c]) str absent.2 (by simpa using length)
      simpa using shifted
    · have escape : c = envEscape := by
        simpa [isControl, Ne.symm absent.1] using control
      rw [wconvWord_cons_control control, escape] at length ⊢
      rw [unescapeWord_pair]
      have shifted := inductionHypothesis (start ++ [envEscape, envEscape])
        ((start ++ envEscape :: envEscape :: wconvWord s).take (start.length + 1) ++ wconvWord s)
        absent.2 (by simp [List.take_append]; omega)
      simpa using shifted

/-- A word cut off at an escaped separator is joined to the next one with its own escapes left
as they are. -/
theorem unescapeWord_wconvWord_join (start s : Text) (str str2 : Text) (next : List Text)
    (absent : envSeparator ∉ s) :
    unescapeWord (start ++ (wconvWord s ++ [envEscape])) (wconvWord s ++ [envEscape]) start.length
        str (str2 :: next) =
      (start ++ wconvWord s ++ envSeparator :: str2, next) := by
  induction s generalizing start str with
  | nil => simp [unescapeWord_join]
  | cons c s inductionHypothesis =>
    rw [List.mem_cons, not_or] at absent
    cases control : isControl c
    · have other : c ≠ envEscape := fun same => by simp [isControl, same] at control
      rw [wconvWord_cons_plain control, List.cons_append, unescapeWord_other _ _ _ _ _ other]
      have shifted := inductionHypothesis (start ++ [c]) str absent.2
      simpa using shifted
    · have escape : c = envEscape := by
        simpa [isControl, Ne.symm absent.1] using control
      rw [wconvWord_cons_control control, escape, List.cons_append, List.cons_append,
        unescapeWord_pair]
      have shifted := inductionHypothesis (start ++ [envEscape, envEscape])
        ((start ++ envEscape :: envEscape :: (wconvWord s ++ [envEscape])).take (start.length + 1)
          ++ (wconvWord s ++ [envEscape])) absent.2
      simpa using shifted

/-! ### Undoing the escapes of one element -/

/-- The loop rebuilds the first element of what it is given from that element's pieces exactly
when the element holds at most one control byte, and then goes on with the pieces after it. -/
def ReadsBack (s : Text) (next : List Text) : Prop :=
  ∃ head rest, unescape (pieces (wconvWord s) ++ next) = head :: unescape rest ∧
    (head = s ↔ s.countP isControl ≤ 1) ∧ (s.countP isControl ≤ 1 → rest = next)

theorem not_mem_separator_of_countP {s : Text} (plain : s.countP isControl = 0) :
    envSeparator ∉ s ∧ envEscape ∉ s := by
  rw [List.countP_eq_zero] at plain
  exact ⟨fun member => plain _ member (by decide), fun member => plain _ member (by decide)⟩

theorem readsBack_of_not_mem (s : Text) (next : List Text) (free : NulFree s)
    (absent : envSeparator ∉ s) : ReadsBack s next := by
  have single := pieces_of_not_mem (nulFree_wconvWord free) (separator_not_mem_wconvWord absent)
  unfold ReadsBack
  rw [single, List.singleton_append, unescape_cons]
  refine ⟨_, _, rfl, ?_⟩
  by_cases plain : s.countP isControl = 0
  · rw [wconvWord_of_plain plain,
      unescapeWord_plain s s 0 s next (not_mem_separator_of_countP plain).2]
    exact ⟨by simp [plain], fun _ => rfl⟩
  have escaped : envEscape ∈ s := by
    obtain ⟨c, member, control⟩ := List.countP_pos_iff.mp (Nat.pos_of_ne_zero plain)
    rcases Bool.or_eq_true _ _ ▸ control with escape | separator
    · exact beq_iff_eq.mp escape ▸ member
    · exact absurd (beq_iff_eq.mp separator ▸ member) absent
  obtain ⟨before, after, split, first⟩ := List.eq_append_cons_of_mem escaped
  have beforePlain : before.countP isControl = 0 := by
    rw [List.countP_eq_zero]
    intro c member control
    rcases Bool.or_eq_true _ _ ▸ control with escape | separator
    · exact first (beq_iff_eq.mp escape ▸ member)
    · exact absent (split ▸ List.mem_append_left _ (beq_iff_eq.mp separator ▸ member))
  have afterAbsent : envSeparator ∉ after := fun member =>
    absent (split ▸ List.mem_append_right _ (List.mem_cons_of_mem _ member))
  have printed : wconvWord s = (before ++ [envEscape, envEscape]) ++ wconvWord after := by
    rw [split, wconvWord_append, wconvWord_of_plain beforePlain,
      wconvWord_cons_control (by decide)]
    simp
  have reached : unescapeWord (wconvWord s) (wconvWord s) 0 (wconvWord s) next =
      unescapeWord ((before ++ [envEscape, envEscape]) ++ wconvWord after) (wconvWord after)
        (before ++ [envEscape, envEscape]).length (before ++ envEscape :: wconvWord after)
        next := by
    rw [printed]
    conv_lhs => rw [show before ++ [envEscape, envEscape] ++ wconvWord after =
      before ++ (envEscape :: envEscape :: wconvWord after) by simp]
    rw [unescapeWord_skip _ _ _ _ _ _ first, unescapeWord_pair]
    simp [List.take_append, List.take_of_length_le (Nat.le_succ before.length)]
  rw [reached]
  by_cases one : s.countP isControl ≤ 1
  · have afterPlain : after.countP isControl = 0 := by
      rw [split, List.countP_append, List.countP_cons_of_pos (by decide)] at one
      omega
    rw [wconvWord_of_plain afterPlain,
      unescapeWord_plain _ _ _ _ _ (not_mem_separator_of_countP afterPlain).2]
    exact ⟨⟨fun _ => one, fun _ => split.symm⟩, fun _ => rfl⟩
  · have shorter := unescapeWord_length (before ++ [envEscape, envEscape]) after
      (before ++ envEscape :: wconvWord after) next afterAbsent
      (by simp only [List.length_append, List.length_cons, List.length_nil]; omega)
    refine ⟨⟨fun same => ?_, fun few => absurd few one⟩, fun few => absurd few one⟩
    rw [same, ← printed, wconvWord_length] at shorter
    omega

/-- The first piece of a printed string is the printed string itself, or holds no separator and
leaves some for later pieces. -/
theorem pieces_wconvWord (s : Text) (free : NulFree s) :
    ∃ first more, pieces (wconvWord s) = first :: more ∧ envSeparator ∉ first ∧
      (envSeparator ∉ s → first = wconvWord s ∧ more = []) := by
  by_cases member : envSeparator ∈ s
  · obtain ⟨before, after, split, first⟩ := List.eq_append_cons_of_mem member
    rw [split, nulFree_append] at free
    have left : envSeparator ∉ wconvWord before ++ [envEscape] := by
      rw [List.mem_append, not_or]
      exact ⟨separator_not_mem_wconvWord first, by decide⟩
    have freeLeft : NulFree (wconvWord before ++ [envEscape]) := by
      rw [nulFree_append]
      exact ⟨nulFree_wconvWord free.1, by decide⟩
    refine ⟨_, pieces (wconvWord after), ?_, left, fun absent => absurd member absent⟩
    rw [split, wconvWord_append, wconvWord_cons_control (by decide),
      List.append_cons, pieces_append_separator, pieces_of_not_mem freeLeft left,
      List.singleton_append]
  · exact ⟨_, [], pieces_of_not_mem (nulFree_wconvWord free) (separator_not_mem_wconvWord member),
      separator_not_mem_wconvWord member, fun _ => ⟨rfl, rfl⟩⟩

theorem readsBack_of_separator (before after : Text) (next : List Text)
    (free : NulFree (before ++ envSeparator :: after)) (absent : envSeparator ∉ before) :
    ReadsBack (before ++ envSeparator :: after) next := by
  rw [nulFree_append, nulFree_cons] at free
  obtain ⟨freeBefore, -, freeAfter⟩ := free
  obtain ⟨str2, more, cut, cutAbsent, whole⟩ := pieces_wconvWord after freeAfter
  have left : envSeparator ∉ wconvWord before ++ [envEscape] := by
    rw [List.mem_append, not_or]
    exact ⟨separator_not_mem_wconvWord absent, by decide⟩
  have freeLeft : NulFree (wconvWord before ++ [envEscape]) := by
    rw [nulFree_append]
    exact ⟨nulFree_wconvWord freeBefore, by decide⟩
  have counted : (before ++ envSeparator :: after).countP isControl =
      before.countP isControl + after.countP isControl + 1 := by
    rw [List.countP_append, List.countP_cons_of_pos (by decide), Nat.add_assoc]
  refine ⟨wconvWord before ++ envSeparator :: str2, more ++ next, ?_, ?_, ?_⟩
  · have joined := unescapeWord_wconvWord_join [] before
      (wconvWord before ++ [envEscape]) str2 (more ++ next) absent
    simp only [List.nil_append, List.length_nil] at joined
    rw [wconvWord_append, wconvWord_cons_control (by decide), List.append_cons,
      pieces_append_separator, pieces_of_not_mem freeLeft left, cut, List.singleton_append,
      List.cons_append, List.cons_append, unescape_cons, joined]
  · rw [counted]
    constructor
    · intro same
      obtain ⟨sameBefore, -, sameAfter⟩ := (List.append_cons_inj_of_notMem
        (separator_not_mem_wconvWord absent) cutAbsent).mp same
      have sameWhole := (whole (sameAfter ▸ cutAbsent)).1
      have beforeLength := congrArg List.length sameBefore
      have afterLength := congrArg List.length (sameAfter.symm.trans sameWhole)
      rw [wconvWord_length] at beforeLength afterLength
      omega
    · intro few
      have beforePlain : before.countP isControl = 0 := by omega
      have afterPlain : after.countP isControl = 0 := by omega
      rw [wconvWord_of_plain beforePlain, (whole (not_mem_separator_of_countP afterPlain).1).1,
        wconvWord_of_plain afterPlain]
  · intro few
    rw [(whole (not_mem_separator_of_countP (by omega)).1).2, List.nil_append]

theorem readsBack (s : Text) (next : List Text) (free : NulFree s) : ReadsBack s next := by
  by_cases member : envSeparator ∈ s
  · obtain ⟨before, after, split, absent⟩ := List.eq_append_cons_of_mem member
    rw [split] at free ⊢
    exact readsBack_of_separator before after next free absent
  · exact readsBack_of_not_mem s next free member

/-! ### The round trip -/

/-- Undoing the escapes element by element. -/
theorem unescape_pieces (list : List Text) (free : ∀ s ∈ list, NulFree s) :
    unescape (list.flatMap fun s => pieces (wconvWord s)) = list ↔
      ∀ s ∈ list, s.countP isControl ≤ 1 := by
  induction list with
  | nil => simp [unescape]
  | cons s list inductionHypothesis =>
    rw [List.forall_mem_cons] at free ⊢
    obtain ⟨head, rest, unfolded, same, follows⟩ :=
      readsBack s (list.flatMap fun s => pieces (wconvWord s)) free.1
    rw [List.flatMap_cons, unfolded, List.cons_eq_cons, same]
    refine and_congr_right fun few => ?_
    rw [follows few, inductionHypothesis free.2]

/-- A control byte of an element prints an escape byte. -/
theorem escape_mem_wconv {list : List Text} {s : Text} (member : s ∈ list)
    (control : s.countP isControl ≠ 0) : envEscape ∈ wconv list := by
  obtain ⟨c, inside, escaped⟩ := List.countP_pos_iff.mp (Nat.pos_of_ne_zero control)
  have printed : envEscape ∈ wconvWord s :=
    List.mem_flatMap.mpr ⟨c, inside, by rw [if_pos escaped]; exact List.mem_cons_self⟩
  induction list with
  | nil => cases member
  | cons head list inductionHypothesis =>
    cases list with
    | nil => exact List.mem_singleton.mp member ▸ printed
    | cons next list =>
      rcases List.mem_cons.mp member with rfl | tail
      · exact List.mem_append_left _ printed
      · exact List.mem_append_right _ (List.mem_cons_of_mem _ (inductionHypothesis tail))

/-- A nonempty list of strings comes back from the environment as it was exactly when none of
its strings holds more than one control-A or control-B. -/
theorem importvar_wconv_eq_iff (list : List Text) (nonempty : list ≠ [])
    (free : ∀ s ∈ list, NulFree s) (state : Split) :
    (importvar ('='.toUInt8 :: wconv list) state).1 = list ↔
      ∀ s ∈ list, s.countP isControl ≤ 1 := by
  have split : (fsplit [envSeparator] [('='.toUInt8 :: wconv list).tail] false state).1 =
      list.flatMap fun s => pieces (wconvWord s) := by
    rw [fsplit_pieces _ (List.cons_ne_nil _ _), List.tail_cons, List.flatMap_singleton]
    exact pieces_wconv list nonempty
  have whole := unescape_pieces list free
  unfold importvar
  dsimp only
  split_ifs with escaped
  · rw [split]
    exact whole
  · have plain : ∀ s ∈ list, s.countP isControl = 0 := by
      intro s member
      by_contra control
      refine escaped (List.contains_iff_mem.mpr (List.mem_cons_of_mem _ ?_))
      exact escape_mem_wconv member control
    have single : ∀ s ∈ list, pieces (wconvWord s) = [s] := fun s member => by
      rw [wconvWord_of_plain (plain s member),
        pieces_of_not_mem (free s member) (not_mem_separator_of_countP (plain s member)).1]
    rw [split, List.flatMap_congr single, List.flatMap_singleton']
    exact ⟨fun _ s member => (plain s member).le.trans zero_le_one, fun _ => rfl⟩

/-- One control-A at the end of an element survives. -/
theorem importvar_wconv_trailing :
    (importvar ('='.toUInt8 :: wconv [lit "a" ++ [envSeparator], lit "b"]) Split.initial).1 =
      [lit "a" ++ [envSeparator], lit "b"] :=
  (importvar_wconv_eq_iff [lit "a" ++ [envSeparator], lit "b"] (by decide) (by decide)
    Split.initial).mpr (by decide)

/-- The one string control-B control-B comes back as three of them. -/
theorem importvar_wconv_two_escapes :
    (importvar ('='.toUInt8 :: wconv [[envEscape, envEscape]]) Split.initial).1 ≠
      [[envEscape, envEscape]] := by
  have undone : (importvar ('='.toUInt8 :: wconv [[envEscape, envEscape]]) Split.initial).1 =
      unescape [[envEscape, envEscape, envEscape, envEscape]] := rfl
  rw [undone, unescape_cons]
  intro same
  exact absurd (List.cons_eq_cons.mp same).1 (by decide)

end Desh
