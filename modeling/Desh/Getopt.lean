/-
This file compares the option parser of `opt.c` with a reference scanner, which
reads the arguments word by word. The parser is run here on strings that cannot
be read behind their terminating zero, so a run that ends has read nothing there.

The two differ in two places. In a word `-` the parser finds the end of the
option string at the end of the word, and reads on behind both; and when some
option takes an argument, it takes the colon behind that option for an option.
-/

import Desh.Opt

namespace Desh

/-! ### The parser on bounded strings -/

/-- A character of a string, or its terminating zero. -/
def charWithin (s : Text) (place : Nat) : Option UInt8 := (s ++ [0])[place]?

/-- `esoptChar`, which reads nothing behind the end of a string. -/
def esoptCharWithin (options usage arg : Text) (next : List Text) (opt : Opt) :
    Option (Except Stop (Option UInt8) × Opt) :=
  (charWithin arg opt.nextchar).bind fun c =>
    let opt := { opt with nextchar := opt.nextchar + 1 }
    match strchr options c with
    | none =>
        some (.error (.fail opt.invoker
            (lit "illegal option: -" ++ c :: (lit " -- usage: " ++ usage))),
          { opt with usage := none, args := [], nextchar := 0 })
    | some place =>
        (charWithin arg opt.nextchar).bind fun following =>
          let opt := if following = 0 then { opt with nextchar := 0, args := next } else opt
          (charWithin options (place + 1)).bind fun colon =>
            if colon = ':'.toUInt8 then
              match opt.args with
              | [] =>
                  some (.error (.fail opt.invoker (lit "option -" ++
                    c :: (lit " expects an argument -- usage: " ++ usage))), opt)
              | term :: rest =>
                  some (.ok (some c),
                    { opt with
                      termarg := some (if opt.nextchar = 0 then term else arg.drop opt.nextchar)
                      nextchar := 0
                      args := rest })
            else some (.ok (some c), opt)

/-- `esopt`, which reads nothing behind the end of a string. -/
def esoptWithin (options : Text) (opt : Opt) : Option (Except Stop (Option UInt8) × Opt) :=
  match opt.usage, opt.termarg with
  | some usage, none =>
      match opt.args with
      | [] => some (if opt.nextchar = 0 then (.ok none, opt) else (.error .assertion, opt))
      | arg :: next =>
          if opt.nextchar = 0 then
            (charWithin arg 0).bind fun first =>
              if first ≠ '-'.toUInt8 then some (.ok none, opt)
              else
                (charWithin arg 1).bind fun second =>
                  -- The third character is read behind a second dash only.
                  (if second = '-'.toUInt8 then charWithin arg 2 else some second).bind fun third =>
                    if second = '-'.toUInt8 ∧ third = 0 then
                      some (.ok none, { opt with args := next })
                    else esoptCharWithin options usage arg next { opt with nextchar := 1 }
          else esoptCharWithin options usage arg next opt
  | _, _ => some (.error .assertion, opt)

theorem char_of_charWithin (strings : Strings) {s : Text} {place : Nat} {c : UInt8}
    (within : charWithin s place = some c) : strings.char s place = c := by
  rw [charWithin, List.getElem?_append] at within
  split at within
  · exact strings.char_inside s place c within
  · rename_i behind
    obtain ⟨bound, rfl⟩ := List.getElem?_eq_some_iff.mp within
    have last : place = s.length := by
      simp only [List.length_singleton] at bound
      omega
    subst last
    rw [strings.char_end]
    simp

theorem place_le_of_charWithin {s : Text} {place : Nat} {c : UInt8}
    (within : charWithin s place = some c) : place ≤ s.length := by
  obtain ⟨bound, -⟩ := List.getElem?_eq_some_iff.mp within
  rw [List.length_append, List.length_singleton] at bound
  omega

theorem esoptChar_of_within (strings : Strings) {options usage arg : Text} {next : List Text}
    {opt : Opt} {result : Except Stop (Option UInt8) × Opt}
    (within : esoptCharWithin options usage arg next opt = some result) :
    esoptChar strings options usage arg next opt = result := by
  obtain ⟨c, first, within⟩ := Option.bind_eq_some_iff.mp within
  unfold esoptChar
  dsimp only at within ⊢
  rw [char_of_charWithin strings first]
  cases known : strchr options c with
  | none =>
    rw [known] at within
    exact Option.some.inj within
  | some place =>
    rw [known] at within
    obtain ⟨following, second, within⟩ := Option.bind_eq_some_iff.mp within
    obtain ⟨colon, third, within⟩ := Option.bind_eq_some_iff.mp within
    dsimp only at within ⊢
    rw [char_of_charWithin strings second, char_of_charWithin strings third]
    have inside := place_le_of_charWithin second
    split at within
    · rename_i takes
      rw [if_pos takes]
      generalize next_eq : (if following = 0 then { opt with args := next, nextchar := 0 }
        else { opt with nextchar := opt.nextchar + 1 } : Opt) = advanced at within ⊢
      have place : advanced.nextchar ≤ arg.length := by
        rw [← next_eq]
        split
        · exact Nat.zero_le _
        · exact inside
      cases supplied : advanced.args with
      | nil =>
        rw [supplied] at within
        exact Option.some.inj within
      | cons term rest =>
        rw [supplied] at within
        rw [← Option.some.inj within]
        dsimp only
        rw [strings.string_inside _ _ place]
    · rename_i plain
      rw [if_neg plain]
      exact Option.some.inj within

/-- What the parser does without reading behind a string it does whatever stands there. -/
theorem esopt_of_within (strings : Strings) {options : Text} {opt : Opt}
    {result : Except Stop (Option UInt8) × Opt} (within : esoptWithin options opt = some result) :
    esopt strings options opt = result := by
  obtain ⟨usage, invoker, args, termarg, nextchar⟩ := opt
  unfold esoptWithin at within
  unfold esopt
  cases usage with
  | none => exact Option.some.inj within
  | some usage =>
    cases termarg with
    | some term => exact Option.some.inj within
    | none =>
      cases args with
      | nil => exact Option.some.inj within
      | cons arg next =>
        dsimp only at within ⊢
        split at within
        · rename_i starts
          rw [if_pos starts]
          obtain ⟨first, read, within⟩ := Option.bind_eq_some_iff.mp within
          rw [char_of_charWithin strings read]
          split at within
          · rename_i word
            rw [if_pos word]
            exact Option.some.inj within
          · rename_i option
            rw [if_neg option]
            obtain ⟨second, read, within⟩ := Option.bind_eq_some_iff.mp within
            obtain ⟨third, read', within⟩ := Option.bind_eq_some_iff.mp within
            rw [char_of_charWithin strings read]
            by_cases dashes : second = '-'.toUInt8
            · rw [if_pos dashes] at read'
              rw [char_of_charWithin strings read']
              split at within
              · rename_i ends
                rw [if_pos ends]
                exact Option.some.inj within
              · rename_i goes
                rw [if_neg goes]
                exact esoptChar_of_within strings within
            · rw [if_neg fun both => dashes both.1] at within ⊢
              exact esoptChar_of_within strings within
        · rename_i inside
          rw [if_neg inside]
          exact esoptChar_of_within strings within

/-! ### Scanning the options -/

/-- The letters of an option string, each with whether it takes an argument. -/
abbrev Declared := List (UInt8 × Bool)

/-- The option string. -/
def optionString (declared : Declared) : Text :=
  declared.flatMap fun option => if option.2 then [option.1, ':'.toUInt8] else [option.1]

/-- A byte that an option string can declare; `255` is a `char` that equals `EOF`. -/
def OptionLetter (c : UInt8) : Prop := c ≠ 0 ∧ c ≠ ':'.toUInt8 ∧ c ≠ 255

/-- An option that was found, and its argument. -/
abbrev FoundOption := UInt8 × Option Text

/-- The calls of `esopt` up to the end of the options, with a call of `esoptarg` after each option
that takes an argument, for so many rounds at most: what they return, and the arguments that are
left for `esoptend`, or how the last of them fails. -/
def scanOptions (declared : Declared)
    (esopt : Opt → Option (Except Stop (Option UInt8) × Opt)) :
    Nat → Opt → Option (List FoundOption × Except Stop (List Text))
  | 0, _ => none
  | rounds + 1, opt =>
      match esopt opt with
      | none => none
      | some (.error stop, _) => some ([], .error stop)
      | some (.ok none, opt) => some ([], .ok opt.args)
      | some (.ok (some c), opt) =>
          if declared.lookup c = some true then
            match esoptarg opt with
            | (.error stop, _) => some ([(c, none)], .error stop)
            | (.ok term, opt) =>
                (scanOptions declared esopt rounds opt).map fun (found, ending) =>
                  ((c, some term) :: found, ending)
          else
            (scanOptions declared esopt rounds opt).map fun (found, ending) =>
              ((c, none) :: found, ending)

/-! ### The reference scanner -/

/-- How a word of clustered options ends. -/
inductive ClusterEnd where
  | done
  | illegal (c : UInt8)
  | attached (c : UInt8) (argument : Text)
  | separate (c : UInt8)

/-- The options of a word, from an option on. -/
def readCluster (declared : Declared) : Text → List FoundOption × ClusterEnd
  | [] => ([], .done)
  | c :: more =>
      match declared.lookup c with
      | none => ([], .illegal c)
      | some true => ([], if more = [] then .separate c else .attached c more)
      | some false =>
          let (found, ending) := readCluster declared more
          ((c, none) :: found, ending)

/-- How the options end: behind a word `--`, or in front of the first word that is no option. -/
inductive Ending where
  | dashes (left : List Text)
  | finished (left : List Text)
  | illegal (c : UInt8)
  | lacking (c : UInt8)

/-- The options of the words. A word `-` is not an option. -/
def readWords (declared : Declared) : List Text → List FoundOption × Ending
  | [] => ([], .finished [])
  | word :: rest =>
      if word = lit "--" then ([], .dashes rest)
      else
        match word with
        | [] => ([], .finished (word :: rest))
        | first :: cluster =>
            if first ≠ '-'.toUInt8 ∨ cluster = [] then ([], .finished (word :: rest))
            else
              match readCluster declared cluster with
              | (found, .done) =>
                  let (others, ending) := readWords declared rest
                  (found ++ others, ending)
              | (found, .illegal c) => (found, .illegal c)
              | (found, .attached c argument) =>
                  let (others, ending) := readWords declared rest
                  (found ++ (c, some argument) :: others, ending)
              | (found, .separate c) =>
                  match rest with
                  | [] => (found, .lacking c)
                  | term :: rest =>
                      let (others, ending) := readWords declared rest
                      (found ++ (c, some term) :: others, ending)

/-- What the ending is for the caller. -/
def Ending.outcome (invoker usage : Text) : Ending → Except Stop (List Text)
  | .dashes left => .ok left
  | .finished left => .ok left
  | .illegal c =>
      .error (.fail invoker (lit "illegal option: -" ++ c :: (lit " -- usage: " ++ usage)))
  | .lacking c =>
      .error (.fail invoker
        (lit "option -" ++ c :: (lit " expects an argument -- usage: " ++ usage)))

/-- The parser finds what the reference scanner finds, only options that are declared, and reads
nothing behind the end of a string. -/
def ScansAlike (declared : Declared) (list : List Text) (caller usagemsg : Text) : Prop :=
  ∃ rounds found left,
    scanOptions declared (esoptWithin (optionString declared)) rounds
        (.begun list caller usagemsg) = some (found, left) ∧
      (∀ strings : Strings,
        scanOptions declared (fun opt => some (esopt strings (optionString declared) opt)) rounds
          (.begun list caller usagemsg) = some (found, left)) ∧
      found = (readWords declared list).1 ∧
      left = (readWords declared list).2.outcome caller usagemsg ∧
      ∀ parsed ∈ found, parsed.1 ∈ declared.map Prod.fst

/-- The options end neither at a word `-` nor, when an option takes an argument, at a colon. -/
def Ending.Regular (declared : Declared) : Ending → Prop
  | .dashes _ => True
  | .finished left => left.head? ≠ some (lit "-")
  | .illegal c => c = ':'.toUInt8 → ∀ option ∈ declared, option.2 = false
  | .lacking _ => True

theorem scanOptions_mono {declared : Declared}
    {esopt esopt' : Opt → Option (Except Stop (Option UInt8) × Opt)}
    (same : ∀ opt result, esopt opt = some result → esopt' opt = some result) {rounds : Nat}
    {opt : Opt} {result : List FoundOption × Except Stop (List Text)}
    (scanned : scanOptions declared esopt rounds opt = some result) :
    scanOptions declared esopt' rounds opt = some result := by
  induction rounds generalizing opt result with
  | zero => cases scanned
  | succ rounds inductionHypothesis =>
    unfold scanOptions at scanned ⊢
    cases read : esopt opt with
    | none =>
      rw [read] at scanned
      cases scanned
    | some outcome =>
      rw [read] at scanned
      rw [same opt outcome read]
      rcases outcome with ⟨stop | _ | c, opt'⟩
      · exact scanned
      · exact scanned
      · dsimp only at scanned ⊢
        split at scanned
        · rename_i takes
          rw [if_pos takes]
          rcases pending : esoptarg opt' with ⟨stop | term, opt''⟩
          · rw [pending] at scanned
            exact scanned
          · rw [pending] at scanned
            obtain ⟨_, others, rfl⟩ := Option.map_eq_some_iff.mp scanned
            dsimp only
            rw [inductionHypothesis others]
            rfl
        · rename_i plain
          rw [if_neg plain]
          obtain ⟨_, others, rfl⟩ := Option.map_eq_some_iff.mp scanned
          rw [inductionHypothesis others]
          rfl

/-! ### The option string -/

@[simp] theorem charWithin_zero (c : UInt8) (s : Text) : charWithin (c :: s) 0 = some c := rfl

@[simp] theorem charWithin_end : charWithin [] 0 = some 0 := rfl

@[simp] theorem charWithin_succ (c : UInt8) (s : Text) (place : Nat) :
    charWithin (c :: s) (place + 1) = charWithin s place := rfl

theorem charWithin_drop {s : Text} {start : Nat} (inside : start ≤ s.length) (place : Nat) :
    charWithin (s.drop start) place = charWithin s (start + place) := by
  rw [charWithin, charWithin, ← List.drop_append_of_le_length inside, List.getElem?_drop]

theorem strchr_self {c : UInt8} (nonzero : c ≠ 0) (s : Text) : strchr (c :: s) c = some 0 := by
  rw [strchr, if_neg nonzero, List.findIdx?_cons, beq_self_eq_true, if_pos rfl]

theorem strchr_cons {c other : UInt8} (nonzero : c ≠ 0) (differs : other ≠ c) (s : Text) :
    strchr (other :: s) c = (strchr s c).map (· + 1) := by
  rw [strchr, strchr, if_neg nonzero, if_neg nonzero, List.findIdx?_cons,
    beq_eq_false_iff_ne.mpr differs, if_neg Bool.false_ne_true]

theorem optionString_cons (letter : UInt8) (takes : Bool) (declared : Declared) :
    optionString ((letter, takes) :: declared) =
      letter :: if takes then ':'.toUInt8 :: optionString declared else optionString declared := by
  cases takes <;> rfl

section Letters

variable {declared : Declared} (letters : ∀ option ∈ declared, OptionLetter option.1)
include letters

/-- No option string begins with a colon. -/
theorem optionString_head :
    ∃ first, charWithin (optionString declared) 0 = some first ∧ first ≠ ':'.toUInt8 := by
  cases declared with
  | nil => exact ⟨0, rfl, by decide⟩
  | cons option declared =>
    obtain ⟨letter, takes⟩ := option
    rw [optionString_cons]
    exact ⟨letter, rfl, (letters _ List.mem_cons_self).2.1⟩

/-- The option string has an option's letter, with a colon behind it if it takes an argument. -/
theorem strchr_optionString {c : UInt8} {takes : Bool} (nonzero : c ≠ 0)
    (known : declared.lookup c = some takes) :
    ∃ place following, strchr (optionString declared) c = some place ∧
      charWithin (optionString declared) (place + 1) = some following ∧
      (following = ':'.toUInt8 ↔ takes = true) := by
  induction declared with
  | nil => cases known
  | cons option declared inductionHypothesis =>
    obtain ⟨letter, takes'⟩ := option
    have others := fun option member => letters option (List.mem_cons_of_mem _ member)
    rw [optionString_cons]
    by_cases same : letter = c
    · subst same
      rw [List.lookup_cons_self] at known
      cases known
      refine ⟨0, ?_⟩
      rw [strchr_self nonzero, charWithin_succ]
      cases takes with
      | true => exact ⟨_, rfl, rfl, iff_of_true rfl rfl⟩
      | false =>
        obtain ⟨first, head, differs⟩ := optionString_head others
        exact ⟨first, rfl, head, iff_of_false differs nofun⟩
    · rw [List.lookup_cons, beq_eq_false_iff_ne.mpr (Ne.symm same)] at known
      obtain ⟨place, following, found, behind, iff⟩ := inductionHypothesis others known
      rw [strchr_cons nonzero same]
      cases takes' with
      | true =>
        have colon : ':'.toUInt8 ≠ c := by
          rintro rfl
          rw [List.lookup_eq_none_iff.mpr fun option member =>
            bne_iff_ne.mpr (others option member).2.1.symm] at known
          cases known
        refine ⟨place + 1 + 1, following, ?_, behind, iff⟩
        rw [if_pos rfl, strchr_cons nonzero colon, found]
        rfl
      | false =>
        refine ⟨place + 1, following, ?_, behind, iff⟩
        rw [if_neg Bool.false_ne_true, found]
        rfl

theorem strchr_undeclared {c : UInt8} (nonzero : c ≠ 0) (unknown : declared.lookup c = none)
    (plain : c = ':'.toUInt8 → ∀ option ∈ declared, option.2 = false) :
    strchr (optionString declared) c = none := by
  induction declared with
  | nil =>
    rw [strchr, if_neg nonzero]
    rfl
  | cons option declared inductionHypothesis =>
    obtain ⟨letter, takes⟩ := option
    have others := fun option member => letters option (List.mem_cons_of_mem _ member)
    have differs : letter ≠ c := by
      rintro rfl
      rw [List.lookup_cons_self] at unknown
      cases unknown
    rw [List.lookup_cons, beq_eq_false_iff_ne.mpr differs.symm] at unknown
    have absent := inductionHypothesis others unknown fun colon option member =>
      plain colon option (List.mem_cons_of_mem _ member)
    rw [optionString_cons, strchr_cons nonzero differs]
    cases takes with
    | true =>
      have colon : ':'.toUInt8 ≠ c := fun colon => nomatch plain colon.symm _ List.mem_cons_self
      rw [if_pos rfl, strchr_cons nonzero colon, absent]
      rfl
    | false =>
      rw [if_neg Bool.false_ne_true, absent]
      rfl

/-- When some option takes an argument, the option string has a colon, and no second behind it. -/
theorem strchr_colon {option : UInt8 × Bool} (member : option ∈ declared)
    (takes : option.2 = true) :
    ∃ place following, strchr (optionString declared) ':'.toUInt8 = some place ∧
      charWithin (optionString declared) (place + 1) = some following ∧
      following ≠ ':'.toUInt8 := by
  have nonzero : ':'.toUInt8 ≠ 0 := by decide
  induction declared with
  | nil => cases member
  | cons first declared inductionHypothesis =>
    obtain ⟨letter, takes'⟩ := first
    have others := fun option member => letters option (List.mem_cons_of_mem _ member)
    have differs : letter ≠ ':'.toUInt8 := (letters _ List.mem_cons_self).2.1
    rw [optionString_cons, strchr_cons nonzero differs]
    cases takes' with
    | true =>
      obtain ⟨first, head, differs⟩ := optionString_head others
      exact ⟨1, first, by rw [if_pos rfl, strchr_self nonzero]; rfl, head, differs⟩
    | false =>
      have later : option ∈ declared := by
        rcases List.mem_cons.mp member with rfl | later
        · cases takes
        · exact later
      obtain ⟨place, following, found, behind, differs⟩ := inductionHypothesis others later
      refine ⟨place + 1, following, ?_, behind, differs⟩
      rw [if_neg Bool.false_ne_true, found]
      rfl

end Letters

/-! ### The parser in a word -/

/-- The parser inside a word of clustered options. -/
def Opt.inWord (caller usagemsg arg : Text) (rest : List Text) (place : Nat) : Opt :=
  { Opt.begun (arg :: rest) caller usagemsg with nextchar := place }

variable {declared : Declared} {caller usagemsg : Text}

section Steps

variable {arg : Text} {rest : List Text} {place : Nat} {c : UInt8} {more : Text}

/-- The characters of a word from an option on. -/
theorem charWithin_option (here : arg.drop place = c :: more) :
    charWithin arg place = some c ∧ charWithin arg (place + 1) = some (more.headD 0) ∧
      arg.drop (place + 1) = more := by
  have inside : place ≤ arg.length := by
    by_contra outside
    rw [List.drop_of_length_le (by omega)] at here
    cases here
  refine ⟨?_, ?_, ?_⟩
  · rw [← Nat.add_zero place, ← charWithin_drop inside, here, charWithin_zero]
  · rw [← charWithin_drop inside, here, charWithin_succ]
    cases more <;> rfl
  · rw [← List.drop_drop, here, List.drop_one, List.tail_cons]

theorem headD_eq_zero_iff (nulFree : NulFree more) : more.headD 0 = 0 ↔ more = [] := by
  cases more with
  | nil => exact iff_of_true rfl rfl
  | cons first others => exact iff_of_false (nulFree_cons.mp nulFree).1 nofun

theorem esoptWithin_inWord (inside : place ≠ 0) :
    esoptWithin (optionString declared) (.inWord caller usagemsg arg rest place) =
      esoptCharWithin (optionString declared) usagemsg arg rest
        (.inWord caller usagemsg arg rest place) := by
  unfold esoptWithin Opt.inWord Opt.begun
  exact if_neg inside

theorem esoptCharWithin_illegal (here : arg.drop place = c :: more)
    (unknown : strchr (optionString declared) c = none) :
    esoptCharWithin (optionString declared) usagemsg arg rest
        (.inWord caller usagemsg arg rest place) =
      some (.error (.fail caller
          (lit "illegal option: -" ++ c :: (lit " -- usage: " ++ usagemsg))),
        ⟨none, caller, [], none, 0⟩) := by
  rw [esoptCharWithin, show (Opt.inWord caller usagemsg arg rest place).nextchar = place from rfl,
    (charWithin_option here).1, Option.bind_some]
  dsimp only
  rw [unknown]
  rfl

/-- The parser at an option of the option string. -/
theorem esoptCharWithin_known (here : arg.drop place = c :: more) (nulFree : NulFree more)
    {index : Nat} {following : UInt8} (known : strchr (optionString declared) c = some index)
    (behind : charWithin (optionString declared) (index + 1) = some following) :
    esoptCharWithin (optionString declared) usagemsg arg rest
        (.inWord caller usagemsg arg rest place) =
      some (if following = ':'.toUInt8 then
        if more = [] then
          match rest with
          | [] => (.error (.fail caller
              (lit "option -" ++ c :: (lit " expects an argument -- usage: " ++ usagemsg))),
            .begun [] caller usagemsg)
          | term :: rest =>
              (.ok (some c), { Opt.begun rest caller usagemsg with termarg := some term })
        else (.ok (some c), { Opt.begun rest caller usagemsg with termarg := some more })
      else if more = [] then (.ok (some c), .begun rest caller usagemsg)
      else (.ok (some c), .inWord caller usagemsg arg rest (place + 1))) := by
  obtain ⟨first, second, others⟩ := charWithin_option here
  rw [esoptCharWithin, show (Opt.inWord caller usagemsg arg rest place).nextchar = place from rfl,
    first, Option.bind_some]
  dsimp only
  rw [known]
  dsimp only
  rw [second, Option.bind_some, behind, Option.bind_some]
  by_cases takes : following = ':'.toUInt8
  · rw [if_pos takes, if_pos takes]
    by_cases last : more = []
    · rw [if_pos ((headD_eq_zero_iff nulFree).mpr last), if_pos last]
      cases rest <;> rfl
    · rw [if_neg (mt (headD_eq_zero_iff nulFree).mp last), if_neg last]
      dsimp only [Opt.inWord, Opt.begun]
      rw [if_neg (Nat.succ_ne_zero place), others]
  · rw [if_neg takes, if_neg takes]
    by_cases last : more = []
    · rw [if_pos ((headD_eq_zero_iff nulFree).mpr last), if_pos last]
      rfl
    · rw [if_neg (mt (headD_eq_zero_iff nulFree).mp last), if_neg last]
      rfl

end Steps

theorem esoptWithin_nil :
    esoptWithin (optionString declared) (.begun [] caller usagemsg) =
      some (.ok none, .begun [] caller usagemsg) := rfl

/-- A word without a dash in front ends the options. -/
theorem esoptWithin_operand {word : Text} {rest : List Text}
    (operand : word.head? ≠ some '-'.toUInt8) :
    esoptWithin (optionString declared) (.begun (word :: rest) caller usagemsg) =
      some (.ok none, .begun (word :: rest) caller usagemsg) := by
  have first : ∃ c, charWithin word 0 = some c ∧ c ≠ '-'.toUInt8 := by
    cases word with
    | nil => exact ⟨0, rfl, by decide⟩
    | cons c more => exact ⟨c, rfl, fun same => operand (congrArg some same)⟩
  obtain ⟨c, read, differs⟩ := first
  unfold esoptWithin Opt.begun
  dsimp only
  rw [if_pos rfl, read, Option.bind_some, if_pos differs]

theorem esoptWithin_dashes {rest : List Text} :
    esoptWithin (optionString declared) (.begun (lit "--" :: rest) caller usagemsg) =
      some (.ok none, .begun rest caller usagemsg) := rfl

/-- In a word `-` the parser finds the zero behind it in the option string, and reads on. -/
theorem esoptWithin_dash {rest : List Text} :
    esoptWithin (optionString declared) (.begun (lit "-" :: rest) caller usagemsg) = none := by
  have known : strchr (optionString declared) 0 = some (optionString declared).length := if_pos rfl
  have dash : lit "-" = ['-'.toUInt8] := rfl
  unfold esoptWithin Opt.begun
  dsimp only
  rw [if_pos rfl, dash, charWithin_zero, Option.bind_some, if_neg (not_not.mpr rfl),
    charWithin_succ, charWithin_end, Option.bind_some, if_neg (by decide), Option.bind_some,
    if_neg fun both => absurd both.1 (by decide)]
  unfold esoptCharWithin
  dsimp only
  rw [charWithin_succ, charWithin_end, Option.bind_some, known]
  rfl

/-- A word of options. -/
theorem esoptWithin_word {c : UInt8} {more : Text} {rest : List Text}
    (word : '-'.toUInt8 :: c :: more ≠ lit "--") (nulFree : NulFree more) :
    esoptWithin (optionString declared)
        (.begun (('-'.toUInt8 :: c :: more) :: rest) caller usagemsg) =
      esoptWithin (optionString declared)
        (.inWord caller usagemsg ('-'.toUInt8 :: c :: more) rest 1) := by
  rw [esoptWithin_inWord Nat.one_ne_zero]
  unfold esoptWithin Opt.begun
  dsimp only
  rw [if_pos rfl, charWithin_zero, Option.bind_some, if_neg (not_not.mpr rfl), charWithin_succ,
    charWithin_zero, Option.bind_some]
  by_cases dash : c = '-'.toUInt8
  · subst dash
    have third : charWithin more 0 = some (more.headD 0) := by cases more <;> rfl
    have goes : ¬('-'.toUInt8 = '-'.toUInt8 ∧ more.headD 0 = 0) := fun both =>
      word (by rw [(headD_eq_zero_iff nulFree).mp both.2]; rfl)
    rw [if_pos rfl, charWithin_succ, charWithin_succ, third, Option.bind_some, if_neg goes]
    rfl
  · rw [if_neg dash, Option.bind_some, if_neg fun both => dash both.1]
    rfl

/-! ### The whole scan -/

/-- From here on the parser does what the reference scanner does if that ends regularly; if not, it
finds an option that is not declared, or reads behind a string. -/
structure ScansOn (declared : Declared) (caller usagemsg : Text) (opt : Opt)
    (expected : List FoundOption × Ending) : Prop where
  regular : expected.2.Regular declared → ∃ rounds,
    scanOptions declared (esoptWithin (optionString declared)) rounds opt =
      some (expected.1, expected.2.outcome caller usagemsg)
  irregular : ¬expected.2.Regular declared → ∀ rounds found left,
    scanOptions declared (esoptWithin (optionString declared)) rounds opt = some (found, left) →
      ∃ parsed ∈ found, declared.lookup parsed.1 = none

/-- A call that ends the scan as it should. -/
theorem ScansOn.ends {opt : Opt} {ending : Ending}
    (regular : ending.Regular declared)
    (scanned : scanOptions declared (esoptWithin (optionString declared)) 1 opt =
      some ([], ending.outcome caller usagemsg)) :
    ScansOn declared caller usagemsg opt ([], ending) where
  regular _ := ⟨1, scanned⟩
  irregular irregular := absurd regular irregular

theorem scanOptions_plain {esopt : Opt → Option (Except Stop (Option UInt8) × Opt)}
    {opt opt' : Opt} {c : UInt8} (rounds : Nat) (read : esopt opt = some (.ok (some c), opt'))
    (plain : declared.lookup c ≠ some true) :
    scanOptions declared esopt (rounds + 1) opt =
      (scanOptions declared esopt rounds opt').map fun (found, ending) =>
        ((c, none) :: found, ending) := by
  rw [scanOptions, read]
  exact if_neg plain

theorem scanOptions_argument {esopt : Opt → Option (Except Stop (Option UInt8) × Opt)}
    {opt opt' : Opt} {c : UInt8} {term : Text} (rounds : Nat)
    (read : esopt opt = some (.ok (some c), { opt' with termarg := some term }))
    (takes : declared.lookup c = some true) :
    scanOptions declared esopt (rounds + 1) opt =
      (scanOptions declared esopt rounds { opt' with termarg := none }).map
        fun (found, ending) => ((c, some term) :: found, ending) := by
  rw [scanOptions, read]
  exact if_pos takes

/-- A call of `esopt`, with that of `esoptarg`, gives an option, and the scan goes on. -/
theorem ScansOn.option {opt opt' : Opt} {parsed : FoundOption}
    {expected : List FoundOption × Ending}
    (step : ∀ rounds, scanOptions declared (esoptWithin (optionString declared)) (rounds + 1) opt =
      (scanOptions declared (esoptWithin (optionString declared)) rounds opt').map
        fun (found, ending) => (parsed :: found, ending))
    (goesOn : ScansOn declared caller usagemsg opt' expected) :
    ScansOn declared caller usagemsg opt (parsed :: expected.1, expected.2) where
  regular regular := by
    obtain ⟨rounds, scanned⟩ := goesOn.regular regular
    refine ⟨rounds + 1, ?_⟩
    rw [step, scanned]
    rfl
  irregular irregular rounds found left scanned := by
    cases rounds with
    | zero => cases scanned
    | succ rounds =>
      rw [step] at scanned
      obtain ⟨others, rest, same⟩ := Option.map_eq_some_iff.mp scanned
      cases same
      obtain ⟨option, member, unknown⟩ := goesOn.irregular irregular rounds _ _ rest
      exact ⟨option, List.mem_cons_of_mem _ member, unknown⟩

/-- How the scan goes on when the options of a word are over. -/
inductive Continues (declared : Declared) (caller usagemsg : Text) :
    ClusterEnd → List Text → List FoundOption × Ending → Prop
  | done {rest : List Text} {expected : List FoundOption × Ending}
      (goesOn : ScansOn declared caller usagemsg (.begun rest caller usagemsg) expected) :
      Continues declared caller usagemsg .done rest expected
  | illegal (c : UInt8) (rest : List Text) :
      Continues declared caller usagemsg (.illegal c) rest ([], .illegal c)
  | attached (c : UInt8) (argument : Text) {rest : List Text} {expected : List FoundOption × Ending}
      (goesOn : ScansOn declared caller usagemsg (.begun rest caller usagemsg) expected) :
      Continues declared caller usagemsg (.attached c argument) rest
        ((c, some argument) :: expected.1, expected.2)
  | lacking (c : UInt8) : Continues declared caller usagemsg (.separate c) [] ([], .lacking c)
  | separate (c : UInt8) (term : Text) {rest : List Text} {expected : List FoundOption × Ending}
      (goesOn : ScansOn declared caller usagemsg (.begun rest caller usagemsg) expected) :
      Continues declared caller usagemsg (.separate c) (term :: rest)
        ((c, some term) :: expected.1, expected.2)

/-- The parser at a word without options. -/
theorem scansOn_operand {word : Text} {rest : List Text} (differs : ¬word = lit "--")
    (operand : ∀ cluster, word = '-'.toUInt8 :: cluster → cluster = []) :
    ScansOn declared caller usagemsg (.begun (word :: rest) caller usagemsg)
      ([], .finished (word :: rest)) := by
  by_cases dash : word = lit "-"
  · subst dash
    refine ⟨fun regular => absurd rfl regular, fun _ rounds found left scanned => ?_⟩
    cases rounds with
    | zero => cases scanned
    | succ rounds =>
      rw [scanOptions, esoptWithin_dash] at scanned
      cases scanned
  · have head : word.head? ≠ some '-'.toUInt8 := by
      intro head
      obtain ⟨cluster, rfl⟩ := List.head?_eq_some_iff.mp head
      exact dash (by rw [operand cluster rfl]; rfl)
    refine .ends (fun same => dash (Option.some.inj same)) ?_
    rw [scanOptions, esoptWithin_operand head]
    rfl

section Words

variable (letters : ∀ option ∈ declared, OptionLetter option.1)
include letters

/-- The parser at a letter that is no option. -/
theorem scansOn_illegal {arg : Text} {rest : List Text} {place : Nat} {c : UInt8} {more : Text}
    (inside : place ≠ 0) (here : arg.drop place = c :: more) (nulFree : NulFree (c :: more))
    (unknown : declared.lookup c = none) :
    ScansOn declared caller usagemsg (.inWord caller usagemsg arg rest place) ([], .illegal c) := by
  obtain ⟨nonzero, others⟩ := nulFree_cons.mp nulFree
  refine ⟨fun regular => ⟨1, ?_⟩, fun irregular rounds found left scanned => ?_⟩
  · have absent := strchr_undeclared letters nonzero unknown regular
    rw [scanOptions, esoptWithin_inWord inside, esoptCharWithin_illegal here absent]
    rfl
  · -- The colon is found in the option string, and a letter stands behind it.
    have colon : c = ':'.toUInt8 ∧ ∃ option ∈ declared, option.2 = true := by
      simpa [Ending.Regular, Bool.not_eq_false] using irregular
    obtain ⟨rfl, option, member, takes⟩ := colon
    obtain ⟨index, following, known, behind, differs⟩ := strchr_colon letters member takes
    have plain : declared.lookup ':'.toUInt8 ≠ some true := by
      rw [unknown]
      nofun
    have read : esoptWithin (optionString declared) (.inWord caller usagemsg arg rest place) = _ :=
      esoptWithin_inWord inside
    rw [esoptCharWithin_known here others known behind, if_neg differs] at read
    cases rounds with
    | zero => cases scanned
    | succ rounds =>
      have goes : ∃ opt', esoptWithin (optionString declared)
          (.inWord caller usagemsg arg rest place) = some (.ok (some ':'.toUInt8), opt') := by
        rw [read]
        split
        · exact ⟨_, rfl⟩
        · exact ⟨_, rfl⟩
      obtain ⟨opt', goes⟩ := goes
      rw [scanOptions_plain rounds goes plain] at scanned
      obtain ⟨others, rest, same⟩ := Option.map_eq_some_iff.mp scanned
      cases same
      exact ⟨_, List.mem_cons_self, unknown⟩

/-- The parser at an option that takes an argument. -/
theorem scansOn_argument {arg : Text} {rest : List Text} {place : Nat} {c : UInt8} {more : Text}
    (inside : place ≠ 0) (here : arg.drop place = c :: more) (nulFree : NulFree (c :: more))
    (takes : declared.lookup c = some true) {expected : List FoundOption × Ending}
    (continues : Continues declared caller usagemsg
      (if more = [] then .separate c else .attached c more) rest expected) :
    ScansOn declared caller usagemsg (.inWord caller usagemsg arg rest place) expected := by
  obtain ⟨nonzero, others⟩ := nulFree_cons.mp nulFree
  obtain ⟨index, following, known, behind, colon⟩ := strchr_optionString letters nonzero takes
  have read : esoptWithin (optionString declared) (.inWord caller usagemsg arg rest place) = _ :=
    esoptWithin_inWord inside
  rw [esoptCharWithin_known here others known behind, if_pos (colon.mpr rfl)] at read
  by_cases last : more = []
  · rw [if_pos last] at continues read
    cases continues with
    | lacking =>
      refine .ends trivial ?_
      rw [scanOptions, read]
      rfl
    | separate c term goesOn =>
      exact goesOn.option fun rounds => scanOptions_argument rounds read takes
  · rw [if_neg last] at continues read
    cases continues with
    | attached c argument goesOn =>
      exact goesOn.option fun rounds => scanOptions_argument rounds read takes

/-- The parser at an option that takes no argument. -/
theorem esoptWithin_plain {arg : Text} {rest : List Text} {place : Nat} {c : UInt8} {more : Text}
    (inside : place ≠ 0) (here : arg.drop place = c :: more) (nulFree : NulFree (c :: more))
    (plain : declared.lookup c = some false) :
    esoptWithin (optionString declared) (.inWord caller usagemsg arg rest place) =
      some (.ok (some c), if more = [] then .begun rest caller usagemsg
        else .inWord caller usagemsg arg rest (place + 1)) := by
  obtain ⟨nonzero, others⟩ := nulFree_cons.mp nulFree
  obtain ⟨index, following, known, behind, colon⟩ := strchr_optionString letters nonzero plain
  have differs : following ≠ ':'.toUInt8 := fun same => Bool.false_ne_true (colon.mp same)
  rw [esoptWithin_inWord inside, esoptCharWithin_known here others known behind, if_neg differs]
  split <;> rfl

/-- The parser goes through a word of options as the reference scanner does. -/
theorem scansOn_cluster {arg : Text} {rest : List Text} {place : Nat} {c : UInt8} {more : Text}
    (inside : place ≠ 0) (here : arg.drop place = c :: more) (nulFree : NulFree (c :: more))
    {expected : List FoundOption × Ending}
    (continues : Continues declared caller usagemsg (readCluster declared (c :: more)).2 rest
      expected) :
    ScansOn declared caller usagemsg (.inWord caller usagemsg arg rest place)
      ((readCluster declared (c :: more)).1 ++ expected.1, expected.2) := by
  induction more generalizing c place with
  | nil =>
    unfold readCluster at continues ⊢
    rcases known : declared.lookup c with _ | takes
    · rw [known] at continues
      cases continues
      exact scansOn_illegal letters inside here nulFree known
    · rw [known] at continues
      cases takes with
      | true => exact scansOn_argument letters inside here nulFree known continues
      | false =>
        cases continues with
        | done goesOn =>
          have read : esoptWithin (optionString declared)
              (.inWord caller usagemsg arg rest place) = _ :=
            esoptWithin_plain letters inside here nulFree known
          rw [if_pos rfl] at read
          exact goesOn.option fun rounds =>
            scanOptions_plain rounds read (by rw [known]; nofun)
  | cons next more inductionHypothesis =>
    unfold readCluster at continues ⊢
    rcases known : declared.lookup c with _ | takes
    · rw [known] at continues
      cases continues
      exact scansOn_illegal letters inside here nulFree known
    · rw [known] at continues
      cases takes with
      | true => exact scansOn_argument letters inside here nulFree known continues
      | false =>
        have read : esoptWithin (optionString declared)
            (.inWord caller usagemsg arg rest place) = _ :=
          esoptWithin_plain letters inside here nulFree known
        rw [if_neg (List.cons_ne_nil _ _)] at read
        have goesOn := inductionHypothesis (Nat.succ_ne_zero place)
          (charWithin_option here).2.2 (nulFree_cons.mp nulFree).2 continues
        exact goesOn.option fun rounds =>
          scanOptions_plain rounds read (by rw [known]; nofun)

/-- The parser at a word of options. -/
theorem scansOn_word {first : UInt8} {cluster : Text} {rest : List Text}
    (options : ¬(first ≠ '-'.toUInt8 ∨ cluster = [])) (word : ¬first :: cluster = lit "--")
    (nulFree : NulFree (first :: cluster)) {found : List FoundOption} {ending : ClusterEnd}
    (read : readCluster declared cluster = (found, ending)) {expected : List FoundOption × Ending}
    (continues : Continues declared caller usagemsg ending rest expected) :
    ScansOn declared caller usagemsg (.begun ((first :: cluster) :: rest) caller usagemsg)
      (found ++ expected.1, expected.2) := by
  obtain ⟨dash, nonempty⟩ := not_or.mp options
  have dash := not_not.mp dash
  subst dash
  obtain ⟨-, others⟩ := nulFree_cons.mp nulFree
  cases cluster with
  | nil => exact absurd rfl nonempty
  | cons c more =>
    have same : esoptWithin (optionString declared)
        (.begun (('-'.toUInt8 :: c :: more) :: rest) caller usagemsg) = _ :=
      esoptWithin_word word (nulFree_cons.mp others).2
    rw [show ending = (readCluster declared (c :: more)).2 by rw [read]] at continues
    have goesOn := scansOn_cluster letters Nat.one_ne_zero
      (show ('-'.toUInt8 :: c :: more).drop 1 = c :: more from rfl) others continues
    rw [read] at goesOn
    refine ⟨fun regular => ?_, fun irregular rounds found left scanned => ?_⟩
    · obtain ⟨rounds, scanned⟩ := goesOn.regular regular
      cases rounds with
      | zero => cases scanned
      | succ rounds => exact ⟨rounds + 1, by rw [scanOptions, same]; exact scanned⟩
    · cases rounds with
      | zero => cases scanned
      | succ rounds =>
        rw [scanOptions, same] at scanned
        exact goesOn.irregular irregular (rounds + 1) found left scanned

/-- The parser goes through the words as the reference scanner does. -/
theorem scansOn_words {list : List Text} (nulFree : ∀ arg ∈ list, NulFree arg) :
    ScansOn declared caller usagemsg (.begun list caller usagemsg) (readWords declared list) := by
  have others {word : Text} {rest : List Text} (nulFree : ∀ arg ∈ word :: rest, NulFree arg) :=
    fun arg member => nulFree arg (List.mem_cons_of_mem word member)
  fun_induction readWords declared list with
  | case1 => exact .ends nofun rfl
  | case2 rest =>
    refine .ends trivial ?_
    rw [scanOptions, esoptWithin_dashes]
    rfl
  | case3 rest differs => exact scansOn_operand differs nofun
  | case4 rest first cluster operand differs =>
    refine scansOn_operand differs fun cluster' same => ?_
    cases same
    exact operand.resolve_left (not_not.mpr rfl)
  | case5 rest first cluster options found read _ _ next differs inductionHypothesis =>
    have goesOn := inductionHypothesis (others nulFree)
    rw [next] at goesOn
    exact scansOn_word letters options differs (nulFree _ List.mem_cons_self) read (.done goesOn)
  | case6 rest first cluster options found c read differs =>
    rw [← List.append_nil found]
    exact scansOn_word letters options differs (nulFree _ List.mem_cons_self) read
      (.illegal c rest)
  | case7 rest first cluster options found c argument read _ _ next differs inductionHypothesis =>
    have goesOn := inductionHypothesis (others nulFree)
    rw [next] at goesOn
    exact scansOn_word letters options differs (nulFree _ List.mem_cons_self) read
      (.attached c argument goesOn)
  | case8 first cluster options found c read differs =>
    rw [← List.append_nil found]
    exact scansOn_word letters options differs (nulFree _ List.mem_cons_self) read (.lacking c)
  | case9 first cluster options found c read term rest _ _ next differs inductionHypothesis =>
    have goesOn := inductionHypothesis (others (others nulFree))
    rw [next] at goesOn
    exact scansOn_word letters options differs (nulFree _ List.mem_cons_self) read
      (.separate c term goesOn)

end Words

/-- A word ends at an option that takes an argument. -/
def ClusterEnd.Takes (c : UInt8) (ending : ClusterEnd) : Prop :=
  ending = .separate c ∨ ∃ argument, ending = .attached c argument

theorem readCluster_declared (cluster : Text) :
    (∀ parsed ∈ (readCluster declared cluster).1, declared.lookup parsed.1 ≠ none) ∧
      ∀ c, (readCluster declared cluster).2.Takes c → declared.lookup c ≠ none := by
  have known {c : UInt8} {takes : Bool} (found : declared.lookup c = some takes) :
      declared.lookup c ≠ none := found ▸ nofun
  fun_induction readCluster declared cluster with
  | case1 => exact ⟨nofun, fun c takes => by rcases takes with takes | ⟨_, takes⟩ <;> cases takes⟩
  | case2 => exact ⟨nofun, fun c takes => by rcases takes with takes | ⟨_, takes⟩ <;> cases takes⟩
  | case3 c more found =>
    refine ⟨nofun, fun c' takes => ?_⟩
    by_cases last : more = []
    · rw [if_pos last] at takes
      rcases takes with takes | ⟨_, takes⟩
      · cases takes
        exact known found
      · cases takes
    · rw [if_neg last] at takes
      rcases takes with takes | ⟨_, takes⟩
      · cases takes
      · cases takes
        exact known found
  | case4 c more found others ending read inductionHypothesis =>
    rw [read] at inductionHypothesis
    refine ⟨fun parsed member => ?_, inductionHypothesis.2⟩
    rcases List.mem_cons.mp member with rfl | later
    · exact known found
    · exact inductionHypothesis.1 parsed later

/-- The reference scanner finds declared options only. -/
theorem readWords_declared (list : List Text) :
    ∀ parsed ∈ (readWords declared list).1, declared.lookup parsed.1 ≠ none := by
  have cluster {word : Text} {found : List FoundOption} {ending : ClusterEnd}
      (read : readCluster declared word = (found, ending)) :
      (∀ parsed ∈ found, declared.lookup parsed.1 ≠ none) ∧
        ∀ c, ending.Takes c → declared.lookup c ≠ none := by
    have both := @readCluster_declared declared word
    rwa [read] at both
  fun_induction readWords declared list with
  | case1 => nofun
  | case2 => nofun
  | case3 => nofun
  | case4 => nofun
  | case5 rest first word options found read others ending next differs inductionHypothesis =>
    rw [next] at inductionHypothesis
    exact List.forall_mem_append.mpr ⟨(cluster read).1, inductionHypothesis⟩
  | case6 rest first word options found c read differs => exact (cluster read).1
  | case7 rest first word options found c argument read others ending next differs
      inductionHypothesis =>
    rw [next] at inductionHypothesis
    exact List.forall_mem_append.mpr ⟨(cluster read).1, List.forall_mem_cons.mpr
      ⟨(cluster read).2 c (.inr ⟨argument, rfl⟩), inductionHypothesis⟩⟩
  | case8 first word options found c read differs => exact (cluster read).1
  | case9 first word options found c read term rest others ending next differs
      inductionHypothesis =>
    rw [next] at inductionHypothesis
    exact List.forall_mem_append.mpr ⟨(cluster read).1, List.forall_mem_cons.mpr
      ⟨(cluster read).2 c (.inl rfl), inductionHypothesis⟩⟩

theorem mem_declared_iff {c : UInt8} :
    c ∈ declared.map Prod.fst ↔ declared.lookup c ≠ none := by
  constructor
  · rintro member unknown
    obtain ⟨option, declares, rfl⟩ := List.mem_map.mp member
    exact bne_iff_ne.mp (List.lookup_eq_none_iff.mp unknown option declares) rfl
  · intro known
    by_contra absent
    exact known (List.lookup_eq_none_iff.mpr fun option member =>
      bne_iff_ne.mpr fun same => absent (List.mem_map.mpr ⟨option, member, same.symm⟩))

theorem regular_of_scansAlike {list : List Text}
    (letters : ∀ option ∈ declared, OptionLetter option.1) (nulFree : ∀ arg ∈ list, NulFree arg)
    (alike : ScansAlike declared list caller usagemsg) :
    (readWords declared list).2.Regular declared := by
  obtain ⟨rounds, found, left, scanned, -, -, -, all⟩ := alike
  by_contra irregular
  obtain ⟨parsed, member, unknown⟩ :=
    (scansOn_words letters nulFree).irregular irregular rounds found left scanned
  exact mem_declared_iff.mp (all parsed member) unknown

/-- The parser finds what the reference scanner finds, and reads nothing behind the end of a
string, just when the options do not end at a word `-`, nor, where an option takes an argument, at
a colon. -/
theorem scansAlike_iff (declared : Declared) (list : List Text) (caller usagemsg : Text)
    (letters : ∀ option ∈ declared, OptionLetter option.1) (nulFree : ∀ arg ∈ list, NulFree arg) :
    ScansAlike declared list caller usagemsg ↔ (readWords declared list).2.Regular declared := by
  refine ⟨regular_of_scansAlike letters nulFree, fun regular => ?_⟩
  obtain ⟨rounds, scanned⟩ := (scansOn_words letters nulFree).regular regular
  refine ⟨rounds, _, _, scanned, fun strings => ?_, rfl, rfl, fun parsed member =>
    mem_declared_iff.mpr (readWords_declared list parsed member)⟩
  refine scanOptions_mono (fun opt result read => ?_) scanned
  exact congrArg some (esopt_of_within strings read)

/-- The options of a primitive with an option `-n` that takes an argument. -/
theorem scansAlike_cluster :
    ScansAlike [('a'.toUInt8, false), ('n'.toUInt8, true)]
        [lit "-aan", lit "x", lit "-nfoo", lit "--", lit "-"] (lit "$&a") (lit "usage") ↔
      (readWords [('a'.toUInt8, false), ('n'.toUInt8, true)]
        [lit "-aan", lit "x", lit "-nfoo", lit "--", lit "-"]).2.Regular
          [('a'.toUInt8, false), ('n'.toUInt8, true)] :=
  scansAlike_iff [('a'.toUInt8, false), ('n'.toUInt8, true)]
    [lit "-aan", lit "x", lit "-nfoo", lit "--", lit "-"] (lit "$&a") (lit "usage")
    (by simp only [OptionLetter]; decide +kernel) (by decide +kernel)

/-- `access -` reads behind the end of its argument, and `access -:` finds an option `:`. -/
theorem not_scansAlike :
    ¬ScansAlike [('f'.toUInt8, false), ('n'.toUInt8, true)] [lit "-"] (lit "$&access")
        accessUsage ∧
      ¬ScansAlike [('f'.toUInt8, false), ('n'.toUInt8, true)] [lit "-:"] (lit "$&access")
        accessUsage := by
  have letters : ∀ option ∈ [('f'.toUInt8, false), ('n'.toUInt8, true)],
      OptionLetter option.1 := by
    simp only [OptionLetter]
    decide +kernel
  refine ⟨fun alike => ?_, fun alike => ?_⟩
  · have regular := regular_of_scansAlike letters (by decide +kernel) alike
    exact regular rfl
  · have regular := regular_of_scansAlike letters (by decide +kernel) alike
    exact Bool.false_ne_true (regular rfl _ (List.mem_cons_of_mem _ List.mem_cons_self)).symm

end Desh
