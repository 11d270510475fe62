/-
This file models `opt.c`, the option parser that primitives share, and the two
loops that use it, in `$&access` and `$&dot`. The parser keeps its place in
static variables, which an exception leaves as they are; a call that begins
where another was left half done fails its assertion. The file proves which
exceptions leave the parser idle.

An argument `-` makes the parser read behind the end of a string, so what stands
there is a parameter.
-/

import Mathlib.Logic.Relation
import Desh.Text

namespace Desh

/-! ### The parser -/

/-- The strings in memory: what stands in each at a place, and the string from there on. -/
structure Strings where
  char : Text → Nat → UInt8
  string : Text → Nat → Text
  char_inside : ∀ s place c, s[place]? = some c → char s place = c
  char_end : ∀ s, char s s.length = 0
  string_inside : ∀ s place, place ≤ s.length → string s place = s.drop place

/-- The static variables of `opt.c`. -/
structure Opt where
  usage : Option Text
  invoker : Text
  args : List Text
  termarg : Option Text
  nextchar : Nat
  deriving DecidableEq

/-- Why a call does not return: an exception, with who failed and why, or an assertion. -/
inductive Stop where
  | fail (source message : Text)
  | assertion
  deriving DecidableEq

/-- The parser at the start of a list of arguments. -/
def Opt.begun (list : List Text) (caller usagemsg : Text) : Opt :=
  { usage := some usagemsg, invoker := caller, args := list, termarg := none, nextchar := 0 }

/-- `esoptbegin`. -/
def esoptbegin (list : List Text) (caller usagemsg : Text) (opt : Opt) : Except Stop Opt :=
  if opt.usage = none then .ok (.begun list caller usagemsg) else .error .assertion

/-- `strchr`, which also finds the end. -/
def strchr (s : Text) (c : UInt8) : Option Nat :=
  if c = 0 then some s.length else s.findIdx? (· == c)

/-- The end of `esopt`, from a character of the first argument on. -/
def esoptChar (strings : Strings) (options usage arg : Text) (next : List Text) (opt : Opt) :
    Except Stop (Option UInt8) × Opt :=
  let c := strings.char arg opt.nextchar
  let opt := { opt with nextchar := opt.nextchar + 1 }
  match strchr options c with
  | none =>
      (.error (.fail opt.invoker (lit "illegal option: -" ++ c :: (lit " -- usage: " ++ usage))),
        { opt with usage := none, args := [], nextchar := 0 })
  | some place =>
      let opt :=
        if strings.char arg opt.nextchar = 0 then { opt with nextchar := 0, args := next } else opt
      if strings.char options (place + 1) = ':'.toUInt8 then
        match opt.args with
        | [] =>
            (.error (.fail opt.invoker
              (lit "option -" ++ c :: (lit " expects an argument -- usage: " ++ usage))), opt)
        | term :: rest =>
            (.ok (some c),
              { opt with
                termarg :=
                  some (if opt.nextchar = 0 then term else strings.string arg opt.nextchar)
                nextchar := 0
                args := rest })
      else (.ok (some c), opt)

/-- `esopt`; `none` is `EOF`. -/
def esopt (strings : Strings) (options : Text) (opt : Opt) : Except Stop (Option UInt8) × Opt :=
  match opt.usage, opt.termarg with
  | some usage, none =>
      match opt.args with
      | [] => if opt.nextchar = 0 then (.ok none, opt) else (.error .assertion, opt)
      | arg :: next =>
          if opt.nextchar = 0 then
            if strings.char arg 0 ≠ '-'.toUInt8 then (.ok none, opt)
            else if strings.char arg 1 = '-'.toUInt8 ∧ strings.char arg 2 = 0 then
              (.ok none, { opt with args := next })
            else esoptChar strings options usage arg next { opt with nextchar := 1 }
          else esoptChar strings options usage arg next opt
  | _, _ => (.error .assertion, opt)

/-- `esoptarg`. -/
def esoptarg (opt : Opt) : Except Stop Text × Opt :=
  match opt.termarg with
  | some term => (.ok term, { opt with termarg := none })
  | none => (.error .assertion, opt)

/-- `esoptend`, without its result, the arguments. -/
def esoptend (opt : Opt) : Opt := { opt with args := [], usage := none }

/-! ### The loops -/

/-- What a primitive does with an option. The unsupported ones it fails for, after `esoptend`. -/
structure Switch (Locals : Type) where
  case : UInt8 → Locals → Opt → Except Stop Locals × Opt
  unsupported : UInt8 → Prop
  fails : ∀ c locals opt, unsupported c →
    ∃ source message, case c locals opt = (.error (.fail source message), esoptend opt)
  only : ∀ c locals opt source message opt',
    case c locals opt = (.error (.fail source message), opt') →
    unsupported c

variable {Locals : Type}

/-- One round of the loop; it is over without a result of the option, at `EOF`. -/
def optionRound (strings : Strings) (options : Text) (switch : Switch Locals) :
    Locals × Opt → Except Stop (Option Locals) × Opt
  | (locals, opt) =>
      match esopt strings options opt with
      | (.ok none, opt) => (.ok none, opt)
      | (.ok (some c), opt) =>
          match switch.case c locals opt with
          | (.ok locals, opt) => (.ok (some locals), opt)
          | (.error stop, opt) => (.error stop, opt)
      | (.error stop, opt) => (.error stop, opt)

/-- The loop over the options, for so many rounds at most. -/
def optionLoop (strings : Strings) (options : Text) (switch : Switch Locals) :
    Nat → Locals × Opt → Option (Except Stop Locals × Opt)
  | 0, _ => none
  | rounds + 1, (locals, opt) =>
      match optionRound strings options switch (locals, opt) with
      | (.ok none, opt) => some (.ok locals, opt)
      | (.ok (some locals), opt) => optionLoop strings options switch rounds (locals, opt)
      | (.error stop, opt) => some (.error stop, opt)

/-- A primitive's parsing of its options: what it has learnt, and the arguments that are left. -/
def parseOptions (strings : Strings) (options : Text) (switch : Switch Locals) (rounds : Nat)
    (list : List Text) (caller usagemsg : Text) (start : Locals) (opt : Opt) :
    Option (Except Stop (Locals × List Text) × Opt) :=
  match esoptbegin list caller usagemsg opt with
  | .error stop => some (.error stop, opt)
  | .ok opt =>
      (optionLoop strings options switch rounds (start, opt)).map fun
        | (.ok locals, opt) => (.ok (locals, opt.args), esoptend opt)
        | (.error stop, opt) => (.error stop, opt)

/-! ### `$&access` and `$&dot` -/

/-- The file types of `$&access`. -/
inductive FileType where
  | any | regular | directory | character | block | link | socket | fifo
  deriving DecidableEq

/-- The file types a system has. -/
structure Platform where
  S_IFLNK : Bool
  S_IFSOCK : Bool
  S_IFIFO : Bool

/-- The local variables of `$&access`. -/
structure AccessOptions where
  suffix : Option Text
  first : Bool
  exception : Bool
  perm : Nat
  type : FileType
  deriving DecidableEq

def AccessOptions.initial : AccessOptions := ⟨none, false, false, 0, .any⟩

/-- The `switch` of `$&access` without the option `-n`. -/
def accessFlag (platform : Platform) (c : UInt8) : Option (AccessOptions → AccessOptions) :=
  if c = '1'.toUInt8 then some fun locals => { locals with first := true }
  else if c = 'e'.toUInt8 then some fun locals => { locals with exception := true }
  else if c = 'r'.toUInt8 then some fun locals => { locals with perm := locals.perm ||| 4 }
  else if c = 'w'.toUInt8 then some fun locals => { locals with perm := locals.perm ||| 2 }
  else if c = 'x'.toUInt8 then some fun locals => { locals with perm := locals.perm ||| 1 }
  else if c = 'f'.toUInt8 then some fun locals => { locals with type := .regular }
  else if c = 'd'.toUInt8 then some fun locals => { locals with type := .directory }
  else if c = 'c'.toUInt8 then some fun locals => { locals with type := .character }
  else if c = 'b'.toUInt8 then some fun locals => { locals with type := .block }
  else if c = 'l'.toUInt8 ∧ platform.S_IFLNK then some fun locals => { locals with type := .link }
  else if c = 's'.toUInt8 ∧ platform.S_IFSOCK then
    some fun locals => { locals with type := .socket }
  else if c = 'p'.toUInt8 ∧ platform.S_IFIFO then some fun locals => { locals with type := .fifo }
  else none

def accessOptionString : Text := lit "bcdefln:prswx1"

def accessUsage : Text := lit "access [-n name] [-1e] [-rwx] [-fdcblsp] path ..."

/-- The `switch` of `$&access`. -/
def accessCase (platform : Platform) (c : UInt8) (locals : AccessOptions) (opt : Opt) :
    Except Stop AccessOptions × Opt :=
  if c = 'n'.toUInt8 then
    match esoptarg opt with
    | (.ok term, opt) => (.ok { locals with suffix := some term }, opt)
    | (.error stop, opt) => (.error stop, opt)
  else
    match accessFlag platform c with
    | some set => (.ok (set locals), opt)
    | none =>
        (.error (.fail (lit "$&access")
          (lit "access -" ++ c :: lit " is not supported on this system")), esoptend opt)

/-- `$&access` fails for the options of file types that the system does not have. -/
def accessSwitch (platform : Platform) : Switch AccessOptions where
  case := accessCase platform
  unsupported c := c ≠ 'n'.toUInt8 ∧ accessFlag platform c = none
  fails c locals opt unsupported := by
    rw [accessCase, if_neg unsupported.1, unsupported.2]
    exact ⟨_, _, rfl⟩
  only c locals opt source message opt' failed := by
    unfold accessCase at failed
    split at failed
    · unfold esoptarg at failed
      cases pending : opt.termarg <;> rw [pending] at failed <;> cases failed
    · rename_i other
      cases flag : accessFlag platform c with
      | some set =>
        rw [flag] at failed
        cases failed
      | none => exact ⟨other, rfl⟩

/-- The `switch` of `$&dot`, on `runflags`. -/
def dotCase (c : UInt8) (runflags : Nat) : Nat :=
  if c = 'e'.toUInt8 then runflags ||| 2
  else if c = 'i'.toUInt8 then runflags ||| 4
  else if c = 'n'.toUInt8 then runflags ||| 8
  else if c = 'v'.toUInt8 then runflags ||| 16
  else if c = 'x'.toUInt8 then runflags ||| 32
  else runflags

def dotOptionString : Text := lit "einvx"

def dotUsage : Text := lit ". [-einvx] file [arg ...]"

/-- `$&dot` fails for no option. -/
def dotSwitch : Switch Nat where
  case c runflags opt := (.ok (dotCase c runflags), opt)
  unsupported _ := False
  fails _ _ _ := False.elim
  only _ _ _ _ _ _ := nofun

/-! ### The idle parser -/

/-- The parser after `esoptend`, with nothing pending. -/
structure Opt.Idle (opt : Opt) : Prop where
  usage : opt.usage = none
  args : opt.args = []
  termarg : opt.termarg = none
  nextchar : opt.nextchar = 0

/-- The parser is idle, and the next call of it can begin. -/
def Opt.LeftIdle (opt : Opt) : Prop :=
  opt.Idle ∧ ∀ list caller usagemsg, esoptbegin list caller usagemsg opt ≠ .error .assertion

theorem Opt.leftIdle_iff (opt : Opt) : opt.LeftIdle ↔ opt.Idle := by
  refine ⟨And.left, fun idle => ⟨idle, fun list caller usagemsg => ?_⟩⟩
  rw [esoptbegin, if_pos idle.usage]
  exact nofun

variable (strings : Strings) (options : Text)

/-- The option the parser is at: the argument, those behind it, and the place of the option. -/
def optionAt (opt : Opt) : Option (Text × List Text × Nat) :=
  match opt.args with
  | [] => none
  | arg :: next =>
      if opt.nextchar = 0 then
        if strings.char arg 0 ≠ '-'.toUInt8 then none
        else if strings.char arg 1 = '-'.toUInt8 ∧ strings.char arg 2 = 0 then none
        else some (arg, next, 1)
      else some (arg, next, opt.nextchar)

/-- An option takes an argument. -/
def Takes (c : UInt8) : Prop :=
  ∃ index, strchr options c = some index ∧ strings.char options (index + 1) = ':'.toUInt8

/-- The parser is at an option that takes an argument, and none is left. -/
def LacksArgument (opt : Opt) : Prop :=
  ∃ arg place, optionAt strings opt = some (arg, [], place) ∧
    Takes strings options (strings.char arg place) ∧ strings.char arg (place + 1) = 0

/-- The parser is at an unsupported option, with more behind it. -/
def CutShort (switch : Switch Locals) (opt : Opt) : Prop :=
  ∃ arg next place, optionAt strings opt = some (arg, next, place) ∧
    (∃ index, strchr options (strings.char arg place) = some index) ∧
    switch.unsupported (strings.char arg place) ∧
    (Takes strings options (strings.char arg place) ∨ strings.char arg (place + 1) ≠ 0)

/-- What the parser does with an option. -/
inductive OptionRead (opt : Opt) (arg : Text) (next : List Text) (place : Nat) :
    Except Stop (Option UInt8) × Opt → Prop
  | illegal (message : Text) (unknown : strchr options (strings.char arg place) = none) :
      OptionRead opt arg next place (.error (.fail opt.invoker message),
        { opt with usage := none, args := [], nextchar := 0 })
  | lacks (message : Text) (takes : Takes strings options (strings.char arg place))
      (last : strings.char arg (place + 1) = 0) (alone : next = []) :
      OptionRead opt arg next place (.error (.fail opt.invoker message),
        { opt with nextchar := 0, args := [] })
  | argument (term : Text) (rest : List Text)
      (takes : Takes strings options (strings.char arg place))
      (supplied : ¬(strings.char arg (place + 1) = 0 ∧ next = [])) :
      OptionRead opt arg next place (.ok (some (strings.char arg place)),
        { opt with termarg := some term, nextchar := 0, args := rest })
  | last (index : Nat) (known : strchr options (strings.char arg place) = some index)
      (plain : ¬Takes strings options (strings.char arg place))
      (last : strings.char arg (place + 1) = 0) :
      OptionRead opt arg next place (.ok (some (strings.char arg place)),
        { opt with nextchar := 0, args := next })
  | more (index : Nat) (known : strchr options (strings.char arg place) = some index)
      (plain : ¬Takes strings options (strings.char arg place))
      (more : strings.char arg (place + 1) ≠ 0) :
      OptionRead opt arg next place (.ok (some (strings.char arg place)),
        { opt with nextchar := place + 1 })

theorem takes_iff {c : UInt8} {index : Nat} (known : strchr options c = some index) :
    Takes strings options c ↔ strings.char options (index + 1) = ':'.toUInt8 := by
  refine ⟨?_, fun colon => ⟨index, known, colon⟩⟩
  rintro ⟨index', known', colon⟩
  cases known.symm.trans known'
  exact colon

theorem esoptChar_read (usage arg : Text) (next : List Text) (opt : Opt)
    (first : opt.args = arg :: next) :
    OptionRead strings options opt arg next opt.nextchar
      (esoptChar strings options usage arg next opt) := by
  unfold esoptChar
  dsimp only
  cases known : strchr options (strings.char arg opt.nextchar) with
  | none => exact .illegal _ known
  | some index =>
    dsimp only
    by_cases last : strings.char arg (opt.nextchar + 1) = 0
    · rw [if_pos last]
      dsimp only
      by_cases takes : strings.char options (index + 1) = ':'.toUInt8
      · rw [if_pos takes]
        cases next with
        | nil => exact .lacks _ ⟨index, known, takes⟩ last rfl
        | cons term rest => exact .argument _ _ ⟨index, known, takes⟩ fun lacks => nomatch lacks.2
      · rw [if_neg takes]
        exact .last index known (mt (takes_iff strings options known).mp takes) last
    · rw [if_neg last]
      by_cases takes : strings.char options (index + 1) = ':'.toUInt8
      · rw [if_pos takes]
        dsimp only
        rw [first]
        exact .argument _ _ ⟨index, known, takes⟩ fun lacks => last lacks.1
      · rw [if_neg takes]
        exact .more index known (mt (takes_iff strings options known).mp takes) last

/-- `esopt` is at the end, or fails an assertion, or parses the option it is at. -/
theorem esopt_cases (opt : Opt) :
    (∃ opt', esopt strings options opt = (.ok none, opt')) ∨
      (∃ opt', esopt strings options opt = (.error .assertion, opt')) ∨
        ∃ arg next place, optionAt strings opt = some (arg, next, place) ∧ opt.termarg = none ∧
          opt.usage ≠ none ∧
            OptionRead strings options { opt with nextchar := place } arg next place
            (esopt strings options opt) := by
  obtain ⟨usage, invoker, args, termarg, nextchar⟩ := opt
  unfold esopt optionAt
  cases usage with
  | none => exact .inr (.inl ⟨_, rfl⟩)
  | some usage =>
    cases termarg with
    | some term => exact .inr (.inl ⟨_, rfl⟩)
    | none =>
      cases args with
      | nil =>
        dsimp only
        split
        · exact .inl ⟨_, rfl⟩
        · exact .inr (.inl ⟨_, rfl⟩)
      | cons arg next =>
        dsimp only
        split
        · split
          · exact .inl ⟨_, rfl⟩
          · split
            · exact .inl ⟨_, rfl⟩
            · exact .inr (.inr ⟨arg, next, 1, rfl, rfl, nofun,
                esoptChar_read strings options usage arg next _ rfl⟩)
        · exact .inr (.inr ⟨arg, next, nextchar, rfl, rfl, nofun,
            esoptChar_read strings options usage arg next _ rfl⟩)

/-! ### What an exception leaves behind -/

variable (switch : Switch Locals)

/-- The parser is at an option that ends the parsing and leaves it unfinished. -/
def Unfinished (opt : Opt) : Prop :=
  LacksArgument strings options opt ∨ CutShort strings options switch opt

variable {strings options switch}

theorem unfinished_iff {opt : Opt} {arg : Text} {next : List Text} {place : Nat}
    (here : optionAt strings opt = some (arg, next, place)) :
    Unfinished strings options switch opt ↔
      (Takes strings options (strings.char arg place) ∧
          strings.char arg (place + 1) = 0 ∧ next = []) ∨
        (∃ index, strchr options (strings.char arg place) = some index) ∧
          switch.unsupported (strings.char arg place) ∧
          (Takes strings options (strings.char arg place) ∨ strings.char arg (place + 1) ≠ 0) := by
  constructor
  · rintro (⟨arg', place', there, takes, last⟩ | ⟨arg', next', place', there, unfinished⟩)
    · cases here.symm.trans there
      exact .inl ⟨takes, last, rfl⟩
    · cases here.symm.trans there
      exact .inr unfinished
  · rintro (⟨takes, last, rfl⟩ | unfinished)
    · exact .inl ⟨arg, place, here, takes, last⟩
    · exact .inr ⟨arg, next, place, here, unfinished⟩

theorem Switch.case_fails {c : UInt8} {locals : Locals} {opt opt' : Opt} {source message : Text}
    (failed : switch.case c locals opt = (.error (.fail source message), opt')) :
    switch.unsupported c ∧ opt' = esoptend opt := by
  have unsupported := switch.only c locals opt source message opt' failed
  obtain ⟨_, _, same⟩ := switch.fails c locals opt unsupported
  cases failed.symm.trans same
  exact ⟨unsupported, rfl⟩

/-- The round after an option was read. -/
theorem optionRound_option {locals : Locals} {opt opt' : Opt} {c : UInt8}
    (read : esopt strings options opt = (.ok (some c), opt')) :
    optionRound strings options switch (locals, opt) =
      match switch.case c locals opt' with
      | (.ok locals, opt) => (.ok (some locals), opt)
      | (.error stop, opt) => (.error stop, opt) := by
  rw [optionRound, read]

theorem optionRound_option_fails {locals : Locals} {opt opt₁ opt' : Opt} {c : UInt8}
    {source message : Text} (read : esopt strings options opt = (.ok (some c), opt₁))
    (failed : optionRound strings options switch (locals, opt) =
      (.error (.fail source message), opt')) :
    switch.unsupported c ∧ opt' = esoptend opt₁ := by
  rw [optionRound_option read] at failed
  have fails : switch.case c locals opt₁ = (.error (.fail source message), opt') := by
    rcases result : switch.case c locals opt₁ with ⟨stop | locals', opt₂⟩
    · rw [result] at failed
      cases failed
      rfl
    · rw [result] at failed
      cases failed
  exact switch.case_fails fails

theorem optionRound_option_ok {locals locals' : Locals} {opt opt₁ opt' : Opt} {c : UInt8}
    (read : esopt strings options opt = (.ok (some c), opt₁))
    (continues : optionRound strings options switch (locals, opt) = (.ok (some locals'), opt')) :
    ¬switch.unsupported c := by
  intro unsupported
  obtain ⟨_, _, same⟩ := switch.fails c locals opt₁ unsupported
  rw [optionRound_option read, same] at continues
  cases continues

/-- An exception leaves the parser idle just where no option ends the parsing unfinished. -/
theorem optionRound_fails {locals : Locals} {opt opt' : Opt} {source message : Text}
    (failed : optionRound strings options switch (locals, opt) =
      (.error (.fail source message), opt')) :
    opt'.Idle ↔ ¬Unfinished strings options switch opt := by
  rcases esopt_cases strings options opt with
    ⟨ended, same⟩ | ⟨ended, same⟩ | ⟨arg, next, place, here, fresh, used, read⟩
  · rw [optionRound, same] at failed
    cases failed
  · rw [optionRound, same] at failed
    cases failed
  · rw [unfinished_iff here]
    generalize result : esopt strings options opt = outcome at read
    cases read with
    | illegal message unknown =>
      rw [optionRound, result] at failed
      cases failed
      refine iff_of_true ⟨rfl, rfl, fresh, rfl⟩ ?_
      rintro (⟨⟨index, known, -⟩, -⟩ | ⟨⟨index, known⟩, -⟩)
      · cases known.symm.trans unknown
      · cases known.symm.trans unknown
    | lacks message takes last alone =>
      rw [optionRound, result] at failed
      cases failed
      exact iff_of_false (fun idle => used idle.usage) (not_not.mpr (.inl ⟨takes, last, alone⟩))
    | argument term rest takes supplied =>
      obtain ⟨unsupported, rfl⟩ := optionRound_option_fails result failed
      obtain ⟨index, known, -⟩ := id takes
      refine iff_of_false (fun idle => nomatch idle.termarg) (not_not.mpr (.inr ?_))
      exact ⟨⟨index, known⟩, unsupported, .inl takes⟩
    | last index known plain last =>
      obtain ⟨unsupported, rfl⟩ := optionRound_option_fails result failed
      refine iff_of_true ⟨rfl, rfl, fresh, rfl⟩ ?_
      rintro (⟨takes, -⟩ | ⟨-, -, takes | more⟩)
      · exact plain takes
      · exact plain takes
      · exact more last
    | more index known plain more =>
      obtain ⟨unsupported, rfl⟩ := optionRound_option_fails result failed
      refine iff_of_false (fun idle => nomatch idle.nextchar) (not_not.mpr (.inr ?_))
      exact ⟨⟨index, known⟩, unsupported, .inr more⟩

theorem optionRound_continues {locals locals' : Locals} {opt opt' : Opt}
    (continues : optionRound strings options switch (locals, opt) = (.ok (some locals'), opt')) :
    ¬Unfinished strings options switch opt := by
  rcases esopt_cases strings options opt with
    ⟨ended, same⟩ | ⟨ended, same⟩ | ⟨arg, next, place, here, fresh, used, read⟩
  · rw [optionRound, same] at continues
    cases continues
  · rw [optionRound, same] at continues
    cases continues
  · rw [unfinished_iff here]
    generalize result : esopt strings options opt = outcome at read
    cases read with
    | illegal message unknown =>
      rw [optionRound, result] at continues
      cases continues
    | lacks message takes last alone =>
      rw [optionRound, result] at continues
      cases continues
    | argument term rest takes supplied =>
      rintro (⟨-, lacks⟩ | ⟨-, unsupported, -⟩)
      · exact supplied lacks
      · exact optionRound_option_ok result continues unsupported
    | last index known plain last =>
      rintro (⟨takes, -⟩ | ⟨-, unsupported, -⟩)
      · exact plain takes
      · exact optionRound_option_ok result continues unsupported
    | more index known plain more =>
      rintro (⟨takes, -⟩ | ⟨-, unsupported, -⟩)
      · exact plain takes
      · exact optionRound_option_ok result continues unsupported

/-! ### Runs -/

/-- A round that goes on to the next. -/
def OptionStep (strings : Strings) (options : Text) (switch : Switch Locals)
    (start next : Locals × Opt) : Prop :=
  optionRound strings options switch start = (.ok (some next.1), next.2)

/-- The states at the beginning of the rounds of a loop. -/
def Visited (strings : Strings) (options : Text) (switch : Switch Locals) :
    Locals × Opt → Locals × Opt → Prop :=
  Relation.ReflTransGen (OptionStep strings options switch)

theorem optionLoop_idle {rounds : Nat} {start : Locals × Opt} {source message : Text} {opt' : Opt}
    (failed : optionLoop strings options switch rounds start =
      some (.error (.fail source message), opt')) :
    opt'.Idle ↔ ∀ visited, Visited strings options switch start visited →
      ¬Unfinished strings options switch visited.2 := by
  induction rounds generalizing start with
  | zero => cases failed
  | succ rounds inductionHypothesis =>
    rw [optionLoop] at failed
    rcases round : optionRound strings options switch start with ⟨stop | _ | locals, opt⟩
    · rw [round] at failed
      cases failed
      rw [optionRound_fails round]
      refine ⟨fun finished visited visits => ?_, fun all => all start .refl⟩
      rcases Relation.ReflTransGen.cases_head visits with rfl | ⟨next, step, -⟩
      · exact finished
      · cases round.symm.trans step
    · rw [round] at failed
      cases failed
    · rw [round] at failed
      rw [inductionHypothesis failed]
      have step : OptionStep strings options switch start (locals, opt) := round
      refine ⟨fun all visited visits => ?_, fun all visited visits =>
        all visited (.head step visits)⟩
      rcases Relation.ReflTransGen.cases_head visits with rfl | ⟨next, step, others⟩
      · exact optionRound_continues round
      · cases round.symm.trans step
        exact all visited others

/-- When an exception ends the parsing of options, the parser is left idle just if no option on
the way lacks its argument or is cut short. -/
theorem parseOptions_leftIdle_iff (strings : Strings) (options : Text) (switch : Switch Locals)
    (rounds : Nat) (list : List Text) (caller usagemsg : Text) (start : Locals) (opt opt' : Opt)
    (source message : Text)
    (failed : parseOptions strings options switch rounds list caller usagemsg start opt =
      some (.error (.fail source message), opt')) :
    opt'.LeftIdle ↔
      ∀ visited, Visited strings options switch (start, .begun list caller usagemsg) visited →
        ¬Unfinished strings options switch visited.2 := by
  rw [Opt.leftIdle_iff]
  unfold parseOptions esoptbegin at failed
  split at failed
  · rename_i begun
    split at begun <;> cases begun
    cases failed
  · rename_i begun
    split at begun <;> cases begun
    obtain ⟨outcome, loop, same⟩ := Option.map_eq_some_iff.mp failed
    rcases outcome with ⟨stop | locals, ended⟩
    · cases same
      exact optionLoop_idle loop
    · cases same

/-- Strings with zeros behind them. -/
def Strings.cleared : Strings where
  char s place := s.getD place 0
  string s place := s.drop place
  char_inside s place c inside := by rw [List.getD_eq_getElem?_getD, inside]; rfl
  char_end s := by rw [List.getD_eq_getElem?_getD, List.getElem?_eq_none (Nat.le_refl _)]; rfl
  string_inside _ _ _ := rfl

/-- The parser before its first use. -/
def Opt.initial : Opt := ⟨none, [], [], none, 0⟩

/-- The parsing of the options of `$&access`, on a system with all file types. -/
def accessOptions (rounds : Nat) (list : List Text) :
    Option (Except Stop (AccessOptions × List Text) × Opt) :=
  parseOptions .cleared accessOptionString (accessSwitch ⟨true, true, true⟩) rounds list
    (lit "$&access") accessUsage .initial .initial

theorem accessOptions_illegal :
    (⟨none, lit "$&access", [], none, 0⟩ : Opt).LeftIdle ↔
      ∀ visited, Visited .cleared accessOptionString (accessSwitch ⟨true, true, true⟩)
        (.initial, .begun [lit "-rq", lit "file"] (lit "$&access") accessUsage) visited →
          ¬Unfinished .cleared accessOptionString (accessSwitch ⟨true, true, true⟩) visited.2 :=
  parseOptions_leftIdle_iff .cleared accessOptionString (accessSwitch ⟨true, true, true⟩) 2
    [lit "-rq", lit "file"] (lit "$&access") accessUsage .initial .initial
    ⟨none, lit "$&access", [], none, 0⟩ (lit "$&access")
    (lit "illegal option: -q -- usage: access [-n name] [-1e] [-rwx] [-fdcblsp] path ...")
    (by decide +kernel)

/-- `access -n` leaves the usage message set, and the next `access` fails its assertion. -/
theorem accessOptions_lacks :
    accessOptions 1 [lit "-n"] =
        some (.error (.fail (lit "$&access") (lit "option -n expects an argument -- usage: " ++
          accessUsage)), ⟨some accessUsage, lit "$&access", [], none, 0⟩) ∧
      ¬(⟨some accessUsage, lit "$&access", [], none, 0⟩ : Opt).LeftIdle := by
  refine ⟨by decide +kernel, fun idle => ?_⟩
  exact idle.2 [] [] [] rfl

end Desh
