/-
This file models the names of signals and what the shell does about each of them
(`signal.c`), and the variable `signals`, whose settor is `$&setsignals`
(`prim-sys.cpp`). The table of signals is generated when the shell is built.

The value of the variable says all there is to say: an assignment of a value that
it has had puts back the effects there were then, as at the end of a `local`.
-/

import Desh.Limit

namespace Desh

/-! ### Numbers -/

/-- `strtol` with a base up to ten: the number, and where it stopped. -/
def strtolBase (base : Nat) (s : Text) : Int × Text :=
  let (sign, digits) := signOf (s.dropWhile isspace)
  let isDigit := fun c => decide (digitOf c < base)
  if digits.takeWhile isDigit = [] then (0, s)
  else
    (max (-2 ^ 63) (min (2 ^ 63 - 1) (sign * valueOf base (digits.takeWhile isDigit))),
      digits.dropWhile isDigit)

/-- A number in base ten is read back. -/
theorem strtolBase_utoa {u : Nat} (small : u < 2 ^ 63) :
    strtolBase 10 (utoa u 10 (digitTable false)) = ((u : Int), []) := by
  obtain ⟨c, rest, text, areDigits, value, -⟩ := utoa_spec u
  have facts : ∀ c, isdigit c = true → isspace c = false ∧ c ≠ '-'.toUInt8 ∧ c ≠ '+'.toUInt8 ∧
      digitOf c < 10 := forall_byte (by decide +kernel)
  obtain ⟨space, minus, plus, -⟩ := facts c (areDigits c List.mem_cons_self)
  have sign : signOf ((c :: rest).dropWhile isspace) = (1, c :: rest) := by
    rw [List.dropWhile_cons_of_neg (by rw [space]; exact Bool.false_ne_true), signOf, if_neg minus,
      if_neg plus]
  have inBase : ∀ d ∈ c :: rest, decide (digitOf d < 10) = true := fun d member =>
    decide_eq_true (facts d (areDigits d member)).2.2.2
  rw [text, strtolBase, sign]
  dsimp only
  rw [List.takeWhile_eq_self_iff.mpr inBase, List.dropWhile_eq_nil_iff.mpr inBase,
    if_neg (List.cons_ne_nil c rest), value]
  refine Prod.ext ?_ rfl
  show max (-2 ^ 63) (min (2 ^ 63 - 1) (1 * (u : Int))) = u
  omega

/-! ### The names -/

/-- `Sigmsgs`, without the message. -/
structure Sigmsgs where
  sig : Nat
  name : Text
  deriving DecidableEq

section

variable (nsig : Nat) (signals : List Sigmsgs)

/-- `signame`. -/
def signame (sig : Nat) : Text :=
  match signals.find? fun entry => entry.sig = sig with
  | some entry => entry.name
  | none => lit "sig" ++ dconv .none (UInt64.ofNat sig)

/-- `signumber`, `none` being `-1`. -/
def signumber (name : Text) : Option Nat :=
  if (lit "sig").isPrefixOf name then
    match signals.find? fun entry => entry.name = name with
    | some entry => some entry.sig
    | none =>
      let (number, suffix) := strtolBase 10 (name.drop 3)
      let i := number.bmod (2 ^ 32)
      if 0 < i ∧ i < nsig ∧ suffix = [] then some i.toNat else none
  else none

end

/-- What the table promises, of which `initsignals` checks the numbers: every name begins as it
should, and no name stands for two signals, whether in the table or as a number. -/
structure Sigmsgs.Table (nsig : Nat) (signals : List Sigmsgs) : Prop where
  within : ∀ entry ∈ signals, 0 < entry.sig ∧ entry.sig < nsig
  begins : ∀ entry ∈ signals, lit "sig" <+: entry.name
  unique : ∀ entry ∈ signals, ∀ other ∈ signals, entry.name = other.name → entry.sig = other.sig
  number : ∀ entry ∈ signals, ∀ sig < nsig,
    entry.name = lit "sig" ++ dconv .none (UInt64.ofNat sig) → entry.sig = sig

/-- The number of a name is the signal that has that name. -/
theorem signumber_signame {nsig : Nat} {signals : List Sigmsgs} (table : Sigmsgs.Table nsig signals)
    (small : nsig ≤ 2 ^ 31) {sig : Nat} (pos : 0 < sig) (lt : sig < nsig) :
    signumber nsig signals (signame signals sig) = some sig := by
  unfold signame signumber
  cases named : signals.find? fun entry => entry.sig = sig with
  | some entry =>
    have member := List.mem_of_find?_eq_some named
    have same : entry.sig = sig := by simpa using List.find?_some named
    have begins : (lit "sig").isPrefixOf entry.name = true :=
      List.isPrefixOf_iff_prefix.mpr (table.begins entry member)
    simp only [begins, if_true]
    cases found : signals.find? fun other => other.name = entry.name with
    | none =>
      have missing := List.find?_eq_none.mp found entry member
      simp at missing
    | some other =>
      have eq : other.name = entry.name := by simpa using List.find?_some found
      rw [← same]
      exact congrArg some
        (table.unique other (List.mem_of_find?_eq_some found) entry member eq)
  | none =>
    have size : (UInt64.ofNat sig).toNat = sig :=
      UInt64.toNat_ofNat_of_lt' (lt.trans (lt_of_le_of_lt small (by decide)))
    have printed : dconv .none (UInt64.ofNat sig) = utoa sig 10 (digitTable false) := by
      have half := (lowerHalf_eq_iff (UInt64.ofNat sig)).mpr (by omega)
      rw [dconv_none, half, size, if_pos (Int.natCast_nonneg _), List.nil_append,
        Int.natAbs_natCast]
    have begins : (lit "sig").isPrefixOf (lit "sig" ++ dconv .none (UInt64.ofNat sig)) = true :=
      List.isPrefixOf_iff_prefix.mpr (List.prefix_append ..)
    have unknown : (signals.find? fun entry =>
        entry.name = lit "sig" ++ dconv .none (UInt64.ofNat sig)) = none := by
      refine List.find?_eq_none.mpr fun entry member eq => ?_
      have same := table.number entry member sig lt (by simpa using eq)
      have other := List.find?_eq_none.mp named entry member
      simp [same] at other
    have digits : (lit "sig" ++ dconv .none (UInt64.ofNat sig)).drop 3 =
        utoa sig 10 (digitTable false) := by
      rw [printed]
      rfl
    simp only [begins, if_true, unknown, digits, strtolBase_utoa (show sig < 2 ^ 63 by omega)]
    have bmod : (sig : Int).bmod (2 ^ 32) = sig := Int.bmod_eq_of_le (by omega) (by omega)
    rw [bmod, if_pos ⟨by omega, by omega, trivial⟩, Int.toNat_natCast]

/-! ### The effects -/

/-- `Sigeffect`. -/
inductive Sigeffect where
  | sigNochange
  | sigCatch
  | sigDefault
  | sigIgnore
  | sigNoop
  | sigSpecial
  deriving DecidableEq

/-- `SIGINT`. -/
def SIGINT : Nat := 2

/-- The array `sigeffect`, and what the shell has complained about. -/
structure Sigstate where
  sigeffect : Nat → Sigeffect
  printed : Text

section

variable (nsig : Nat) (signals : List Sigmsgs) (refused : Nat → Bool)

/-- A complaint of `esignal`, which then leaves the effect as it is. -/
def Sigstate.complain (state : Sigstate) (what : String) (sig : Nat) : Sigstate :=
  { state with
    printed :=
      state.printed ++ lit "$&setsignals: " ++ lit what ++ signame signals sig ++ lit "\n" }

def Sigstate.set (state : Sigstate) (sig : Nat) (effect : Sigeffect) : Sigstate :=
  { state with sigeffect := Function.update state.sigeffect sig effect }

/-- `esignal`; the system does not let the shell catch or ignore the signals that are `refused`.
That `SIG_DFL` is refused goes unnoticed. -/
def esignal (sig : Nat) (effect : Sigeffect) (state : Sigstate) : Sigstate :=
  if effect ≠ .sigNochange ∧ effect ≠ state.sigeffect sig then
    match effect with
    | .sigIgnore =>
      if refused sig then state.complain signals "cannot ignore " sig else state.set sig effect
    | .sigSpecial =>
      if sig ≠ SIGINT then state.complain signals "special handler not defined for " sig
      else if refused sig then state.complain signals "cannot catch " sig
      else state.set sig effect
    | .sigCatch | .sigNoop =>
      if refused sig then state.complain signals "cannot catch " sig else state.set sig effect
    | .sigDefault => state.set sig effect
    | .sigNochange => state
  else state

/-- `setsigeffects`. -/
def setsigeffects (effects : Nat → Sigeffect) (state : Sigstate) : Sigstate :=
  (List.range' 1 (nsig - 1)).foldl
    (fun state sig => esignal signals refused sig (effects sig) state) state

/-- The terms of a signal in `mksiglist`, which panics where there is no effect. -/
def sigterm (sig : Nat) : Sigeffect → Option (List Text)
  | .sigDefault => some []
  | .sigCatch => some [signame signals sig]
  | .sigIgnore => some ['-'.toUInt8 :: signame signals sig]
  | .sigNoop => some ['/'.toUInt8 :: signame signals sig]
  | .sigSpecial => some ['.'.toUInt8 :: signame signals sig]
  | .sigNochange => none

/-- The loop of `mksiglist`, from a signal down to 1. -/
def siglistFrom (effects : Nat → Sigeffect) : Nat → List Text → Option (List Text)
  | 0, lp => some lp
  | sig + 1, lp =>
    if sig = 0 then some lp
    else do
      let terms ← sigterm signals sig (effects sig)
      siglistFrom effects sig (terms ++ lp)

/-- `mksiglist`. -/
def mksiglist (state : Sigstate) : Option (List Text) := siglistFrom signals state.sigeffect nsig []

/-- The effect that a term of `$&setsignals` asks for, and the name of the signal. -/
def effectOf : Text → Sigeffect × Text
  | c :: rest =>
    if c = '-'.toUInt8 then (.sigIgnore, rest)
    else if c = '/'.toUInt8 then (.sigNoop, rest)
    else if c = '.'.toUInt8 then (.sigSpecial, rest)
    else (.sigCatch, c :: rest)
  | [] => (.sigCatch, [])

/-- A round of the loop of `prim_setsignals`. -/
def readSignal (effects : Nat → Sigeffect) (term : Text) :
    Except (Text × Text) (Nat → Sigeffect) :=
  let (effect, s) := effectOf term
  match signumber nsig signals s with
  | none => .error (lit "$&setsignals", lit "unknown signal: " ++ s)
  | some sig => .ok (Function.update effects sig effect)

/-- `prim_setsignals`: the effects, and the list it gives back. -/
def primSetsignals (list : List Text) (state : Sigstate) :
    Except (Text × Text) (Sigstate × Option (List Text)) := do
  let effects ← list.foldlM (readSignal nsig signals) fun _ => .sigDefault
  let state := setsigeffects nsig signals refused effects state
  return (state, mksiglist nsig signals state)

end

/-! ### Setting what is set -/

/-- Effects that the shell can have: none is missing, only `SIGINT` has a special one, and signals
that the system does not let it catch or ignore have none of their own. -/
structure Sigstate.Valid (nsig : Nat) (refused : Nat → Bool) (effects : Nat → Sigeffect) :
    Prop where
  present : ∀ sig, 0 < sig → sig < nsig → effects sig ≠ .sigNochange
  special : ∀ sig, 0 < sig → sig < nsig → effects sig = .sigSpecial → sig = SIGINT
  default : ∀ sig, 0 < sig → sig < nsig → refused sig = true → effects sig = .sigDefault

section

variable {nsig : Nat} {signals : List Sigmsgs} {refused : Nat → Bool}

theorem Sigstate.set_sigeffect (state : Sigstate) (sig : Nat) (effect : Sigeffect) (other : Nat) :
    (state.set sig effect).sigeffect other =
      if other = sig then effect else state.sigeffect other :=
  Function.update_apply ..

/-- An effect that the shell can have is set without a complaint. -/
theorem esignal_valid {sig : Nat} {effect : Sigeffect} (present : effect ≠ .sigNochange)
    (special : effect = .sigSpecial → sig = SIGINT)
    (default : refused sig = true → effect = .sigDefault) (state : Sigstate) :
    esignal signals refused sig effect state = state.set sig effect := by
  unfold esignal
  split
  · cases effect with
    | sigNochange => exact absurd rfl present
    | sigDefault => rfl
    | sigSpecial =>
      have allowed : ¬refused sig = true := fun refused => by cases default refused
      simp [special rfl, special rfl ▸ allowed]
    | _ =>
      have allowed : ¬refused sig = true := fun refused => by cases default refused
      simp [allowed]
  next same =>
    have eq : effect = state.sigeffect sig := by
      by_contra ne
      exact same ⟨present, ne⟩
    rw [eq, Sigstate.set, Function.update_eq_self]

theorem setsigeffects_valid {effects : Nat → Sigeffect}
    (valid : Sigstate.Valid nsig refused effects) (state : Sigstate) :
    setsigeffects nsig signals refused effects state =
      { state with
        sigeffect := fun sig =>
          if 0 < sig ∧ sig < nsig then effects sig else state.sigeffect sig } := by
  have upto : ∀ n, n ≤ nsig - 1 →
      (List.range' 1 n).foldl (fun state sig => esignal signals refused sig (effects sig) state)
        state =
      { state with
        sigeffect := fun sig =>
          if 0 < sig ∧ sig ≤ n then effects sig else state.sigeffect sig } := by
    intro n
    induction n with
    | zero =>
      intro
      have never : ∀ sig, ¬(0 < sig ∧ sig ≤ 0) := by omega
      simp only [never, if_false]
      rfl
    | succ n ih =>
      intro le
      have pos : 0 < 1 + n := by omega
      have lt : 1 + n < nsig := by omega
      rw [List.range'_1_concat, List.foldl_append, ih (by omega), List.foldl_cons, List.foldl_nil,
        esignal_valid (valid.present _ pos lt) (valid.special _ pos lt) (valid.default _ pos lt),
        Sigstate.set]
      congr 1
      funext sig
      rw [Function.update_apply]
      by_cases same : sig = 1 + n
      · rw [if_pos same, if_pos ⟨by omega, by omega⟩, same]
      · rw [if_neg same]
        exact if_congr ⟨fun ⟨pos, le⟩ => ⟨pos, by omega⟩, fun ⟨pos, le⟩ => ⟨pos, by omega⟩⟩ rfl rfl
  rw [setsigeffects, upto _ le_rfl]
  congr 1
  funext sig
  exact if_congr ⟨fun ⟨pos, le⟩ => ⟨pos, by omega⟩, fun ⟨pos, lt⟩ => ⟨pos, by omega⟩⟩ rfl rfl

/-- Whatever is asked for, the effects stay ones that the shell can have. -/
theorem Sigstate.Valid.esignal {state : Sigstate}
    (valid : Sigstate.Valid nsig refused state.sigeffect) (sig : Nat) (effect : Sigeffect) :
    Sigstate.Valid nsig refused (esignal signals refused sig effect state).sigeffect := by
  have setting : (effect ≠ .sigNochange) → (effect = .sigSpecial → sig = SIGINT) →
      (refused sig = true → effect = .sigDefault) →
      Sigstate.Valid nsig refused (state.set sig effect).sigeffect := by
    intro present special default
    constructor
    · intro other pos lt
      rw [Sigstate.set_sigeffect]
      split
      · exact present
      · exact valid.present other pos lt
    · intro other pos lt eq
      rw [Sigstate.set_sigeffect] at eq
      split at eq
      next same => exact same.trans (special eq)
      next => exact valid.special other pos lt eq
    · intro other pos lt refuses
      rw [Sigstate.set_sigeffect]
      split
      next same => exact default (same ▸ refuses)
      next => exact valid.default other pos lt refuses
  unfold Desh.esignal
  split
  next asked =>
    cases effect with
    | sigNochange => exact valid
    | sigDefault => exact setting asked.1 Sigeffect.noConfusion fun _ => rfl
    | sigSpecial =>
      simp only
      split
      · exact valid
      next sigint =>
      split
      · exact valid
      next allowed =>
      exact setting asked.1 (fun _ => not_not.mp sigint) fun refuses => absurd refuses allowed
    | _ =>
      simp only
      split
      · exact valid
      next allowed =>
      exact setting asked.1 Sigeffect.noConfusion fun refuses => absurd refuses allowed
  · exact valid

theorem Sigstate.Valid.setsigeffects {state : Sigstate}
    (valid : Sigstate.Valid nsig refused state.sigeffect) (effects : Nat → Sigeffect) :
    Sigstate.Valid nsig refused (setsigeffects nsig signals refused effects state).sigeffect := by
  rw [Desh.setsigeffects]
  induction List.range' 1 (nsig - 1) generalizing state with
  | nil => exact valid
  | cons sig rest ih => exact ih (valid.esignal sig (effects sig))

/-! ### The list that says it all -/

/-- The list of the signals below a number, in ascending order. -/
def siglist (signals : List Sigmsgs) (effects : Nat → Sigeffect) (n : Nat) : List Text :=
  (List.range' 1 (n - 1)).flatMap fun sig => (sigterm signals sig (effects sig)).getD []

theorem siglistFrom_eq {effects : Nat → Sigeffect} (lp : List Text) :
    ∀ n, (∀ sig, 0 < sig → sig < n → effects sig ≠ .sigNochange) →
      siglistFrom signals effects n lp = some (siglist signals effects n ++ lp) := by
  intro n
  induction n generalizing lp with
  | zero => exact fun _ => rfl
  | succ sig ih =>
    intro present
    rw [siglistFrom]
    by_cases zero : sig = 0
    · rw [if_pos zero, zero]
      rfl
    · obtain ⟨terms, eq⟩ : ∃ terms, sigterm signals sig (effects sig) = some terms := by
        have some := present sig (by omega) (by omega)
        cases effect : effects sig with
        | sigNochange => exact absurd effect some
        | _ => exact ⟨_, rfl⟩
      obtain ⟨before, rfl⟩ : ∃ before, sig = before + 1 := ⟨sig - 1, by omega⟩
      rw [if_neg zero, eq, Option.bind_eq_bind, Option.bind_some,
        ih _ fun other pos lt => present other pos (by omega), siglist, siglist,
        Nat.add_sub_cancel, Nat.add_sub_cancel, List.range'_1_concat, List.flatMap_append,
        List.flatMap_singleton, Nat.add_comm 1 before, eq, Option.getD_some, List.append_assoc]

/-- The terms of a signal ask for the effect that it has. -/
theorem readSignal_sigterm (table : Sigmsgs.Table nsig signals) (small : nsig ≤ 2 ^ 31) {sig : Nat}
    (pos : 0 < sig) (lt : sig < nsig) {effect : Sigeffect} (present : effect ≠ .sigNochange)
    {effects : Nat → Sigeffect} (unset : effects sig = .sigDefault) :
    ((sigterm signals sig effect).getD []).foldlM (readSignal nsig signals) effects =
      .ok (Function.update effects sig effect) := by
  have number := signumber_signame table small pos lt
  have letter : ∃ rest, signame signals sig = 's'.toUInt8 :: rest := by
    unfold signame
    split
    next entry found =>
      obtain ⟨rest, eq⟩ := table.begins entry (List.mem_of_find?_eq_some found)
      exact ⟨_, eq.symm⟩
    next => exact ⟨_, rfl⟩
  obtain ⟨rest, begins⟩ := letter
  have plain : effectOf (signame signals sig) = (.sigCatch, signame signals sig) := by
    rw [begins, effectOf, if_neg (by decide), if_neg (by decide), if_neg (by decide)]
  have read : ∀ term asked, effectOf term = (asked, signame signals sig) →
      readSignal nsig signals effects term = .ok (Function.update effects sig asked) := by
    intro term asked eq
    rw [readSignal, eq]
    simp only [number]
  cases effect with
  | sigNochange => exact absurd rfl present
  | sigDefault =>
    have same : Function.update effects sig .sigDefault = effects := by
      rw [← unset, Function.update_eq_self]
    rw [same]
    rfl
  | sigCatch =>
    rw [sigterm, Option.getD_some, List.foldlM_cons, read _ _ plain]
    rfl
  | sigIgnore =>
    rw [sigterm, Option.getD_some, List.foldlM_cons, read _ .sigIgnore rfl]
    rfl
  | sigNoop =>
    rw [sigterm, Option.getD_some, List.foldlM_cons, read _ .sigNoop rfl]
    rfl
  | sigSpecial =>
    rw [sigterm, Option.getD_some, List.foldlM_cons, read _ .sigSpecial rfl]
    rfl

theorem foldlM_siglist (table : Sigmsgs.Table nsig signals) (small : nsig ≤ 2 ^ 31)
    {effects : Nat → Sigeffect} (present : ∀ sig, 0 < sig → sig < nsig →
      effects sig ≠ .sigNochange) :
    (siglist signals effects nsig).foldlM (readSignal nsig signals) (fun _ => .sigDefault) =
      .ok fun sig => if 0 < sig ∧ sig < nsig then effects sig else .sigDefault := by
  have upto : ∀ n, n ≤ nsig - 1 →
      ((List.range' 1 n).flatMap fun sig => (sigterm signals sig (effects sig)).getD []).foldlM
        (readSignal nsig signals) (fun _ => .sigDefault) =
      .ok fun sig => if 0 < sig ∧ sig ≤ n then effects sig else .sigDefault := by
    intro n
    induction n with
    | zero =>
      intro
      have never : ∀ sig, ¬(0 < sig ∧ sig ≤ 0) := by omega
      simp only [never, if_false]
      rfl
    | succ n ih =>
      intro le
      have pos : 0 < 1 + n := by omega
      have lt : 1 + n < nsig := by omega
      rw [List.range'_1_concat, List.flatMap_append, List.foldlM_append, ih (by omega),
        List.flatMap_singleton]
      refine (readSignal_sigterm table small pos lt (present _ pos lt)
        (if_neg fun inside => by omega)).trans (congrArg Except.ok ?_)
      funext sig
      rw [Function.update_apply]
      by_cases same : sig = 1 + n
      · rw [if_pos same, if_pos ⟨by omega, by omega⟩, same]
      · rw [if_neg same]
        exact if_congr ⟨fun ⟨pos, le⟩ => ⟨pos, by omega⟩, fun ⟨pos, le⟩ => ⟨pos, by omega⟩⟩ rfl rfl
  rw [siglist, upto _ le_rfl]
  congr 1
  funext sig
  exact if_congr ⟨fun ⟨pos, le⟩ => ⟨pos, by omega⟩, fun ⟨pos, lt⟩ => ⟨pos, by omega⟩⟩ rfl rfl

/-- An assignment to `signals`, or one that fails. -/
def Assigns (nsig : Nat) (signals : List Sigmsgs) (refused : Nat → Bool) (before after : Sigstate) :
    Prop :=
  ∃ list value, primSetsignals nsig signals refused list before = .ok (after, value)

theorem primSetsignals_eq {list : List Text} {before after : Sigstate}
    {value : Option (List Text)}
    (set : primSetsignals nsig signals refused list before = .ok (after, value)) :
    ∃ effects, after = setsigeffects nsig signals refused effects before ∧
      value = mksiglist nsig signals after := by
  rw [primSetsignals] at set
  cases read : list.foldlM (readSignal nsig signals) fun _ => .sigDefault with
  | error fail =>
    rw [read] at set
    cases set
  | ok effects =>
    rw [read] at set
    cases set
    exact ⟨effects, rfl, rfl⟩

theorem Sigstate.Valid.reached {start state : Sigstate}
    (valid : Sigstate.Valid nsig refused start.sigeffect)
    (reached : Relation.ReflTransGen (Assigns nsig signals refused) start state) :
    Sigstate.Valid nsig refused state.sigeffect := by
  induction reached with
  | refl => exact valid
  | tail _ assigns held =>
    obtain ⟨list, value, set⟩ := assigns
    obtain ⟨effects, rfl, -⟩ := primSetsignals_eq set
    exact held.setsigeffects effects

theorem siglist_congr {effects effects' : Nat → Sigeffect}
    (same : ∀ sig, 0 < sig → sig < nsig → effects sig = effects' sig) :
    siglist signals effects nsig = siglist signals effects' nsig := by
  refine List.flatMap_congr fun sig member => ?_
  obtain ⟨le, lt⟩ := List.mem_range'_1.mp member
  rw [same sig (by omega) (by omega)]

/-- Whatever the effects are now, a value that `signals` has had, assigned again, brings back the
effects there were then, is its value again, and gives no complaint. -/
theorem setsignals_restores (table : Sigmsgs.Table nsig signals) (small : nsig ≤ 2 ^ 31)
    {start saved : Sigstate} (valid : Sigstate.Valid nsig refused start.sigeffect)
    (reached : Relation.ReflTransGen (Assigns nsig signals refused) start saved)
    (now : Sigstate) :
    ∃ list restored, mksiglist nsig signals saved = some list ∧
      primSetsignals nsig signals refused list now = .ok (restored, some list) ∧
      restored.printed = now.printed ∧
      ∀ sig, 0 < sig → sig < nsig → restored.sigeffect sig = saved.sigeffect sig := by
  have known := valid.reached reached
  set list := siglist signals saved.sigeffect nsig with isList
  set asked := fun sig => if 0 < sig ∧ sig < nsig then saved.sigeffect sig else .sigDefault
    with isAsked
  have inside : ∀ sig, 0 < sig → sig < nsig → asked sig = saved.sigeffect sig :=
    fun sig pos lt => if_pos ⟨pos, lt⟩
  have askedValid : Sigstate.Valid nsig refused asked :=
    { present := fun sig pos lt => inside sig pos lt ▸ known.present sig pos lt
      special := fun sig pos lt eq => known.special sig pos lt (inside sig pos lt ▸ eq)
      default := fun sig pos lt refuses => inside sig pos lt ▸ known.default sig pos lt refuses }
  have value : mksiglist nsig signals saved = some list := by
    rw [mksiglist, siglistFrom_eq _ _ known.present, List.append_nil]
  have read : list.foldlM (readSignal nsig signals) (fun _ => .sigDefault) = .ok asked :=
    foldlM_siglist table small known.present
  let restored := setsigeffects nsig signals refused asked now
  have restores : ∀ sig, 0 < sig → sig < nsig →
      restored.sigeffect sig = saved.sigeffect sig := by
    intro sig pos lt
    show (setsigeffects nsig signals refused asked now).sigeffect sig = _
    rw [setsigeffects_valid askedValid now]
    exact (if_pos ⟨pos, lt⟩).trans (inside sig pos lt)
  have again : mksiglist nsig signals restored = some list := by
    rw [mksiglist, siglistFrom_eq _ _ fun sig pos lt =>
      restores sig pos lt ▸ known.present sig pos lt, List.append_nil, isList]
    exact congrArg some (siglist_congr restores)
  refine ⟨list, restored, value, ?_, ?_, restores⟩
  · rw [primSetsignals, read, ← again]
    rfl
  · show (setsigeffects nsig signals refused asked now).printed = _
    rw [setsigeffects_valid askedValid now]

/-- `SIGINT` is special and is then ignored; signal 3 cannot be caught. -/
theorem setsignals_restores_sigint :
    ∃ list restored,
      mksiglist 4 [⟨1, lit "sighup"⟩, ⟨2, lit "sigint"⟩]
          ⟨Function.update (fun _ => .sigDefault) 2 .sigSpecial, []⟩ = some list ∧
      primSetsignals 4 [⟨1, lit "sighup"⟩, ⟨2, lit "sigint"⟩] (fun sig => sig = 3) list
          ⟨fun _ => .sigIgnore, []⟩ = .ok (restored, some list) ∧
      restored.printed = [] ∧
      ∀ sig, 0 < sig → sig < 4 → restored.sigeffect sig =
        (Function.update (fun _ => Sigeffect.sigDefault) 2 .sigSpecial : Nat → Sigeffect) sig := by
  have table : Sigmsgs.Table 4 [⟨1, lit "sighup"⟩, ⟨2, lit "sigint"⟩] := by
    constructor
    · decide
    · decide
    · decide
    · decide +kernel
  have valid : Sigstate.Valid 4 (fun sig => sig = 3)
      (Function.update (fun _ => Sigeffect.sigDefault) 2 .sigSpecial) := by
    constructor
    · intro sig pos lt
      interval_cases sig <;> decide
    · intro sig pos lt
      interval_cases sig <;> decide
    · intro sig pos lt
      interval_cases sig <;> decide
  exact @setsignals_restores 4 _ _ table (by decide)
    ⟨Function.update (fun _ => .sigDefault) 2 .sigSpecial, []⟩ _ valid .refl _

end

end Desh
