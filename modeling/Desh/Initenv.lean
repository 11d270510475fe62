/-
This file models how the shell takes over its environment (`initenv`). The name
of an entry is copied to a buffer that is used again for the next one, and `%N`
decodes it there. The contents of a fresh buffer are a parameter, since nobody
has written to it; what is read or written outside of the buffer is undefined.

`initenv` has no handler of its own, so the first exception ends it.
-/

import Desh.Unwinding

namespace Desh

/-! ### Names -/

/-- `strchr(hexchar, c)`, where the string's own terminator is found as well. -/
def hexIndex (c : UInt8) : Option Nat :=
  (lit "0123456789abcdef" ++ [0]).findIdx? (· == c)

def underscore : UInt8 := '_'.toUInt8

/-- `%N` on the memory it reads, up to the NUL; `none` where it reads past the end. -/
def nconv : Text → Option Text
  | c :: u :: a :: b :: rest =>
      if c = 0 then some []
      else if c = underscore ∧ u = underscore then
        match hexIndex a, hexIndex b with
        | some h1, some h2 => (nconv rest).map (UInt8.ofNat (h1 <<< 4 ||| h2) :: ·)
        | _, _ => (nconv (u :: a :: b :: rest)).map (c :: ·)
      else (nconv (u :: a :: b :: rest)).map (c :: ·)
  | [c, u, a] =>
      if c = 0 then some []
      else if c = underscore ∧ u = underscore then none
      else (nconv [u, a]).map (c :: ·)
  | [c, u] =>
      if c = 0 then some []
      else if c = underscore ∧ u = underscore then none
      else (nconv [u]).map (c :: ·)
  | [c] => if c = 0 then some [] else none
  | [] => none

/-- The buffer of `initenv`, and the size it takes it to have. -/
structure NameBuffer where
  memory : Text
  bufsize : Nat
  deriving DecidableEq

section

variable (fresh : Nat → UInt8)

namespace NameBuffer

/-- The buffer at the start of `initenv`. -/
def initial : NameBuffer where
  memory := erealloc fresh [] 1024
  bufsize := 1024

/-- The loop that makes room for a name; each turn doubles `bufsize` when it has reallocated. -/
def grow (nlen : Nat) : Nat → NameBuffer → NameBuffer
  | 0, buffer => buffer
  | fuel + 1, buffer =>
      if buffer.bufsize ≤ nlen then
        grow nlen fuel
          { memory := erealloc fresh buffer.memory buffer.bufsize, bufsize := buffer.bufsize * 2 }
      else buffer

/-- `memcpy` of a name, with its terminator. -/
def copy (name : Text) (buffer : NameBuffer) : Option NameBuffer :=
  if name.length < buffer.memory.length then
    some { buffer with memory := name ++ 0 :: buffer.memory.drop (name.length + 1) }
  else none

end NameBuffer

end

/-- `hasprefix` for the names `-p` protects. -/
def isProtected (name : Text) : Bool :=
  (lit "fn-").isPrefixOf name || (lit "set-").isPrefixOf name

/-! ### The loop -/

/-- The name of an entry, before it is decoded. -/
def entryName (envstr : Text) : Text := envstr.takeWhile (· ≠ '='.toUInt8)

/-- What follows the name, from the `=` on. -/
def entryValue (envstr : Text) : Text := envstr.dropWhile (· ≠ '='.toUInt8)

namespace Control

variable {strhash : Text → Nat} {World : Type}

/-- `importvar`. -/
def importvar (commands : Evaluator strhash World) (name value : Text)
    (control : Control strhash World) : Outcome (Control strhash World) Unit :=
  let imported := Desh.importvar value control.shell.split
  let defn := List.range' control.shell.heap.terms.length imported.1.length
  let shell := { control.shell with
    split := imported.2
    heap := { control.shell.heap with
      terms := control.shell.heap.terms ++ imported.1.map TermCell.str } }
  vardef commands name defn { control with shell }

/-- An entry without `=` goes into the new environment as it is. -/
def keep (envstr : Text) (control : Control strhash World) : Control strhash World :=
  { control with shell := { control.shell with env := control.shell.env ++ [envstr] } }

variable (commands : Evaluator strhash World) (fresh : Nat → UInt8) (protect : Bool)

/-- `initenv`. -/
def initenv : List Text → NameBuffer → Control strhash World →
    Option (Outcome (Control strhash World) Unit)
  | [], _, control =>
      some (.ret () { control with
        shell := { control.shell with envmin := control.shell.env.length, loading := false } })
  | envstr :: envp, buffer, control =>
      if '='.toUInt8 ∈ envstr then do
        let name := entryName envstr
        let buffer ← (buffer.grow fresh name.length name.length).copy name
        let name := cstring (← nconv buffer.memory)
        if protect && isProtected name then initenv envp buffer control
        else
          match importvar commands name (entryValue envstr) control with
          | .ret () control => initenv envp buffer control
          | .raise e control => some (.raise e control)
          | .abort => some .abort
      else initenv envp buffer (control.keep envstr)

end Control

/-! ### What a name stands for -/

/-- The value of a digit as `%F` prints it. -/
def hexDigit (c : UInt8) : Option Nat :=
  (lit "0123456789abcdef").findIdx? (· == c)

/-- `%F` undone: two underscores and two digits of the name stand for a byte. -/
def unfconv : Text → Text
  | c :: u :: a :: b :: rest =>
      if c = underscore ∧ u = underscore then
        match hexDigit a, hexDigit b with
        | some h1, some h2 => UInt8.ofNat (16 * h1 + h2) :: unfconv rest
        | _, _ => c :: unfconv (u :: a :: b :: rest)
      else c :: unfconv (u :: a :: b :: rest)
  | rest => rest

/-- Does `%N` take the NUL of a name, or what is behind it in the buffer, for a digit? -/
def overreads (behind : Text) : Text → Bool
  | c :: u :: a :: b :: rest =>
      if c = underscore ∧ u = underscore ∧ (hexDigit a).isSome ∧ (hexDigit b).isSome then
        overreads behind rest
      else overreads behind (u :: a :: b :: rest)
  | [c, u, a] =>
      if c = underscore ∧ u = underscore ∧ (hexDigit a).isSome then true
      else overreads behind [u, a]
  | [c, u] =>
      if c = underscore ∧ u = underscore then behind.head?.all fun c => (hexIndex c).isSome
      else false
  | _ => false

theorem hexIndex_zero : hexIndex 0 = some 16 := by decide

theorem hexIndex_of_ne {c : UInt8} (nonzero : c ≠ 0) : hexIndex c = hexDigit c := by
  have behind : [(0 : UInt8)].findIdx? (· == c) = none := by simp [nonzero.symm]
  rw [hexIndex, List.findIdx?_append, behind, Option.map_none, Option.or_none, hexDigit]

theorem hexDigit_lt {c : UInt8} {h : Nat} (digit : hexDigit c = some h) : h < 16 := by
  have found := List.findIdx?_eq_some_iff_findIdx_eq.mp digit
  exact found.1

theorem hexIndex_lt {c : UInt8} {h : Nat} (digit : hexIndex c = some h) : h < 17 := by
  have found := List.findIdx?_eq_some_iff_findIdx_eq.mp digit
  exact found.1

/-- The byte of two digits. -/
theorem shiftLeft_or {h1 h2 : Nat} (small : h2 < 16) : h1 <<< 4 ||| h2 = 16 * h1 + h2 := by
  rw [Nat.shiftLeft_eq, Nat.mul_comm h1]
  exact (Nat.two_pow_add_eq_or_of_lt (i := 4) small h1).symm

theorem nconv_zero (memory : Text) : nconv (0 :: memory) = some [] := by
  rcases memory with - | ⟨u, - | ⟨a, - | ⟨b, memory⟩⟩⟩ <;> rw [nconv, if_pos rfl]

/-- A byte that starts no escape is copied. -/
theorem nconv_plain {c d : UInt8} (memory : Text) (nonzero : c ≠ 0)
    (plain : ¬(c = underscore ∧ d = underscore)) :
    nconv (c :: d :: memory) = (nconv (d :: memory)).map (c :: ·) := by
  rcases memory with - | ⟨a, - | ⟨b, memory⟩⟩ <;> rw [nconv, if_neg nonzero, if_neg plain]

theorem map_cons_eq {c : UInt8} {memory : Option Text} {rest : Text} :
    memory.map (c :: ·) = some (c :: rest) ↔ memory = some rest := by
  cases memory <;> simp

/-- Another byte in its place. -/
theorem map_cons_ne {c d : UInt8} {memory : Option Text} {rest : Text} (other : c ≠ d) :
    memory.map (c :: ·) ≠ some (d :: rest) := by
  cases memory <;> simp [other]

theorem ofNat_ne_underscore {h : Nat} (small : h < 17) :
    UInt8.ofNat (h <<< 4 ||| 16) ≠ underscore ∧ UInt8.ofNat (16 <<< 4 ||| h) ≠ underscore := by
  have each : ∀ h < 17, UInt8.ofNat (h <<< 4 ||| 16) ≠ underscore ∧
      UInt8.ofNat (16 <<< 4 ||| h) ≠ underscore := by
    decide +kernel
  exact each h small

/-- `%N` reads a name from its own bytes, or takes what is behind them for digits and comes to
something else. -/
theorem nconv_eq_iff (behind name : Text) (nulFree : NulFree name) :
    nconv (name ++ 0 :: behind) = some (unfconv name) ↔ overreads behind name = false := by
  induction name using overreads.induct with
  | case1 c u a b rest escape inductionHypothesis =>
    simp only [nulFree_cons] at nulFree
    obtain ⟨nonzero, -, nonzeroA, nonzeroB, nulFree⟩ := nulFree
    obtain ⟨h1, isH1⟩ := Option.isSome_iff_exists.mp escape.2.2.1
    obtain ⟨h2, isH2⟩ := Option.isSome_iff_exists.mp escape.2.2.2
    have both : c = underscore ∧ u = underscore := ⟨escape.1, escape.2.1⟩
    rw [overreads, if_pos escape, ← inductionHypothesis nulFree]
    simp only [List.cons_append, nconv, unfconv, if_neg nonzero, if_pos both,
      hexIndex_of_ne nonzeroA, hexIndex_of_ne nonzeroB, isH1, isH2, shiftLeft_or (hexDigit_lt isH2)]
    exact map_cons_eq
  | case2 c u a b rest noEscape inductionHypothesis =>
    have parts := nulFree
    simp only [nulFree_cons] at parts
    obtain ⟨nonzero, -, nonzeroA, nonzeroB, -⟩ := parts
    rw [overreads, if_neg noEscape, ← inductionHypothesis (nulFree_cons.mp nulFree).2]
    by_cases both : c = underscore ∧ u = underscore
    · simp only [List.cons_append, nconv, unfconv, if_neg nonzero, if_pos both,
        hexIndex_of_ne nonzeroA, hexIndex_of_ne nonzeroB]
      cases isH1 : hexDigit a with
      | none => exact map_cons_eq
      | some h1 =>
        cases isH2 : hexDigit b with
        | none => exact map_cons_eq
        | some h2 => exact absurd ⟨both.1, both.2, by simp [isH1], by simp [isH2]⟩ noEscape
    · rw [unfconv, if_neg both, List.cons_append, List.cons_append, nconv_plain _ nonzero both]
      exact map_cons_eq
  | case3 c u a escape =>
    simp only [nulFree_cons] at nulFree
    obtain ⟨nonzero, -, nonzeroA, -⟩ := nulFree
    obtain ⟨rfl, rfl, digit⟩ := escape
    obtain ⟨h1, isH1⟩ := Option.isSome_iff_exists.mp digit
    refine iff_of_false ?_ (by simp [overreads, digit])
    simp only [List.cons_append, List.nil_append, nconv, if_neg nonzero, and_self, if_true,
      hexIndex_of_ne nonzeroA, isH1, hexIndex_zero, unfconv]
    exact map_cons_ne (ofNat_ne_underscore (Nat.lt_succ_of_lt (hexDigit_lt isH1))).1
  | case4 c u a noEscape inductionHypothesis =>
    have parts := nulFree
    simp only [nulFree_cons] at parts
    obtain ⟨nonzero, -, nonzeroA, -⟩ := parts
    have short : unfconv [u, a] = [u, a] := rfl
    rw [overreads, if_neg noEscape, ← inductionHypothesis (nulFree_cons.mp nulFree).2, short]
    by_cases both : c = underscore ∧ u = underscore
    · have none : hexDigit a = none := by
        rw [← Option.not_isSome_iff_eq_none]
        exact fun digit => noEscape ⟨both.1, both.2, digit⟩
      simp only [List.cons_append, List.nil_append, nconv, if_neg nonzero, if_pos both,
        hexIndex_of_ne nonzeroA, none, unfconv]
      exact map_cons_eq
    · rw [List.cons_append, List.cons_append, nconv_plain _ nonzero both]
      exact map_cons_eq
  | case5 c u both =>
    have nonzero := (nulFree_cons.mp nulFree).1
    obtain ⟨rfl, rfl⟩ := both
    cases behind with
    | nil =>
      refine iff_of_false ?_ (by simp [overreads])
      simp [nconv, if_neg nonzero]
    | cons d behind =>
      simp only [List.cons_append, List.nil_append, nconv, if_neg nonzero, and_self, if_true,
        hexIndex_zero, overreads, List.head?_cons, Option.all_some, unfconv]
      cases isH2 : hexIndex d with
      | some h2 =>
        exact iff_of_false (map_cons_ne (ofNat_ne_underscore (hexIndex_lt isH2)).2) (by simp)
      | none =>
        refine iff_of_true (map_cons_eq.mpr ?_) rfl
        rw [nconv_plain _ nonzero (by decide), nconv_zero]
        rfl
  | case6 c u noEscape =>
    simp only [nulFree_cons] at nulFree
    refine iff_of_true ?_ (by rw [overreads, if_neg noEscape])
    rw [List.cons_append, List.cons_append, List.nil_append, nconv_plain _ nulFree.1 noEscape,
      nconv_plain _ nulFree.2.1 (fun both => absurd both.2 (by decide)), nconv_zero]
    rfl
  | case7 name not4 not3 not2 =>
    rcases name with - | ⟨c, - | ⟨u, rest⟩⟩
    · exact iff_of_true (nconv_zero behind) rfl
    · refine iff_of_true ?_ rfl
      rw [List.cons_append, List.nil_append, nconv_plain _ (nulFree_cons.mp nulFree).1
        (fun both => absurd both.2 (by decide)), nconv_zero]
      rfl
    · rcases rest with - | ⟨a, - | ⟨b, rest⟩⟩
      · exact absurd rfl (not2 c u)
      · exact absurd rfl (not3 c u a)
      · exact absurd rfl (not4 c u a b rest)

/-- The name an entry is for. -/
def decodedName (name : Text) : Text := cstring (unfconv name)

section

variable (fresh : Nat → UInt8)

/-- Each name is decoded as what it is. -/
def Decodes : List Text → NameBuffer → Prop
  | [], _ => True
  | envstr :: envp, buffer =>
      if '='.toUInt8 ∈ envstr then
        ∃ copied, (buffer.grow fresh (entryName envstr).length (entryName envstr).length).copy
            (entryName envstr) = some copied ∧
          nconv copied.memory = some (unfconv (entryName envstr)) ∧ Decodes envp copied
      else Decodes envp buffer

/-- Each name fits in the first 1024 bytes, and `%N` ends with it. -/
def Legible : List Text → Text → Prop
  | [], _ => True
  | envstr :: envp, memory =>
      if '='.toUInt8 ∈ envstr then
        (entryName envstr).length < 1024 ∧
          overreads (memory.drop ((entryName envstr).length + 1)) (entryName envstr) = false ∧
          Legible envp (entryName envstr ++ 0 :: memory.drop ((entryName envstr).length + 1))
      else Legible envp memory

end

namespace NameBuffer

variable {fresh : Nat → UInt8}

theorem length_grow_le {nlen : Nat} (fuel : Nat) {buffer : NameBuffer}
    (full : buffer.memory.length ≤ nlen) : (buffer.grow fresh nlen fuel).memory.length ≤ nlen := by
  induction fuel generalizing buffer with
  | zero => exact full
  | succ fuel inductionHypothesis =>
    rw [grow]
    split_ifs with more
    · exact inductionHypothesis (by simpa [erealloc] using more)
    · exact full

theorem grow_of_lt {nlen : Nat} (fuel : Nat) {buffer : NameBuffer} (fits : nlen < buffer.bufsize) :
    buffer.grow fresh nlen fuel = buffer := by
  cases fuel with
  | zero => rfl
  | succ fuel => rw [grow, if_neg (Nat.not_le.mpr fits)]

end NameBuffer

theorem nulFree_entryName {envstr : Text} (nulFree : NulFree envstr) :
    NulFree (entryName envstr) :=
  fun zero => nulFree ((List.takeWhile_sublist _).mem zero)

theorem decodes_iff_legible (fresh : Nat → UInt8) {envp : List Text}
    (strings : ∀ envstr ∈ envp, NulFree envstr) {memory : Text} (length : memory.length = 1024) :
    Decodes fresh envp ⟨memory, 1024⟩ ↔ Legible envp memory := by
  induction envp generalizing memory with
  | nil => exact Iff.rfl
  | cons envstr envp inductionHypothesis =>
    rw [List.forall_mem_cons] at strings
    rw [Decodes, Legible]
    split_ifs with isEntry
    · by_cases fits : (entryName envstr).length < 1024
      · have copied : (NameBuffer.grow fresh (entryName envstr).length (entryName envstr).length
            ⟨memory, 1024⟩).copy (entryName envstr) = some
              ⟨entryName envstr ++ 0 :: memory.drop ((entryName envstr).length + 1), 1024⟩ := by
          rw [NameBuffer.grow_of_lt _ fits, NameBuffer.copy, if_pos (length ▸ fits)]
        have length' : (entryName envstr ++
            0 :: memory.drop ((entryName envstr).length + 1)).length = 1024 := by
          simp only [List.length_append, List.length_cons, List.length_drop]
          omega
        simp only [copied, Option.some.injEq, exists_eq_left', fits, true_and]
        rw [nconv_eq_iff _ _ (nulFree_entryName strings.1), inductionHypothesis strings.2 length']
      · -- the buffer is too small, however often it is reallocated
        refine iff_of_false ?_ fun legible => fits legible.1
        rintro ⟨copied, copy, -⟩
        rw [NameBuffer.copy, if_neg (Nat.not_lt.mpr (NameBuffer.length_grow_le _ ?_))] at copy
        · cases copy
        · simpa [length] using fits
    · exact inductionHypothesis strings.2 length

/-! ### Importing an environment -/

namespace Control

variable {strhash : Text → Nat} {World : Type}

section

variable (commands : Evaluator strhash World) (protect : Bool)

/-- An environment is imported: an entry without `=` is kept, one that is protected is skipped, and
of the others those are imported that can be, which leaves the kept ones alone. -/
inductive Imported : List Text → Control strhash World → Control strhash World → Prop where
  | done (control : Control strhash World) :
      Imported [] control { control with
        shell := { control.shell with envmin := control.shell.env.length, loading := false } }
  | kept {envstr : Text} {envp : List Text} {control after : Control strhash World}
      (noEntry : '='.toUInt8 ∉ envstr) (rest : Imported envp (control.keep envstr) after) :
      Imported (envstr :: envp) control after
  | hidden {envstr : Text} {envp : List Text} {control after : Control strhash World}
      (isEntry : '='.toUInt8 ∈ envstr)
      (isHidden : (protect && isProtected (decodedName (entryName envstr))) = true)
      (rest : Imported envp control after) : Imported (envstr :: envp) control after
  | imported {envstr : Text} {envp : List Text} {control next after : Control strhash World}
      (isEntry : '='.toUInt8 ∈ envstr)
      (notHidden : (protect && isProtected (decodedName (entryName envstr))) = false)
      (defined : importvar commands (decodedName (entryName envstr)) (entryValue envstr) control =
        .ret () next)
      (untouched : next.shell.env = control.shell.env) (rest : Imported envp next after) :
      Imported (envstr :: envp) control after
  | skipped {envstr : Text} {envp : List Text} {control next after : Control strhash World}
      {e : Exception} (isEntry : '='.toUInt8 ∈ envstr)
      (notHidden : (protect && isProtected (decodedName (entryName envstr))) = false)
      (rejected : importvar commands (decodedName (entryName envstr)) (entryValue envstr) control =
        .raise e next)
      (rest : Imported envp next after) : Imported (envstr :: envp) control after

/-- `initenv` decodes every name and returns, and it has imported the environment. -/
def ImportsAll (fresh : Nat → UInt8) (envp : List Text) (control : Control strhash World) : Prop :=
  Decodes fresh envp (.initial fresh) ∧
    ∃ after, initenv commands fresh protect envp (.initial fresh) control = some (.ret () after) ∧
      Imported commands protect envp control after

/-- A legal name, and a settor that accepts the value and leaves the kept entries alone. -/
def Accepted (name value : Text) (control : Control strhash World) : Prop :=
  validatevar name = .ok () ∧
    let imported := Desh.importvar value control.shell.split
    let defn := List.range' control.shell.heap.terms.length imported.1.length
    let shell := { control.shell with
      split := imported.2
      heap := { control.shell.heap with
        terms := control.shell.heap.terms ++ imported.1.map TermCell.str } }
    ∃ list after, callsettor commands name defn { control with shell } = .ret list after ∧
      after.shell.env = control.shell.env

/-- Each entry that is not protected can be imported when its turn comes. -/
def Acceptable : List Text → Control strhash World → Prop
  | [], _ => True
  | envstr :: envp, control =>
      if '='.toUInt8 ∈ envstr then
        if protect && isProtected (decodedName (entryName envstr)) then Acceptable envp control
        else
          Accepted commands (decodedName (entryName envstr)) (entryValue envstr) control ∧
            ∀ next, importvar commands (decodedName (entryName envstr)) (entryValue envstr)
              control = .ret () next → Acceptable envp next
      else Acceptable envp (control.keep envstr)

end

variable {commands : Evaluator strhash World} {protect : Bool}

theorem env_define (shell : Shell strhash) (name : Text) (defn : List TermRef) :
    (shell.define name defn).env = shell.env := by
  have marked : (shell.markDirty name).env = shell.env := by
    rw [Shell.markDirty]
    split_ifs <;> rfl
  dsimp only [Shell.define]
  split <;> exact marked

theorem importvar_ret_iff (name value : Text) (control : Control strhash World) :
    (∃ next, importvar commands name value control = .ret () next ∧
        next.shell.env = control.shell.env) ↔ Accepted commands name value control := by
  rw [importvar, Accepted, vardef, validated]
  cases valid : validatevar name with
  | error failure => cases failure <;> simp [fail, mkstr]
  | ok _ =>
    simp only [true_and]
    generalize callsettor commands name _ _ = called
    cases called <;> simp [env_define]

theorem initenv_entry {fresh : Nat → UInt8} {envstr : Text} {envp : List Text}
    {buffer copied : NameBuffer} (control : Control strhash World)
    (isEntry : '='.toUInt8 ∈ envstr)
    (copy : (buffer.grow fresh (entryName envstr).length (entryName envstr).length).copy
      (entryName envstr) = some copied)
    (decoded : nconv copied.memory = some (unfconv (entryName envstr))) :
    initenv commands fresh protect (envstr :: envp) buffer control =
      if protect && isProtected (decodedName (entryName envstr)) then
        initenv commands fresh protect envp copied control
      else
        match importvar commands (decodedName (entryName envstr)) (entryValue envstr) control with
        | .ret () control => initenv commands fresh protect envp copied control
        | .raise e control => some (.raise e control)
        | .abort => some .abort := by
  rw [initenv, if_pos isEntry]
  simp only [copy, decoded, Option.bind_eq_bind, Option.bind_some]
  rfl

theorem imported_kept_iff {envstr : Text} {envp : List Text} {control after : Control strhash World}
    (noEntry : '='.toUInt8 ∉ envstr) :
    Imported commands protect (envstr :: envp) control after ↔
      Imported commands protect envp (control.keep envstr) after := by
  refine ⟨fun imported => ?_, .kept noEntry⟩
  cases imported with
  | kept _ rest => exact rest
  | hidden isEntry => exact absurd isEntry noEntry
  | imported isEntry => exact absurd isEntry noEntry
  | skipped isEntry => exact absurd isEntry noEntry

theorem imported_hidden_iff {envstr : Text} {envp : List Text}
    {control after : Control strhash World} (isEntry : '='.toUInt8 ∈ envstr)
    (isHidden : (protect && isProtected (decodedName (entryName envstr))) = true) :
    Imported commands protect (envstr :: envp) control after ↔
      Imported commands protect envp control after := by
  refine ⟨fun imported => ?_, .hidden isEntry isHidden⟩
  cases imported with
  | kept noEntry => exact absurd isEntry noEntry
  | hidden _ _ rest => exact rest
  | imported _ notHidden => exact absurd (isHidden.symm.trans notHidden) (by decide)
  | skipped _ notHidden => exact absurd (isHidden.symm.trans notHidden) (by decide)

theorem imported_iff {envstr : Text} {envp : List Text} {control next after : Control strhash World}
    (isEntry : '='.toUInt8 ∈ envstr)
    (notHidden : (protect && isProtected (decodedName (entryName envstr))) = false)
    (defined : importvar commands (decodedName (entryName envstr)) (entryValue envstr) control =
      .ret () next) :
    Imported commands protect (envstr :: envp) control after ↔
      next.shell.env = control.shell.env ∧ Imported commands protect envp next after := by
  refine ⟨fun imported => ?_, fun both => .imported isEntry notHidden defined both.1 both.2⟩
  cases imported with
  | kept noEntry => exact absurd isEntry noEntry
  | hidden _ isHidden => exact absurd (isHidden.symm.trans notHidden) (by decide)
  | imported _ _ defined' untouched rest =>
    obtain ⟨-, rfl⟩ := Outcome.ret.inj (defined.symm.trans defined')
    exact ⟨untouched, rest⟩
  | skipped _ _ rejected =>
    rw [defined] at rejected
    cases rejected

/-- Where every name is decoded, the loop ends exactly if no entry is rejected. -/
theorem initenv_returns_iff {fresh : Nat → UInt8} {envp : List Text} {buffer : NameBuffer}
    {control : Control strhash World} (decodes : Decodes fresh envp buffer) :
    (∃ after, initenv commands fresh protect envp buffer control = some (.ret () after) ∧
        Imported commands protect envp control after) ↔
      Acceptable commands protect envp control := by
  induction envp generalizing buffer control with
  | nil => exact iff_of_true ⟨_, rfl, .done control⟩ trivial
  | cons envstr envp inductionHypothesis =>
    rw [Decodes] at decodes
    rw [Acceptable]
    by_cases isEntry : '='.toUInt8 ∈ envstr
    · rw [if_pos isEntry] at decodes ⊢
      obtain ⟨copied, copy, decoded, decodes⟩ := decodes
      rw [initenv_entry control isEntry copy decoded]
      cases hidden : protect && isProtected (decodedName (entryName envstr)) with
      | true =>
        simp only [if_true, imported_hidden_iff isEntry hidden]
        exact inductionHypothesis decodes
      | false =>
        simp only [Bool.false_eq_true, if_false]
        rw [← importvar_ret_iff]
        cases defined : importvar commands (decodedName (entryName envstr)) (entryValue envstr)
          control with
        | ret value next =>
          simp only [imported_iff isEntry hidden defined]
          have onward : (∃ after, initenv commands fresh protect envp copied next =
              some (.ret () after) ∧ Imported commands protect envp next after) ↔
              Acceptable commands protect envp next := inductionHypothesis decodes
          simp only [Outcome.ret.injEq, true_and, exists_eq_left', forall_eq', ← onward]
          exact ⟨fun ⟨after, run, untouched, rest⟩ => ⟨untouched, after, run, rest⟩,
            fun ⟨untouched, after, run, rest⟩ => ⟨after, run, untouched, rest⟩⟩
        | raise e next => simp
        | abort => simp
    · rw [if_neg isEntry] at decodes ⊢
      rw [initenv, if_neg isEntry]
      simp only [imported_kept_iff isEntry]
      exact inductionHypothesis decodes

/-- `initenv` imports an environment exactly if every name fits in its buffer and is legible there,
and no entry that is not protected has an illegal name or a value its settor rejects. -/
theorem initenv_importsAll_iff (commands : Evaluator strhash World) (fresh : Nat → UInt8)
    (protect : Bool) (envp : List Text) (strings : ∀ envstr ∈ envp, NulFree envstr)
    (control : Control strhash World) :
    ImportsAll commands protect fresh envp control ↔
      Legible envp (NameBuffer.initial fresh).memory ∧
        Acceptable commands protect envp control := by
  rw [ImportsAll, NameBuffer.initial, ← decodes_iff_legible fresh strings (length_erealloc ..)]
  exact and_congr_right fun decodes => initenv_returns_iff decodes

/-- No command does anything. -/
def calm : Evaluator List.length Unit := fun list shell world => .ret list shell world

/-- A shell that starts. -/
def starting : Control List.length Unit := (bottom Shell.initvars () [] 0).install

theorem initenv_importsAll_home :
    ImportsAll calm false (fun _ => 0) [lit "HOME=/", lit "odd"] starting := by
  refine (initenv_importsAll_iff calm (fun _ => 0) false [lit "HOME=/", lit "odd"] (by decide)
    starting).mpr ⟨?_, ?_⟩
  · have name : entryName (lit "HOME=/") = lit "HOME" := by decide
    simp only [Legible, name]
    refine ⟨by decide, rfl, trivial⟩
  · have legal : validatevar (decodedName (entryName (lit "HOME=/"))) = .ok () := rfl
    refine ⟨⟨legal, _, _, rfl, rfl⟩, fun next _ => trivial⟩

/-- An entry for a number: `fail` leaves the loop, and `HOME` is not imported. -/
theorem not_importsAll_number :
    (∀ envstr ∈ [lit "1=x", lit "HOME=/"], NulFree envstr) ∧
      ¬ImportsAll calm false (fun _ => 0) [lit "1=x", lit "HOME=/"] starting := by
  refine ⟨by decide, ?_⟩
  rintro ⟨-, after, run, -⟩
  have returns : (match initenv calm (fun _ => 0) false [lit "1=x", lit "HOME=/"]
      (.initial fun _ => 0) starting with
      | some (.ret _ _) => true
      | some (.raise _ _) => false
      | some .abort => false
      | none => false) = false := by decide +kernel
  rw [run] at returns
  cases returns

end Control

end Desh
