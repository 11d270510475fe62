/-
This file proves when the environment `mkenv` returns is up to date. Three marks
say that something has to be rendered again: `isdirty`, `rebound` and a missing
string of a variable; which variables an assignment to a lexical binding
concerns is told by a flag computed when the variable was defined.

The invariant says what the marks promise. Four kinds of steps break it, and the
condition below excludes these: an assignment to a binding which a variable
without the flag captures by now, the definition made by `varpush` or `varpop`
after the settor has rendered the environment, a rendering that forgets the
assignments for a variable it does not pass on, and one during `initenv`.
-/

import Desh.Shows

namespace Desh

variable {strhash : Text → Nat} {parsestring : Text → Option Tree}

/-! ### What is required of the environment -/

/-- An entry of the environment that shows a definition. -/
def EntryShows (parsestring : Text → Option Tree) (heap : Heap) (name : Text)
    (defn : List TermRef) (text : Text) : Prop :=
  ∃ words, List.Forall₂ (Shows parsestring heap) defn words ∧
    text = fconv name ++ lit "=" ++ wconv words

theorem EntryShows.mono {heap heap' : Heap} {name : Text} {defn : List TermRef} {text : Text}
    (shows : EntryShows parsestring heap name defn text)
    (kept : ∀ t ∈ defn, ∀ s, Shows parsestring heap t s → Shows parsestring heap' t s) :
    EntryShows parsestring heap' name defn text := by
  obtain ⟨words, each, equation⟩ := shows
  exact ⟨words, forall₂_weaken each kept, equation⟩

/-- A vector is the environment of the shell: it consists of the inherited strings and of one
entry for each exported variable, which shows what the variable is now. -/
def IsEnvironment (parsestring : Text → Option Tree) (shell : Shell strhash)
    (inherited vector : List Text) : Prop :=
  ∃ entries : List (Text × Text),
    (entries.map Prod.fst).Nodup ∧
    (∀ name, name ∈ entries.map Prod.fst ↔
      ∃ var, shell.vars.get name = some var ∧ shell.inEnv name var = true) ∧
    (∀ name text, (name, text) ∈ entries → ∃ var, shell.vars.get name = some var ∧
      EntryShows parsestring shell.heap name var.defn text) ∧
    vector.Perm (inherited ++ entries.map Prod.snd)

/-- The strings `initenv` has passed that have no `=`. -/
def inherited (ops : List Op) : List Text :=
  ops.filterMap fun op => match op with
    | .inherit envstr => some envstr
    | _ => none

/-! ### The condition on steps -/

/-- When a call of `mkenv` does no harm: `initenv` has returned, the variables an assignment may
concern are passed on, and what has to be printed has an end. -/
structure MkenvSafe (shell : Shell strhash) : Prop where
  loaded : shell.loading = false
  passed : shell.rebound = true → ∀ name var, shell.vars.get name = some var →
    var.hasbindings = true → var.env ≠ none → shell.inEnv name var = true
  printable : (shell.isdirty || shell.rebound) = true → ∀ name var,
    shell.vars.get name = some var → shell.inEnv name var = true →
    (var.env.isNone || (shell.rebound && var.hasbindings)) = true →
    ∀ t ∈ var.defn, Printable shell.heap t

/-- The condition on a step, in the state before it. -/
def Op.Safe (op : Op) (shell : Shell strhash) : Prop :=
  match op with
  | .vardef name binding _ =>
      ∀ b, shell.lookup name binding = some b → ∀ other var, shell.vars.get other = some var →
        var.env ≠ none → var.hasbindings = false → ∀ t ∈ var.defn, ¬ Captures shell.heap t b
  | .varpushEnd _ =>
      ∀ name calls, shell.calls = .varpush name :: calls → shell.isexported name = true →
        shell.isdirty = true
  | .varpopEnd _ =>
      ∀ push pushlist, shell.pushlist = push :: pushlist → shell.isexported push.name = true →
        shell.isdirty = true
  | .mkenv => MkenvSafe shell
  | _ => True

/-- The states reached from the first one by a list of steps that are each allowed where they are
taken. -/
inductive Reached (strhash : Text → Nat) (parsestring : Text → Option Tree)
    (allowed : Op → Shell strhash → Prop) : List Op → Shell strhash → Prop where
  | start : Reached strhash parsestring allowed [] .initvars
  | step {ops : List Op} {shell shell' : Shell strhash} {op : Op} {fuel : Nat}
      (run : Reached strhash parsestring allowed ops shell) (isAllowed : allowed op shell)
      (next : shell.step parsestring fuel op = some shell') :
      Reached strhash parsestring allowed (ops ++ [op]) shell'

/-! ### The invariant -/

namespace Shell

/-- The string an exported variable has for the environment. -/
def entry (shell : Shell strhash) (name : Text) : Option (Option Text) :=
  (shell.vars.get name).bind fun var =>
    if shell.inEnv name var then some var.env else none

/-- What the marks promise. -/
structure Fresh (parsestring : Text → Option Tree) (inherited : List Text)
    (shell : Shell strhash) : Prop where
  /-- A string is up to date, unless an assignment is noted that its variable's flag refers to. -/
  shown : ∀ name var text, shell.vars.get name = some var → var.env = some text →
    (shell.rebound = true ∧ var.hasbindings = true) ∨
      EntryShows parsestring shell.heap name var.defn text
  /-- Without a mark, the vector returned last has the strings of the exported variables. -/
  ready : shell.isdirty = false → shell.rebound = false →
    shell.loading = false ∧ ∃ entries : List (Text × Text), (entries.map Prod.fst).Nodup ∧
      (∀ name text, (name, text) ∈ entries ↔ shell.entry name = some (some text)) ∧
      (∀ name, shell.entry name ≠ some none) ∧
      shell.sortenv.Perm (inherited ++ entries.map Prod.snd)
  loading : shell.loading = true → shell.env = inherited
  loaded : shell.loading = false → shell.envmin ≤ shell.env.length ∧
    shell.env.take shell.envmin = inherited

variable {texts : List Text} {shell : Shell strhash}

theorem entry_eq_some (shell : Shell strhash) (name : Text) (env : Option Text) :
    shell.entry name = some env ↔
      ∃ var, shell.vars.get name = some var ∧ shell.inEnv name var = true ∧ var.env = env := by
  rw [entry, Option.bind_eq_some_iff]
  refine exists_congr fun var => and_congr_right fun _ => ?_
  split
  case isTrue isIn => simp [isIn]
  case isFalse isOut => simp [isOut]

/-- Without marks, what `mkenv` returned last is the environment. -/
theorem Fresh.isEnvironment (fresh : shell.Fresh parsestring texts)
    (clean : shell.isdirty = false) (settled : shell.rebound = false) :
    IsEnvironment parsestring shell texts shell.sortenv := by
  obtain ⟨-, entries, nodup, mem_entries, rendered, perm⟩ := fresh.ready clean settled
  refine ⟨entries, nodup, ?_, ?_, perm⟩
  · intro name
    constructor
    · intro member
      obtain ⟨⟨name, text⟩, isEntry, rfl⟩ := List.mem_map.mp member
      obtain ⟨var, found, isIn, -⟩ := (shell.entry_eq_some _ _).mp ((mem_entries _ _).mp isEntry)
      exact ⟨var, found, isIn⟩
    · rintro ⟨var, found, isIn⟩
      have isEntry := (shell.entry_eq_some name var.env).mpr ⟨var, found, isIn, rfl⟩
      cases env : var.env with
      | none => exact absurd (env ▸ isEntry) (rendered name)
      | some text =>
        exact List.mem_map.mpr ⟨(name, text), (mem_entries name text).mpr (env ▸ isEntry), rfl⟩
  · intro name text member
    obtain ⟨var, found, -, env⟩ := (shell.entry_eq_some _ _).mp ((mem_entries _ _).mp member)
    refine ⟨var, found, (fresh.shown name var text found env).resolve_left ?_⟩
    rw [settled]
    rintro ⟨contradiction, -⟩
    cases contradiction

/-! ### Steps that keep the invariant -/

/-- Changes of the heap that keep every text shown. -/
theorem Fresh.withHeap (fresh : shell.Fresh parsestring texts) {heap : Heap}
    (kept : ∀ t s, Shows parsestring shell.heap t s → Shows parsestring heap t s) :
    Fresh parsestring texts { shell with heap } where
  shown name var text found env :=
    (fresh.shown name var text found env).imp_right fun shows => shows.mono fun t _ => kept t
  ready := fresh.ready
  loading := fresh.loading
  loaded := fresh.loaded

theorem Fresh.withDirty (fresh : shell.Fresh parsestring texts)
    (noexport : Option (Dictionary strhash Unit)) :
    Fresh parsestring texts { shell with isdirty := true, noexport } where
  shown := fresh.shown
  ready dirty := nomatch dirty
  loading := fresh.loading
  loaded := fresh.loaded

theorem Fresh.markDirty (fresh : shell.Fresh parsestring texts) (name : Text) :
    (shell.markDirty name).Fresh parsestring texts := by
  unfold Shell.markDirty
  split
  · exact fresh.withDirty shell.noexport
  · exact fresh

theorem markDirty_isexported (shell : Shell strhash) (name other : Text) :
    (shell.markDirty name).isexported other = shell.isexported other := by
  unfold markDirty
  split <;> rfl

/-- After the mark is set, an exported variable may be defined. -/
theorem isdirty_markDirty (shell : Shell strhash) (name : Text)
    (exported : (shell.markDirty name).isexported name = true) :
    (shell.markDirty name).isdirty = true := by
  rw [markDirty_isexported] at exported
  rw [markDirty, if_pos exported]

/-- Defining or removing one variable, whose string is dropped. -/
theorem Fresh.put (fresh : shell.Fresh parsestring texts) (name : Text) (value : Option Var)
    (dropped : ∀ var, value = some var → var.env = none)
    (marked : shell.isexported name = true → shell.isdirty = true) :
    Fresh parsestring texts { shell with vars := shell.vars.put name value } where
  shown other var text found env := by
    rw [Dictionary.get_put] at found
    split at found
    · rw [dropped var found] at env
      cases env
    · exact fresh.shown other var text found env
  ready clean settled := by
    have notExported : shell.isexported name = false := by
      rw [Bool.eq_false_iff]
      intro exported
      rw [marked exported] at clean
      cases clean
    have same : ∀ other, entry { shell with vars := shell.vars.put name value } other =
        shell.entry other := by
      intro other
      rw [entry, entry, Dictionary.get_put]
      by_cases isName : other = name
      · subst isName
        have isOut : ∀ var, shell.inEnv other var = false := fun var => by
          simp [inEnv, notExported]
        have isOut' : ∀ var,
            inEnv { shell with vars := shell.vars.put other value } other var = false := isOut
        simp [isOut, isOut']
      · rw [if_neg isName]
        rfl
    obtain ⟨loaded, entries, nodup, mem_entries, rendered, perm⟩ := fresh.ready clean settled
    exact ⟨loaded, entries, nodup, fun other text => by rw [same, mem_entries],
      fun other => by rw [same]; exact rendered other, perm⟩
  loading := fresh.loading
  loaded := fresh.loaded

theorem Fresh.define (fresh : shell.Fresh parsestring texts) (name : Text)
    (defn : List TermRef) : (shell.define name defn).Fresh parsestring texts := by
  have marked := fresh.markDirty name
  have exported := shell.isdirty_markDirty name
  unfold Shell.define
  dsimp only
  split
  · exact marked.put name none nofun exported
  · exact marked.put name _ (by rintro var ⟨⟩; rfl) exported
  · exact marked
  · exact marked.put name _ (by rintro var ⟨⟩; rfl) exported

theorem Fresh.varpushEnd (fresh : shell.Fresh parsestring texts) (name : Text)
    (defn : List TermRef) (calls : List Call)
    (marked : shell.isexported name = true → shell.isdirty = true) :
    Fresh parsestring texts { shell.varpushEnd name defn with calls } := by
  unfold Shell.varpushEnd
  split
  · have kept := fresh.put name (some (shell.mkvar defn)) (by rintro var ⟨⟩; rfl) marked
    exact ⟨kept.shown, kept.ready, kept.loading, kept.loaded⟩
  case h_2 var found =>
    have kept := fresh.put name
      (some { var with
        defn
        env := none
        hasbindings := shell.heap.hasbindings defn
        isinternal := false }) (by rintro var ⟨⟩; rfl) marked
    exact ⟨kept.shown, kept.ready, kept.loading, kept.loaded⟩

theorem Fresh.varpopEnd (fresh : shell.Fresh parsestring texts) (push : Push)
    (defn : List TermRef) (calls : List Call)
    (marked : shell.isexported push.name = true → shell.isdirty = true) :
    Fresh parsestring texts { shell.varpopEnd push defn with calls } := by
  unfold Shell.varpopEnd
  have removed := fresh.put push.name none nofun marked
  have restored := fresh.put push.name
    (some { defn, env := none, hasbindings := push.hasbindings, isinternal := push.isinternal })
    (by rintro var ⟨⟩; rfl) marked
  split
  · exact ⟨removed.shown, removed.ready, removed.loading, removed.loaded⟩
  · exact ⟨fresh.shown, fresh.ready, fresh.loading, fresh.loaded⟩
  · exact ⟨restored.shown, restored.ready, restored.loading, restored.loaded⟩

/-- An assignment to a lexical binding, when every variable that captures it has the flag. -/
theorem Fresh.rebind (fresh : shell.Fresh parsestring texts) (b : BindingRef)
    (defn : List TermRef)
    (flagged : ∀ name var, shell.vars.get name = some var → var.env ≠ none →
      var.hasbindings = false → ∀ t ∈ var.defn, ¬ Captures shell.heap t b) :
    (shell.rebind b defn).Fresh parsestring texts where
  shown name var text found env := by
    cases flag : var.hasbindings with
    | true => exact .inl ⟨rfl, rfl⟩
    | false =>
      right
      have uncaptured := flagged name var found (by rw [env]; exact Option.some_ne_none _) flag
      have shows := (fresh.shown name var text found env).resolve_left fun noted =>
        Bool.false_ne_true (flag.symm.trans noted.2)
      refine shows.mono fun t member s shows => shows.of_kept (fun _ _ here => here) ?_
      intro b' captures cell there
      have other : b ≠ b' := fun same => uncaptured t member (same ▸ captures)
      simp [Shell.rebind, other, there]
  ready _ settled := nomatch settled
  loading := fresh.loading
  loaded := fresh.loaded

theorem Fresh.vardef (fresh : shell.Fresh parsestring texts) (name : Text)
    (binding : List BindingRef) (defn : List TermRef)
    (safe : (Op.vardef name binding defn).Safe shell) :
    (shell.vardef name binding defn).Fresh parsestring texts := by
  unfold Shell.vardef
  split
  · exact fresh
  · split
    case h_1 b found => exact fresh.rebind b defn (safe b found)
    case h_2 => exact fresh.define name defn

theorem Fresh.change (fresh : shell.Fresh parsestring texts) (f : Text → Var → Var)
    (defn : ∀ name var, (f name var).defn = var.defn)
    (flag : ∀ name var, (f name var).hasbindings = var.hasbindings)
    (env : ∀ name var text, (f name var).env = some text → var.env = some text)
    (same : shell.isdirty = false → shell.rebound = false →
      ∀ name var, shell.vars.get name = some var → f name var = var) :
    Fresh parsestring texts { shell with vars := shell.vars.change f } where
  shown name var text found isEnv := by
    rw [Dictionary.get_change] at found
    obtain ⟨old, isOld, rfl⟩ := Option.map_eq_some_iff.mp found
    rw [defn, flag]
    exact fresh.shown name old text isOld (env name old text isEnv)
  ready clean settled := by
    have unchanged : ∀ name, entry { shell with vars := shell.vars.change f } name =
        shell.entry name := by
      intro name
      rw [entry, entry, Dictionary.get_change]
      cases found : shell.vars.get name with
      | none => rfl
      | some var =>
        rw [Option.map_some, same clean settled name var found]
        rfl
    obtain ⟨loaded, entries, nodup, mem_entries, rendered, perm⟩ := fresh.ready clean settled
    exact ⟨loaded, entries, nodup, fun name text => by rw [unchanged, mem_entries],
      fun name => by rw [unchanged]; exact rendered name, perm⟩
  loading := fresh.loading
  loaded := fresh.loaded

/-! ### Rendering -/

/-- The variable after `mkenv0` has seen it. -/
def seen (fuel : Nat) (shell : Shell strhash) (name : Text) (var : Var) : Var :=
  if shell.inEnv name var then { var with env := shell.entryText fuel name var } else var

/-- The loop of `mkenv` over variables that each occur once. -/
theorem foldlM_mkenv0 {fuel : Nat} {list : List (Text × Var)} {shell shell' : Shell strhash}
    (nodup : (list.map Prod.fst).Nodup) (run : list.foldlM (mkenv0 fuel) shell = some shell') :
    ∃ strings, shell' = { shell with vars := shell'.vars, env := shell.env ++ strings } ∧
      List.Forall₂ (fun entry text => shell.entryText fuel entry.1 entry.2 = some text)
        (list.filter fun entry => shell.inEnv entry.1 entry.2) strings ∧
      (∀ name, name ∉ list.map Prod.fst → shell'.vars.get name = shell.vars.get name) ∧
      ∀ name var, (name, var) ∈ list → shell.vars.get name = some var →
        shell'.vars.get name = some (shell.seen fuel name var) := by
  induction list generalizing shell with
  | nil =>
    obtain rfl : shell = shell' := Option.some.inj run
    exact ⟨[], by simp, .nil, fun _ _ => rfl, nofun⟩
  | cons entry list inductionHypothesis =>
    obtain ⟨key, value⟩ := entry
    rw [List.map_cons, List.nodup_cons] at nodup
    rw [List.foldlM_cons] at run
    obtain ⟨middle, first, rest⟩ := Option.bind_eq_some_iff.mp run
    obtain ⟨strings, frame, texts, others, members⟩ := inductionHypothesis nodup.2 rest
    have apart : ∀ name var, (name, var) ∈ list → name ≠ key := by
      rintro name var member rfl
      exact nodup.1 (List.mem_map.mpr ⟨_, member, rfl⟩)
    by_cases isIn : shell.inEnv key value = true
    · rw [mkenv0, if_pos isIn] at first
      obtain ⟨text, rendered, equation⟩ := Option.bind_eq_some_iff.mp first
      obtain rfl := Option.some.inj equation
      refine ⟨text :: strings, ?_, ?_, ?_, ?_⟩
      · rw [frame]
        simp
      · simp only [List.filter_cons, isIn, if_true]
        exact .cons rendered texts
      · intro name absent
        rw [List.map_cons, List.mem_cons, not_or] at absent
        rw [others name absent.2, Dictionary.get_put, if_neg absent.1]
      · intro name var member found
        rcases List.mem_cons.mp member with same | member
        · cases same
          rw [others key nodup.1, Dictionary.get_put, if_pos rfl, seen, if_pos isIn, rendered]
        · refine members name var member ?_
          rw [Dictionary.get_put, if_neg (apart name var member), found]
    · rw [mkenv0, if_neg isIn] at first
      obtain rfl := Option.some.inj first
      refine ⟨strings, frame, ?_, ?_, ?_⟩
      · simp only [List.filter_cons, if_neg isIn]
        exact texts
      · intro name absent
        rw [List.map_cons, List.mem_cons, not_or] at absent
        exact others name absent.2
      · intro name var member found
        rcases List.mem_cons.mp member with same | member
        · cases same
          rw [others key nodup.1, found, seen, if_neg isIn]
        · exact members name var member found

theorem isSome_foldlM_mkenv0 {fuel : Nat} {list : List (Text × Var)} {shell : Shell strhash}
    (each : ∀ entry ∈ list, shell.inEnv entry.1 entry.2 = true →
      (shell.entryText fuel entry.1 entry.2).isSome) :
    (list.foldlM (mkenv0 fuel) shell).isSome := by
  induction list generalizing shell with
  | nil => rfl
  | cons entry list inductionHypothesis =>
    rw [List.foldlM_cons]
    by_cases isIn : shell.inEnv entry.1 entry.2 = true
    · obtain ⟨text, rendered⟩ := Option.isSome_iff_exists.mp (each entry List.mem_cons_self isIn)
      simp only [mkenv0, if_pos isIn, rendered, Option.bind_eq_bind, Option.bind_some]
      exact inductionHypothesis fun other member => each other (List.mem_cons_of_mem _ member)
    · simp only [mkenv0, if_neg isIn, Option.bind_eq_bind, Option.bind_some]
      exact inductionHypothesis fun other member => each other (List.mem_cons_of_mem _ member)

/-- Printing a definition shows it. -/
theorem entryShows_envstr {fuel : Nat} {heap : Heap} {name : Text} {defn : List TermRef}
    {text : Text} (printed : heap.envstr fuel name defn = some text) :
    EntryShows parsestring heap name defn text := by
  obtain ⟨words, run, equation⟩ := Option.bind_eq_some_iff.mp printed
  exact ⟨words, (forall₂_of_mapM run).imp fun _ _ => shows_getstr,
    (Option.some.inj equation).symm⟩

/-- What `mkenv0` passes on shows the variable. -/
theorem Fresh.entryText (fresh : shell.Fresh parsestring texts) {fuel : Nat} {name : Text}
    {var : Var} {text : Text} (found : shell.vars.get name = some var)
    (rendered : shell.entryText fuel name var = some text) :
    EntryShows parsestring shell.heap name var.defn text := by
  unfold Shell.entryText at rendered
  split at rendered
  case isTrue => exact entryShows_envstr rendered
  case isFalse kept =>
    refine (fresh.shown name var text found rendered).resolve_left ?_
    rintro ⟨rebound, flag⟩
    simp [rebound, flag] at kept

theorem inEnv_seen (fuel : Nat) (shell : Shell strhash) (name : Text) (var : Var) :
    shell.inEnv name (shell.seen fuel name var) = shell.inEnv name var := by
  unfold seen
  split <;> rfl

theorem defn_seen (fuel : Nat) (shell : Shell strhash) (name : Text) (var : Var) :
    (shell.seen fuel name var).defn = var.defn := by
  unfold seen
  split <;> rfl

/-- What `mkenv` does when something is marked. -/
theorem mkenv_spec {fuel : Nat} {shell shell' : Shell strhash} {vector : List Text}
    (marked : (shell.isdirty || shell.rebound) = true)
    (run : shell.mkenv fuel = some (vector, shell')) :
    ∃ strings, shell' = { shell with
        vars := shell'.vars
        env := shell.env.take shell.envmin ++ strings
        isdirty := false
        rebound := false
        sortenv := vector } ∧
      vector = sortvector (shell.env.take shell.envmin ++ strings) ∧
      List.Forall₂ (fun entry text => shell.entryText fuel entry.1 entry.2 = some text)
        (shell.vars.entries.filter fun entry => shell.inEnv entry.1 entry.2) strings ∧
      ∀ name, shell'.vars.get name = (shell.vars.get name).map (shell.seen fuel name) := by
  rw [mkenv, if_pos marked] at run
  obtain ⟨middle, loop, equation⟩ := Option.bind_eq_some_iff.mp run
  obtain ⟨strings, frame, texts, others, members⟩ :=
    foldlM_mkenv0 shell.vars.nodup_entries loop
  cases equation
  refine ⟨strings, ?_, ?_, texts, ?_⟩
  · rw [frame]
  · rw [frame]
  · intro name
    cases found : shell.vars.get name with
    | none =>
      refine (others name ?_).trans found
      intro member
      obtain ⟨⟨other, var⟩, isEntry, rfl⟩ := List.mem_map.mp member
      rw [(shell.vars.mem_entries other var).mp isEntry] at found
      cases found
    | some var =>
      exact members name var ((shell.vars.mem_entries name var).mpr found) found

/-- The strings of the exported variables, each with its name. -/
theorem exists_entries {fuel : Nat} {shell : Shell strhash} {strings : List Text}
    (texts : List.Forall₂ (fun entry text => shell.entryText fuel entry.1 entry.2 = some text)
      (shell.vars.entries.filter fun entry => shell.inEnv entry.1 entry.2) strings) :
    ∃ entries : List (Text × Text), (entries.map Prod.fst).Nodup ∧ entries.map Prod.snd = strings ∧
      ∀ name text, (name, text) ∈ entries ↔ ∃ var, shell.vars.get name = some var ∧
        shell.inEnv name var = true ∧ shell.entryText fuel name var = some text := by
  have length := texts.length_eq
  set exported := shell.vars.entries.filter fun entry => shell.inEnv entry.1 entry.2
  have mem_exported : ∀ name var, (name, var) ∈ exported ↔
      shell.vars.get name = some var ∧ shell.inEnv name var = true := by
    intro name var
    rw [List.mem_filter, Dictionary.mem_entries]
  have firsts : (exported.zip strings).map Prod.fst = exported :=
    List.map_fst_zip (le_of_eq length)
  refine ⟨(exported.zip strings).map fun pair => (pair.1.1, pair.2), ?_, ?_, ?_⟩
  · have names : ((exported.zip strings).map fun pair => (pair.1.1, pair.2)).map Prod.fst =
        ((exported.zip strings).map Prod.fst).map Prod.fst := by
      simp [List.map_map, Function.comp_def]
    rw [names, firsts]
    exact (List.filter_sublist.map Prod.fst).nodup shell.vars.nodup_entries
  · have seconds : ((exported.zip strings).map fun pair => (pair.1.1, pair.2)).map Prod.snd =
        (exported.zip strings).map Prod.snd := by
      simp [List.map_map, Function.comp_def]
    rw [seconds, List.map_snd_zip (le_of_eq length.symm)]
  · intro name text
    have each : ∀ entry text, (entry, text) ∈ exported.zip strings →
        shell.entryText fuel entry.1 entry.2 = some text := fun _ _ pair =>
      (List.forall₂_iff_zip.mp texts).2 pair
    constructor
    · intro member
      obtain ⟨⟨⟨other, var⟩, text⟩, pair, same⟩ := List.mem_map.mp member
      cases same
      obtain ⟨found, isIn⟩ := (mem_exported _ _).mp (List.of_mem_zip pair).1
      exact ⟨var, found, isIn, each _ _ pair⟩
    · rintro ⟨var, found, isIn, rendered⟩
      have member : (name, var) ∈ (exported.zip strings).map Prod.fst := by
        rw [firsts, mem_exported]
        exact ⟨found, isIn⟩
      obtain ⟨⟨entry, text'⟩, pair, rfl⟩ := List.mem_map.mp member
      obtain rfl : text' = text := Option.some.inj ((each _ _ pair).symm.trans rendered)
      exact List.mem_map.mpr ⟨_, pair, rfl⟩

/-- `mkenv` keeps the invariant, and returns with all marks cleared. -/
theorem Fresh.mkenv (fresh : shell.Fresh parsestring texts) (safe : MkenvSafe shell) {fuel : Nat}
    {vector : List Text} {shell' : Shell strhash}
    (run : shell.mkenv fuel = some (vector, shell')) :
    shell'.Fresh parsestring texts ∧ shell'.isdirty = false ∧ shell'.rebound = false ∧
      vector = shell'.sortenv := by
  by_cases marked : (shell.isdirty || shell.rebound) = true
  case neg =>
    rw [Shell.mkenv, if_neg marked] at run
    rw [Bool.or_eq_true, not_or, Bool.not_eq_true, Bool.not_eq_true] at marked
    cases run
    exact ⟨fresh, marked.1, marked.2, rfl⟩
  obtain ⟨strings, frame, isVector, rendered, vars⟩ := mkenv_spec marked run
  obtain ⟨inside, isInherited⟩ := fresh.loaded safe.loaded
  rw [frame]
  refine ⟨⟨?_, ?_, ?_, ?_⟩, rfl, rfl, rfl⟩
  · intro name var text found env
    right
    rw [vars] at found
    obtain ⟨old, isOld, rfl⟩ := Option.map_eq_some_iff.mp found
    rw [defn_seen]
    by_cases isIn : shell.inEnv name old = true
    · rw [seen, if_pos isIn] at env
      exact fresh.entryText isOld env
    · rw [seen, if_neg isIn] at env
      refine (fresh.shown name old text isOld env).resolve_left ?_
      rintro ⟨rebound, flag⟩
      exact isIn (safe.passed rebound name old isOld flag (by rw [env]; nofun))
  · rintro - -
    obtain ⟨entries, nodup, strings_eq, mem_entries⟩ := exists_entries rendered
    have isEntry : ∀ name env, entry { shell with
        vars := shell'.vars
        env := shell.env.take shell.envmin ++ strings
        isdirty := false
        rebound := false
        sortenv := vector } name = some env ↔ ∃ var, shell.vars.get name = some var ∧
          shell.inEnv name var = true ∧ shell.entryText fuel name var = env := by
      intro name env
      rw [entry_eq_some]
      constructor
      · rintro ⟨var, found, isIn, rfl⟩
        rw [vars] at found
        obtain ⟨old, isOld, rfl⟩ := Option.map_eq_some_iff.mp found
        have wasIn : shell.inEnv name old = true := (inEnv_seen fuel shell name old).symm.trans isIn
        exact ⟨old, isOld, wasIn, by rw [seen, if_pos wasIn]⟩
      · rintro ⟨old, isOld, isIn, rfl⟩
        refine ⟨shell.seen fuel name old, ?_, (inEnv_seen fuel shell name old).trans isIn, ?_⟩
        · rw [vars, isOld, Option.map_some]
        · rw [seen, if_pos isIn]
    refine ⟨safe.loaded, entries, nodup, fun name text => ?_, fun name none => ?_, ?_⟩
    · rw [mem_entries, isEntry]
    · obtain ⟨var, found, isIn, unrendered⟩ := (isEntry name _).mp none
      obtain ⟨text, member⟩ : ∃ text, shell.entryText fuel name var = some text := by
        have isExported : (name, var) ∈
            shell.vars.entries.filter fun entry => shell.inEnv entry.1 entry.2 :=
          List.mem_filter.mpr ⟨(shell.vars.mem_entries name var).mpr found, isIn⟩
        obtain ⟨i, bound, position⟩ := List.getElem_of_mem isExported
        have here := (List.forall₂_iff_get.mp rendered).2 i bound
          (rendered.length_eq ▸ bound)
        rw [List.get_eq_getElem, position] at here
        exact ⟨_, here⟩
      rw [unrendered] at member
      cases member
    · rw [strings_eq, isVector, isInherited]
      exact List.perm_insertionSort _ _
  · intro loading
    rw [safe.loaded] at loading
    cases loading
  · intro _
    have taken : (shell.env.take shell.envmin).length = shell.envmin :=
      List.length_take_of_le inside
    show shell.envmin ≤ (shell.env.take shell.envmin ++ strings).length ∧
      (shell.env.take shell.envmin ++ strings).take shell.envmin = texts
    refine ⟨?_, ?_⟩
    · rw [List.length_append, taken]
      exact Nat.le_add_right _ _
    · rw [List.take_append_of_le_length (le_of_eq taken.symm), List.take_take, Nat.min_self,
        isInherited]

/-- `mkenv` returns once it has enough fuel. -/
theorem eventually_mkenv (safe : MkenvSafe shell) :
    ∀ᶠ fuel in Filter.atTop, (shell.mkenv fuel).isSome := by
  by_cases marked : (shell.isdirty || shell.rebound) = true
  case neg =>
    refine Filter.Eventually.of_forall fun fuel => ?_
    rw [Shell.mkenv, if_neg marked]
    rfl
  have printed : ∀ᶠ fuel in Filter.atTop, ∀ entry ∈ shell.vars.entries,
      shell.inEnv entry.1 entry.2 = true → (shell.entryText fuel entry.1 entry.2).isSome := by
    refine (Filter.eventually_all_finite (List.finite_toSet _)).mpr ?_
    rintro ⟨name, var⟩ member
    have found := (shell.vars.mem_entries name var).mp member
    by_cases stale : (var.env.isNone || (shell.rebound && var.hasbindings)) = true
    · by_cases isIn : shell.inEnv name var = true
      · have ends := (Filter.eventually_all_finite (List.finite_toSet var.defn)).mpr
          fun t value =>
            (safe.printable marked name var found isIn stale t value).eventually_getstr
        filter_upwards [ends] with fuel ends _
        obtain ⟨words, run⟩ := exists_mapM ends
        simp [Shell.entryText, stale, Heap.envstr, run]
      · exact Filter.Eventually.of_forall fun fuel isIn' => absurd isIn' isIn
    · refine Filter.Eventually.of_forall fun fuel _ => ?_
      rw [Shell.entryText, if_neg stale]
      rw [Bool.or_eq_true, not_or] at stale
      simpa [Option.isSome_iff_ne_none] using stale.1
  filter_upwards [printed] with fuel printed
  rw [Shell.mkenv, if_pos marked]
  obtain ⟨middle, loop⟩ := Option.isSome_iff_exists.mp
    (@isSome_foldlM_mkenv0 _ fuel shell.vars.entries
      { shell with env := shell.env.take shell.envmin } printed)
  simp only [loop, Option.bind_eq_bind, Option.bind_some, Option.isSome_some]

/-! ### Runs -/

theorem fresh_initvars : Fresh parsestring [] (initvars : Shell strhash) where
  shown name var text found := by
    rw [initvars, Dictionary.get_mkdict] at found
    cases found
  ready dirty := nomatch dirty
  loading _ := rfl
  loaded loaded := nomatch loaded

theorem inherited_append (ops ops' : List Op) :
    Desh.inherited (ops ++ ops') = Desh.inherited ops ++ Desh.inherited ops' :=
  List.filterMap_append

theorem Fresh.importvar (fresh : shell.Fresh parsestring texts) (name value : Text) :
    (shell.importvar name value).Fresh parsestring texts := by
  have extended := fresh.withHeap fun t s shows => shows.of_extends
    (extends_append shell.heap ((Desh.importvar value shell.split).1.map TermCell.str) [])
  rw [List.append_nil] at extended
  have loaded : Fresh parsestring texts { shell with
      split := (Desh.importvar value shell.split).2
      heap := { shell.heap with
        terms := shell.heap.terms ++ (Desh.importvar value shell.split).1.map TermCell.str } } :=
    ⟨extended.shown, extended.ready, extended.loading, extended.loaded⟩
  exact loaded.vardef name [] _ fun b found => nomatch found

/-- One step that meets the condition keeps the invariant. -/
theorem Fresh.step (fresh : shell.Fresh parsestring texts) {op : Op} (safe : op.Safe shell)
    {fuel : Nat} {shell' : Shell strhash} (next : shell.step parsestring fuel op = some shell') :
    shell'.Fresh parsestring (texts ++ Desh.inherited [op]) := by
  by_cases inherits : ∃ envstr, op = .inherit envstr
  · obtain ⟨envstr, rfl⟩ := inherits
    rw [Shell.step] at next
    split at next
    case isFalse => cases next
    case isTrue loading =>
      obtain rfl := Option.some.inj next
      refine ⟨fresh.shown, fun clean settled => ?_, fun _ => ?_, fun loaded => ?_⟩
      · have loaded := (fresh.ready clean settled).1
        rw [loading] at loaded
        cases loaded
      · rw [fresh.loading loading]
        rfl
      · exact nomatch loading.symm.trans loaded
  have none : Desh.inherited [op] = [] := by
    cases op
    case inherit envstr => exact absurd ⟨envstr, rfl⟩ inherits
    all_goals rfl
  rw [none, List.append_nil]
  cases op with
  | inherit envstr => exact absurd ⟨envstr, rfl⟩ inherits
  | mkstr s =>
    obtain rfl := Option.some.inj next
    have extended := extends_append shell.heap [.str s] []
    rw [List.append_nil] at extended
    exact fresh.withHeap fun t s shows => shows.of_extends extended
  | mkterm tree binding =>
    obtain rfl := Option.some.inj next
    have extended := extends_append shell.heap [.closure tree binding] []
    rw [List.append_nil] at extended
    exact fresh.withHeap fun t s shows => shows.of_extends extended
  | mkbinding name defn =>
    rw [Shell.step] at next
    split at next
    · obtain rfl := Option.some.inj next
      exact fresh
    · obtain rfl := Option.some.inj next
      have extended := extends_append shell.heap [] [⟨name, defn⟩]
      rw [List.append_nil] at extended
      exact fresh.withHeap fun t s shows => shows.of_extends extended
  | getclosure t =>
    obtain rfl := Option.some.inj next
    exact fresh.withHeap fun t' s shows => shows.getclosure t
  | vardef name binding defn =>
    obtain rfl := Option.some.inj next
    exact fresh.vardef name binding defn safe
  | varpushBegin name =>
    obtain rfl := Option.some.inj next
    unfold Shell.varpushBegin
    split
    · exact fresh
    · have marked := fresh.markDirty name
      exact ⟨marked.shown, marked.ready, marked.loading, marked.loaded⟩
  | varpushEnd defn =>
    rw [Shell.step] at next
    split at next
    case h_1 name calls isCall =>
      obtain rfl := Option.some.inj next
      exact fresh.varpushEnd name defn calls (safe name calls isCall)
    case h_2 => cases next
  | varpopBegin =>
    rw [Shell.step] at next
    split at next
    case h_1 push pushlist isTop =>
      obtain rfl := Option.some.inj next
      have marked := fresh.markDirty push.name
      exact ⟨marked.shown, marked.ready, marked.loading, marked.loaded⟩
    case h_2 => cases next
  | varpopEnd defn =>
    rw [Shell.step] at next
    split at next
    case h_1 calls push pushlist isCall isTop =>
      obtain rfl := Option.some.inj next
      exact fresh.varpopEnd push defn calls (safe push pushlist isTop)
    case h_2 => cases next
  | setnoexport list =>
    obtain ⟨names, -, equation⟩ := Option.bind_eq_some_iff.mp next
    obtain rfl := Option.some.inj equation
    exact fresh.withDirty _
  | hidevariables =>
    rw [Shell.step] at next
    split at next
    case isFalse => cases next
    case isTrue loading =>
      obtain rfl := Option.some.inj next
      refine fresh.change _ (fun _ _ => rfl) (fun _ _ => rfl) (fun _ _ _ isEnv => isEnv) ?_
      intro clean settled
      exact nomatch loading.symm.trans (fresh.ready clean settled).1
  | importvar name value =>
    rw [Shell.step] at next
    split at next
    case isFalse => cases next
    case isTrue =>
      obtain rfl := Option.some.inj next
      exact fresh.importvar name value
  | endInitenv =>
    rw [Shell.step] at next
    split at next
    case isFalse => cases next
    case isTrue loading =>
      obtain rfl := Option.some.inj next
      refine ⟨fresh.shown, fun clean settled => ?_, nofun, fun _ => ⟨le_rfl, ?_⟩⟩
      · exact nomatch loading.symm.trans (fresh.ready clean settled).1
      · rw [List.take_length, fresh.loading loading]
  | varScan =>
    obtain rfl := Option.some.inj next
    refine fresh.change _ (fun _ _ => rfl) (fun _ _ => rfl) ?_ ?_
    · intro _ var text isEnv
      dsimp only at isEnv
      split at isEnv
      · cases isEnv
      · exact isEnv
    · intro _ settled _ var _
      simp [settled]
  | mkenv =>
    obtain ⟨⟨vector, shell''⟩, run, rfl⟩ := Option.map_eq_some_iff.mp next
    exact (fresh.mkenv safe run).1

/-- Runs whose steps meet the condition keep the invariant. -/
theorem fresh_of_reached {ops : List Op} {shell : Shell strhash}
    (run : Reached strhash parsestring Op.Safe ops shell) :
    shell.Fresh parsestring (Desh.inherited ops) := by
  induction run with
  | start => exact fresh_initvars
  | step run safe next inductionHypothesis =>
    rw [inherited_append]
    exact inductionHypothesis.step safe next

end Shell

/-- In every run whose steps meet the condition, `mkenv` returns, and what it returns is the
environment of the shell. -/
theorem mkenv_isEnvironment {ops : List Op} {shell : Shell strhash}
    (run : Reached strhash parsestring Op.Safe ops shell) (safe : Op.mkenv.Safe shell) :
    (∀ᶠ fuel in Filter.atTop, (shell.mkenv fuel).isSome) ∧
      ∀ fuel vector shell', shell.mkenv fuel = some (vector, shell') →
        IsEnvironment parsestring shell' (inherited ops) vector := by
  refine ⟨Shell.eventually_mkenv safe, fun fuel vector shell' result => ?_⟩
  obtain ⟨fresh, clean, settled, rfl⟩ := (Shell.fresh_of_reached run).mkenv safe result
  exact fresh.isEnvironment clean settled

theorem Reached.foldlM {allowed : Op → Shell strhash → Prop} {fuel : Nat} {before ops : List Op}
    {start shell : Shell strhash} (reached : Reached strhash parsestring allowed before start)
    (all : ∀ op ∈ ops, ∀ shell, allowed op shell)
    (run : ops.foldlM (fun shell op => shell.step parsestring fuel op) start = some shell) :
    Reached strhash parsestring allowed (before ++ ops) shell := by
  induction ops using List.reverseRecOn generalizing shell with
  | nil =>
    obtain rfl := Option.some.inj run
    rwa [List.append_nil]
  | append_singleton ops op inductionHypothesis =>
    rw [List.foldlM_append] at run
    obtain ⟨middle, first, last⟩ := Option.bind_eq_some_iff.mp run
    obtain ⟨shell'', next, same⟩ := Option.bind_eq_some_iff.mp last
    obtain rfl : shell'' = shell := Option.some.inj same
    rw [← List.append_assoc]
    exact .step
      (inductionHypothesis (fun op member => all op (List.mem_append_left _ member)) first)
      (all op (List.mem_append_right _ List.mem_cons_self) middle) next

/-- A shell whose only variable is exported. -/
theorem mkenvSafe_of_entries {shell : Shell strhash} {name : Text} {var : Var}
    (loaded : shell.loading = false) (only : shell.vars.entries = [(name, var)])
    (isIn : shell.inEnv name var = true)
    (printable : ∀ t ∈ var.defn, Printable shell.heap t) : MkenvSafe shell := by
  have single : ∀ other var', shell.vars.get other = some var' → other = name ∧ var' = var := by
    intro other var' found
    have member := (shell.vars.mem_entries other var').mpr found
    rw [only, List.mem_singleton, Prod.mk.injEq] at member
    exact member
  refine ⟨loaded, fun _ other var' found _ _ => ?_, fun _ other var' found _ _ => ?_⟩
  · obtain ⟨rfl, rfl⟩ := single other var' found
    exact isIn
  · obtain ⟨rfl, rfl⟩ := single other var' found
    exact printable

/-- A variable `x` that captures a binding is defined. -/
def capturingOps : List Op :=
  [.mkstr (lit "1"), .mkbinding (lit "a") [0], .mkterm (.nThunk .null) [0], .mkstr (lit "2"),
    .endInitenv, .vardef (lit "x") [] [1]]

/-- The environment is made, the binding assigned to, and the environment made again. -/
theorem mkenv_isEnvironment_capturing :
    ∃ shell : Shell fun _ => 0,
      Reached (fun _ => 0) (fun _ => none) Op.Safe
        (capturingOps ++ [.mkenv] ++ [.vardef (lit "a") [0] [2]]) shell ∧
      (∀ᶠ fuel in Filter.atTop, (shell.mkenv fuel).isSome) ∧
        ∀ fuel vector shell', shell.mkenv fuel = some (vector, shell') →
          IsEnvironment (fun _ => none) shell'
            (inherited (capturingOps ++ [.mkenv] ++ [.vardef (lit "a") [0] [2]])) vector := by
  let var (text : Option Text) : Var := ⟨[1], text, true, false⟩
  let terms : List TermCell := [.str (lit "1"), .closure (.nThunk .null) [0], .str (lit "2")]
  let text := lit "x=%closure(a=1){}"
  have printable : ∀ value ∈ [0, 2], ∀ t ∈ [1], Printable ⟨terms, [⟨lit "a", [value]⟩]⟩ t := by
    intro value isValue t member
    obtain rfl := List.mem_singleton.mp member
    refine .closure rfl (by decide) ?_ ?_
    · intro b inChain
      obtain rfl := List.mem_singleton.mp inChain
      rfl
    intro b inChain cell there t isTerm
    obtain rfl := List.mem_singleton.mp inChain
    cases there
    obtain rfl := List.mem_singleton.mp isTerm
    fin_cases isValue
    · exact .str rfl
    · exact .str rfl
  have evaluated : ((capturingOps.foldlM (fun shell op => shell.step (fun _ => none) 2 op)
      Shell.initvars : Option (Shell fun _ => 0)).bind fun first =>
        (first.step (fun _ => none) 2 .mkenv).bind fun second =>
          (second.step (fun _ => none) 2 (.vardef (lit "a") [0] [2])).map fun third =>
            decide ((first.loading = false ∧ first.vars.entries = [(lit "x", var none)] ∧
              first.inEnv (lit "x") (var none) = true ∧
              first.heap = ⟨terms, [⟨lit "a", [0]⟩]⟩) ∧
              second.vars.entries = [(lit "x", var text)] ∧
              third.loading = false ∧ third.vars.entries = [(lit "x", var text)] ∧
              third.inEnv (lit "x") (var text) = true ∧
              third.heap = ⟨terms, [⟨lit "a", [2]⟩]⟩)) = some true := by
    decide +kernel
  obtain ⟨first, run, evaluated⟩ := Option.bind_eq_some_iff.mp evaluated
  obtain ⟨second, rendered, evaluated⟩ := Option.bind_eq_some_iff.mp evaluated
  obtain ⟨third, assigned, facts⟩ := Option.map_eq_some_iff.mp evaluated
  obtain ⟨⟨loaded, entries, isIn, heap⟩, entries', loaded', entries'', isIn', heap'⟩ :=
    of_decide_eq_true facts
  have defined : Reached (fun _ => 0) (fun _ => none) Op.Safe capturingOps first := by
    refine Reached.start.foldlM ?_ run
    intro op member shell
    fin_cases member
    all_goals first | trivial | exact fun b found => nomatch found
  have safe : Op.mkenv.Safe first :=
    mkenvSafe_of_entries loaded entries isIn (heap ▸ printable 0 (by decide))
  have safe' : (Op.vardef (lit "a") [0] [2]).Safe second := by
    intro b _ other var' found _ unflagged
    have member := (second.vars.mem_entries other var').mpr found
    rw [entries', List.mem_singleton, Prod.mk.injEq] at member
    rw [member.2] at unflagged
    cases unflagged
  have safe'' : Op.mkenv.Safe third :=
    mkenvSafe_of_entries loaded' entries'' isIn' (heap' ▸ printable 2 (by decide))
  have reached := (defined.step safe rendered).step safe' assigned
  exact ⟨third, reached, mkenv_isEnvironment reached safe''⟩

/-! ### A binding captured behind the back of a variable -/

section

open Desh.Tree

/-- A value whose closure assigns to the binding it captures. -/
def selfAssigning : Text := lit "%closure(a=1){a=2}"

/-- The body of that closure. -/
def selfAssigningBody : Tree := nThunk (nAssign (nWord (lit "a")) (nList (nWord (lit "2")) null))

/-- The parser, as far as that value goes. -/
def parseSelfAssigning (s : Text) : Option Tree :=
  if s = selfAssigning then
    some (nClosure (nList (nAssign (nWord (lit "a")) (nList (nWord (lit "1")) null)) null)
      (nList selfAssigningBody null))
  else none

/-- A variable `x` of that value is imported and the environment made. Then `x` is called: its
string becomes a closure, which assigns to the binding. -/
def selfAssigningOps : List Op :=
  [.importvar (lit "x") (lit "=" ++ selfAssigning), .endInitenv, .mkenv, .getclosure 0,
    .mkstr (lit "2"), .vardef (lit "a") [0] [2]]

/-- The heap after that. -/
def selfAssigningHeap : Heap where
  terms := [.closure selfAssigningBody [0], .str (lit "1"), .str (lit "2")]
  bindings := [⟨lit "a", [2]⟩]

theorem shows_selfAssigning {s : Text} (shows : Shows parseSelfAssigning selfAssigningHeap 0 s) :
    s = lit "%closure(a=2){a=2}" := by
  have value : ∀ s, Shows parseSelfAssigning selfAssigningHeap 2 s → s = lit "2" := by
    intro s shows
    cases shows with
    | str here =>
      cases here
      rfl
    | printed shown here => cases here
    | read shown here => cases here
  cases shows with
  | str here => cases here
  | printed shown here sound cells text =>
    cases here
    obtain ⟨⟨name, strings⟩, rest, ⟨cell, there, isName, defn⟩, none, rfl⟩ :=
      List.forall₂_cons_left_iff.mp cells
    obtain rfl := List.forall₂_nil_left_iff.mp none
    cases there
    obtain ⟨string, rest, isValue, none, isStrings⟩ := List.forall₂_cons_left_iff.mp defn
    obtain rfl := List.forall₂_nil_left_iff.mp none
    obtain rfl := value string (sound _ _ isValue)
    dsimp only at isName isStrings
    subst isName isStrings
    exact (Option.some.inj text).symm
  | @read _ _ tree binding values shown here sound cells text =>
    cases here
    have parsed : s = selfAssigning := by
      by_contra other
      simp [readsClosure, parseSelfAssigning, other] at text
    subst parsed
    have isRead : readsClosure parseSelfAssigning selfAssigning =
        some ([(lit "a", [.str (lit "1")])], selfAssigningBody) := by decide
    obtain ⟨rfl, -⟩ := Prod.mk.inj (Option.some.inj (isRead.symm.trans text))
    obtain ⟨⟨cell, there, -, defn⟩, -⟩ := List.forall₂_cons.mp cells
    cases there
    have one := value _ (sound _ _ (List.forall₂_cons.mp defn).1)
    exact absurd one (by decide)

/-- The second environment still shows the value before the assignment. -/
theorem not_isEnvironment_selfAssigning :
    ∃ (shell : Shell fun _ => 0) (vector : List Text) (shell' : Shell fun _ => 0),
      Reached (fun _ => 0) parseSelfAssigning (fun _ _ => True) selfAssigningOps shell ∧
        shell.mkenv 3 = some (vector, shell') ∧
        ¬ IsEnvironment parseSelfAssigning shell' (inherited selfAssigningOps) vector := by
  have evaluated : ((selfAssigningOps.foldlM
      (fun shell op => shell.step parseSelfAssigning 3 op) Shell.initvars :
        Option (Shell fun _ => 0)).bind fun shell => (shell.mkenv 3).map fun result =>
          (result.1, result.2.heap, (result.2.vars.get (lit "x")).map fun var =>
            (var.defn, result.2.inEnv (lit "x") var))) =
      some ([lit "x=" ++ selfAssigning], selfAssigningHeap, some ([0], true)) := by
    decide +kernel
  obtain ⟨shell, run, result⟩ := Option.bind_eq_some_iff.mp evaluated
  obtain ⟨⟨vector, shell'⟩, returned, components⟩ := Option.map_eq_some_iff.mp result
  obtain ⟨isVector, isHeap, isX⟩ : vector = [lit "x=" ++ selfAssigning] ∧
      shell'.heap = selfAssigningHeap ∧ ((shell'.vars.get (lit "x")).map fun var =>
        (var.defn, shell'.inEnv (lit "x") var)) = some ([0], true) := by
    simpa using components
  refine ⟨shell, vector, shell', ?_, returned, ?_⟩
  · exact Reached.start.foldlM (fun _ _ _ => trivial) run
  rintro ⟨entries, -, names, shown, perm⟩
  obtain ⟨var, found, isVar⟩ := Option.map_eq_some_iff.mp isX
  obtain ⟨isDefn, isIn⟩ := Prod.mk.inj isVar
  obtain ⟨⟨name, text⟩, member, isName⟩ :=
    List.mem_map.mp ((names (lit "x")).mpr ⟨var, found, isIn⟩)
  obtain rfl : name = lit "x" := isName
  have isText : text = lit "x=" ++ selfAssigning := by
    have inVector := perm.mem_iff.mpr
      (List.mem_append_right _ (List.mem_map.mpr ⟨_, member, rfl⟩))
    rw [isVector] at inVector
    exact List.mem_singleton.mp inVector
  obtain ⟨other, found', words, each, equation⟩ := shown _ text member
  obtain rfl := Option.some.inj (found.symm.trans found')
  rw [isDefn, isHeap] at each
  obtain ⟨word, rest, isWord, none, rfl⟩ := List.forall₂_cons_left_iff.mp each
  obtain rfl := List.forall₂_nil_left_iff.mp none
  rw [shows_selfAssigning isWord, isText] at equation
  exact absurd equation (by decide)

end

end Desh
