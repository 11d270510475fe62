/-
This file models `access.c`: how `$&access` tests files, and how `%pathsearch`
of `initial.es` looks for commands with it.

It proves what is found. Without `-1` there is a status for each path, and with
it the first path that passes; what is reported if there is none is the last
error that was not a missing file. A search for a command comes to the first
directory of `path` that has it.

The file system is a parameter.
-/

import Desh.Opt

namespace Desh

namespace Access

/-! ### Files -/

/-- What is used of a `struct stat`: the owners, the bits of the mode, and its file type. -/
structure Stat where
  uid : Nat
  gid : Nat
  mode : Nat
  type : FileType
  deriving DecidableEq

/-- The files, and for whom they are tested. An error is an `errno`. -/
structure System where
  stat : Text → Except Nat Stat
  lstat : Text → Except Nat Stat
  uid : Nat
  gid : Nat
  groups : List Nat
  strerror : Nat → Text

/-- `ENOENT` and `EACCES`. -/
def ENOENT : Nat := 2

def EACCES : Nat := 13

variable (system : System)

/-- `ingroupset`. -/
def ingroupset (gid : Nat) : Bool := system.groups.contains gid

/-- `testperm`, or nothing if there is no error. -/
def testperm (stat : Stat) (perm : Nat) : Option Nat :=
  if perm = 0 then none
  else
    let mask :=
      if system.uid = 0 then (perm <<< 6) ||| (perm <<< 3) ||| (perm <<< 0)
      else perm <<<
        (if system.uid = stat.uid then 6
        else if stat.gid = system.gid || ingroupset system stat.gid then 3
        else 0)
    if stat.mode &&& mask ≠ 0 then none else some EACCES

/-- `testfile`. -/
def testfile (path : Text) (perm : Nat) (type : FileType) : Option Nat :=
  match if type = .link then system.lstat path else system.stat path with
  | .error errno => some errno
  | .ok stat =>
    if type ≠ .any ∧ stat.type ≠ type then some EACCES else testperm system stat perm

/-- `pathcat`. -/
def pathcat (first suffix : Text) : Text :=
  if first = [] then suffix
  else if suffix = [] then first
  else if first.getLast? = some '/'.toUInt8 then first ++ suffix
  else first ++ lit "/" ++ suffix

/-- The name of the file that is tested for a path. -/
def fileName (options : AccessOptions) (path : Text) : Text :=
  match options.suffix with
  | none => path
  | some suffix => pathcat path suffix

/-- What `$&access` does when it has tested all the paths. -/
def accessEnd (options : AccessOptions) (estatus : Nat) (lp : List Text) :
    Except Stop (List Text) :=
  if options.first && options.exception then
    .error (.fail (lit "$&access")
      (match options.suffix with
      | some suffix => suffix ++ lit ": " ++ system.strerror estatus
      | none => system.strerror estatus))
  else .ok lp.reverse

/-- The loop of `$&access`. -/
def accessLoop (options : AccessOptions) : List Text → Nat → List Text → Except Stop (List Text)
  | [], estatus, lp => accessEnd system options estatus lp
  | path :: list, estatus, lp =>
    let name := fileName options path
    let error := testfile system name options.perm options.type
    if options.first then
      match error with
      | none => .ok [name]
      | some errno => accessLoop options list (if errno ≠ ENOENT then errno else estatus) lp
    else
      accessLoop options list estatus
        ((match error with
          | none => lit "0"
          | some errno => system.strerror errno) :: lp)

/-- `$&access`, with so many rounds of the loop over the options at most. -/
def primAccess (strings : Strings) (platform : Platform) (rounds : Nat) (list : List Text)
    (opt : Opt) : Option (Except Stop (List Text) × Opt) :=
  (parseOptions strings accessOptionString (accessSwitch platform) rounds list (lit "$&access")
      accessUsage .initial opt).map fun
    | (.ok (options, list), opt) => (accessLoop system options list ENOENT [], opt)
    | (.error stop, opt) => (.error stop, opt)

/-- `fn-%pathsearch`, of the variable `path`. -/
def pathsearch (strings : Strings) (platform : Platform) (rounds : Nat) (name : Text)
    (path : List Text) (opt : Opt) : Option (Except Stop (List Text) × Opt) :=
  primAccess system strings platform rounds
    (lit "-n" :: name :: lit "-1e" :: lit "-xf" :: path) opt

/-! ### What is found -/

/-- The error that is reported: the last one that is not of a missing file. -/
def lastError (errors : List Nat) : Nat :=
  ((errors.filter (· ≠ ENOENT)).getLast?).getD ENOENT

/-- `pathbuf` has room for the two names, the slash, and the NUL. -/
theorem pathcat_fits {first suffix : Text} :
    (pathcat first suffix).length + 1 ≤ first.length + suffix.length + 2 := by
  unfold pathcat
  split_ifs
  · omega
  · omega
  · rw [List.length_append]
    omega
  · have slash : (lit "/").length = 1 := rfl
    rw [List.length_append, List.length_append, slash]
    omega

/-- Without `-1` there is a status for each path. -/
theorem accessLoop_each (options : AccessOptions) (each : options.first = false)
    (list : List Text) (estatus : Nat) (lp : List Text) :
    accessLoop system options list estatus lp =
      .ok (lp.reverse ++ list.map fun path =>
        match testfile system (fileName options path) options.perm options.type with
        | none => lit "0"
        | some errno => system.strerror errno) := by
  induction list generalizing lp with
  | nil => simp [accessLoop, accessEnd, each]
  | cons path list ih =>
    rw [accessLoop]
    simp only [each, Bool.false_eq_true, if_false]
    rw [ih]
    simp

/-- With `-1` the first path that passes is the result. -/
theorem accessLoop_first (options : AccessOptions) (first : options.first = true)
    (list : List Text) (estatus : Nat) (lp : List Text) :
    accessLoop system options list estatus lp =
      match list.find? fun path =>
        (testfile system (fileName options path) options.perm options.type).isNone with
      | some path => .ok [fileName options path]
      | none => accessEnd system options ((list.filterMap fun path =>
          testfile system (fileName options path) options.perm options.type).foldl
            (fun estatus errno => if errno ≠ ENOENT then errno else estatus) estatus) lp := by
  induction list generalizing estatus with
  | nil => rfl
  | cons path list ih =>
    rw [accessLoop]
    simp only [first, if_true]
    cases tested : testfile system (fileName options path) options.perm options.type with
    | none => simp [tested]
    | some errno =>
      have counted : (path :: list).filterMap (fun path =>
          testfile system (fileName options path) options.perm options.type) =
            errno :: list.filterMap fun path =>
              testfile system (fileName options path) options.perm options.type :=
        List.filterMap_cons_some tested
      rw [List.find?_cons_of_neg (by simp [tested]), counted, List.foldl_cons]
      exact ih _

theorem foldl_lastError (errors : List Nat) (estatus : Nat) :
    errors.foldl (fun estatus errno => if errno ≠ ENOENT then errno else estatus) estatus =
      ((errors.filter (· ≠ ENOENT)).getLast?).getD estatus := by
  induction errors generalizing estatus with
  | nil => rfl
  | cons errno errors ih =>
    rw [List.foldl_cons, ih]
    by_cases missing : errno = ENOENT
    · simp [missing]
    · rw [List.filter_cons_of_pos (by simpa using missing), List.getLast?_cons]
      simp [missing]

/-! ### The search for a command -/

/-- What `%pathsearch` tells `$&access`. -/
def searchOptions (name : Text) : AccessOptions := ⟨some name, true, true, 1, .regular⟩

/-- A round that reads an option. -/
theorem optionLoop_option {strings : Strings} {options : Text} {switch : Switch AccessOptions}
    {locals locals' : AccessOptions} {opt opt₁ opt₂ : Opt} {c : UInt8} (rounds : Nat)
    (read : esopt strings options opt = (.ok (some c), opt₁))
    (case : switch.case c locals opt₁ = (.ok locals', opt₂)) :
    optionLoop strings options switch (rounds + 1) (locals, opt) =
      optionLoop strings options switch rounds (locals', opt₂) := by
  simp only [optionLoop, optionRound, read, case]

/-- The parser at the arguments of a call of `$&access`. -/
def parser (args : List Text) (termarg : Option Text) (nextchar : Nat) : Opt :=
  ⟨some accessUsage, lit "$&access", args, termarg, nextchar⟩

/-- What does not look like an option ends the options. -/
theorem esopt_operands (strings : Strings) (path : List Text)
    (plain : ∀ dir ∈ path.head?, dir.head? ≠ some '-'.toUInt8) :
    esopt strings accessOptionString (parser path none 0) = (.ok none, parser path none 0) := by
  cases path with
  | nil => rfl
  | cons dir path =>
    have other : strings.char dir 0 ≠ '-'.toUInt8 := by
      have head := plain dir rfl
      cases dir with
      | nil =>
        have zero : strings.char [] 0 = 0 := strings.char_end []
        rw [zero]
        decide
      | cons c dir =>
        rw [strings.char_inside (c :: dir) 0 c rfl]
        exact fun same => head (congrArg some same)
    simp only [parser, esopt, if_true, if_pos other]

theorem parseOptions_pathsearch (strings : Strings) (platform : Platform) (rounds : Nat)
    (name : Text) (path : List Text) (opt : Opt) (idle : opt.usage = none)
    (plain : ∀ dir ∈ path.head?, dir.head? ≠ some '-'.toUInt8) :
    parseOptions strings accessOptionString (accessSwitch platform) (rounds + 6)
        (lit "-n" :: name :: lit "-1e" :: lit "-xf" :: path) (lit "$&access") accessUsage .initial
        opt =
      some (.ok (searchOptions name, path), ⟨none, lit "$&access", [], none, 0⟩) := by
  have n0 : strings.char (lit "-n") 0 = '-'.toUInt8 := strings.char_inside _ _ _ rfl
  have n1 : strings.char (lit "-n") 1 = 'n'.toUInt8 := strings.char_inside _ _ _ rfl
  have n2 : strings.char (lit "-n") 2 = 0 := strings.char_end (lit "-n")
  have e0 : strings.char (lit "-1e") 0 = '-'.toUInt8 := strings.char_inside _ _ _ rfl
  have e1 : strings.char (lit "-1e") 1 = '1'.toUInt8 := strings.char_inside _ _ _ rfl
  have e2 : strings.char (lit "-1e") 2 = 'e'.toUInt8 := strings.char_inside _ _ _ rfl
  have e3 : strings.char (lit "-1e") 3 = 0 := strings.char_end (lit "-1e")
  have x0 : strings.char (lit "-xf") 0 = '-'.toUInt8 := strings.char_inside _ _ _ rfl
  have x1 : strings.char (lit "-xf") 1 = 'x'.toUInt8 := strings.char_inside _ _ _ rfl
  have x2 : strings.char (lit "-xf") 2 = 'f'.toUInt8 := strings.char_inside _ _ _ rfl
  have x3 : strings.char (lit "-xf") 3 = 0 := strings.char_end (lit "-xf")
  have on : strings.char accessOptionString 7 = ':'.toUInt8 := strings.char_inside _ _ _ rfl
  have o1 : strings.char accessOptionString 14 = 0 := strings.char_end accessOptionString
  have oe : strings.char accessOptionString 4 = 'f'.toUInt8 := strings.char_inside _ _ _ rfl
  have ox : strings.char accessOptionString 13 = '1'.toUInt8 := strings.char_inside _ _ _ rfl
  have of : strings.char accessOptionString 5 = 'l'.toUInt8 := strings.char_inside _ _ _ rfl
  have pn : strchr accessOptionString 'n'.toUInt8 = some 6 := by decide
  have p1 : strchr accessOptionString '1'.toUInt8 = some 13 := by decide
  have pe : strchr accessOptionString 'e'.toUInt8 = some 3 := by decide
  have px : strchr accessOptionString 'x'.toUInt8 = some 12 := by decide
  have pf : strchr accessOptionString 'f'.toUInt8 = some 4 := by decide
  have readName : esopt strings accessOptionString
      (parser (lit "-n" :: name :: lit "-1e" :: lit "-xf" :: path) none 0) =
        (.ok (some 'n'.toUInt8), parser (lit "-1e" :: lit "-xf" :: path) (some name) 0) := by
    simp only [parser, esopt, esoptChar, n0, n1, n2, pn, on]
    rfl
  have readFirst : esopt strings accessOptionString
      (parser (lit "-1e" :: lit "-xf" :: path) none 0) =
        (.ok (some '1'.toUInt8), parser (lit "-1e" :: lit "-xf" :: path) none 2) := by
    simp only [parser, esopt, esoptChar, e0, e1, e2, p1, o1]
    rfl
  have readException : esopt strings accessOptionString
      (parser (lit "-1e" :: lit "-xf" :: path) none 2) =
        (.ok (some 'e'.toUInt8), parser (lit "-xf" :: path) none 0) := by
    simp only [parser, esopt, esoptChar, e2, e3, pe, oe]
    rfl
  have readExec : esopt strings accessOptionString (parser (lit "-xf" :: path) none 0) =
      (.ok (some 'x'.toUInt8), parser (lit "-xf" :: path) none 2) := by
    simp only [parser, esopt, esoptChar, x0, x1, x2, px, ox]
    rfl
  have readFile : esopt strings accessOptionString (parser (lit "-xf" :: path) none 2) =
      (.ok (some 'f'.toUInt8), parser path none 0) := by
    simp only [parser, esopt, esoptChar, x2, x3, pf, of]
    rfl
  have readEnd := esopt_operands strings path plain
  rw [parseOptions, esoptbegin, if_pos idle]
  show (optionLoop strings accessOptionString (accessSwitch platform) (rounds + 6)
    (.initial, parser (lit "-n" :: name :: lit "-1e" :: lit "-xf" :: path) none 0)).map _ = _
  let case := (accessSwitch platform).case
  have setName : case 'n'.toUInt8 .initial (parser (lit "-1e" :: lit "-xf" :: path) (some name) 0) =
      (.ok ⟨some name, false, false, 0, .any⟩, parser (lit "-1e" :: lit "-xf" :: path) none 0) :=
    rfl
  have setFirst : case '1'.toUInt8 ⟨some name, false, false, 0, .any⟩
      (parser (lit "-1e" :: lit "-xf" :: path) none 2) =
        (.ok ⟨some name, true, false, 0, .any⟩, parser (lit "-1e" :: lit "-xf" :: path) none 2) :=
    rfl
  have setException : case 'e'.toUInt8 ⟨some name, true, false, 0, .any⟩
      (parser (lit "-xf" :: path) none 0) =
        (.ok ⟨some name, true, true, 0, .any⟩, parser (lit "-xf" :: path) none 0) := rfl
  have setExec : case 'x'.toUInt8 ⟨some name, true, true, 0, .any⟩
      (parser (lit "-xf" :: path) none 2) =
        (.ok ⟨some name, true, true, 1, .any⟩, parser (lit "-xf" :: path) none 2) := by
    show (Except.ok (⟨some name, true, true, 0 ||| 1, .any⟩ : AccessOptions), _) = _
    rw [Nat.zero_or]
  have setFile : case 'f'.toUInt8 ⟨some name, true, true, 1, .any⟩ (parser path none 0) =
      (.ok (searchOptions name), parser path none 0) := rfl
  rw [optionLoop_option (rounds + 5) readName setName,
    optionLoop_option (rounds + 4) readFirst setFirst,
    optionLoop_option (rounds + 3) readException setException,
    optionLoop_option (rounds + 2) readExec setExec,
    optionLoop_option (rounds + 1) readFile setFile]
  simp only [optionLoop, optionRound, readEnd]
  rfl

/-- `%pathsearch` comes to the first directory of `path` in which the name is that of an executable
file. If there is none, the error that is reported is the last one that is not of a missing file.
The first directory must not look like an option. -/
theorem pathsearch_finds (strings : Strings) (platform : Platform) (rounds : Nat) (name : Text)
    (path : List Text) (opt : Opt) (idle : opt.usage = none)
    (plain : ∀ dir ∈ path.head?, dir.head? ≠ some '-'.toUInt8) :
    pathsearch system strings platform (rounds + 6) name path opt =
      some
        (match path.find? fun dir =>
            (testfile system (pathcat dir name) 1 .regular).isNone with
          | some dir => .ok [pathcat dir name]
          | none => .error (.fail (lit "$&access") (name ++ lit ": " ++ system.strerror
            (lastError (path.filterMap fun dir => testfile system (pathcat dir name) 1 .regular)))),
          ⟨none, lit "$&access", [], none, 0⟩) := by
  rw [pathsearch, primAccess, parseOptions_pathsearch strings platform rounds name path opt idle
    plain]
  simp only [Option.map_some]
  rw [accessLoop_first system (searchOptions name) rfl, foldl_lastError]
  rfl

/-- A system with one file, the command `ls` in `/usr/bin`. -/
def oneCommand : System where
  stat path := if path = lit "/usr/bin/ls" then .ok ⟨0, 0, 0o755, .regular⟩ else .error ENOENT
  lstat path := if path = lit "/usr/bin/ls" then .ok ⟨0, 0, 0o755, .regular⟩ else .error ENOENT
  uid := 1000
  gid := 1000
  groups := []
  strerror _ := lit "error"

theorem pathsearch_finds_ls :
    pathsearch oneCommand .cleared ⟨true, true, true⟩ 6 (lit "ls") [lit "/bin", lit "/usr/bin"]
        .initial =
      some
        (match [lit "/bin", lit "/usr/bin"].find? fun dir =>
            (testfile oneCommand (pathcat dir (lit "ls")) 1 .regular).isNone with
          | some dir => .ok [pathcat dir (lit "ls")]
          | none => .error (.fail (lit "$&access") (lit "ls" ++ lit ": " ++ oneCommand.strerror
            (lastError ([lit "/bin", lit "/usr/bin"].filterMap fun dir =>
              testfile oneCommand (pathcat dir (lit "ls")) 1 .regular)))),
          ⟨none, lit "$&access", [], none, 0⟩) :=
  pathsearch_finds oneCommand .cleared ⟨true, true, true⟩ 0 (lit "ls")
    [lit "/bin", lit "/usr/bin"] .initial rfl (by decide)

end Access

end Desh
