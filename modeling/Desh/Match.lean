/-
This file models `match.c`: the matching of a word with a pattern, and the
extraction of the parts of the word that the wildcards stand for. What of a
pattern is quoted is said by a pointer into an array, either a mask with a byte
for every character, or one of the two arrays `QUOTED` and `UNQUOTED`, which are
recognised by their address. Every byte read through the pointer is checked
against the end of its array.
-/

import Desh.Glom

namespace Desh

/-! ### The quoting argument -/

/-- What must not happen: a byte of the quoting argument read outside its array, a byte read
behind the end of a string, a failed assertion. -/
inductive Fault where
  | quoting
  | text
  | assertion
  deriving DecidableEq

/-- A pointer into the array of a quoting argument. -/
structure Quoting where
  array : Mask
  offset : Nat
  deriving DecidableEq

/-- The bytes of the array. -/
def Mask.bytes : Mask → Text
  | QUOTED => lit "QUOTED" ++ [0]
  | UNQUOTED => lit "RAW" ++ [0]
  | marks q => q ++ [0]

namespace Quoting

/-- The argument a caller gives. -/
def of (array : Mask) : Quoting := ⟨array, 0⟩

/-- `q + n`. -/
def advance (q : Quoting) (n : Nat) : Quoting := ⟨q.array, q.offset + n⟩

/-- `q[n]`. -/
def read (q : Quoting) (n : Nat) : Except Fault UInt8 :=
  match q.array.bytes[q.offset + n]? with
  | some r => .ok r
  | none => .error .quoting

/-- `q == QUOTED`. -/
def isQUOTED (q : Quoting) : Bool := q = of .QUOTED

/-- `q == UNQUOTED`. -/
def isUNQUOTED (q : Quoting) : Bool := q = of .UNQUOTED

/-- `ISQUOTED`. -/
def ISQUOTED (q : Quoting) (n : Nat) : Except Fault Bool :=
  if q.isQUOTED then .ok true
  else if q.isUNQUOTED then .ok false
  else do
    let r ← q.read n
    return r = 'q'.toUInt8

/-- `TAILQUOTE`. -/
def TAILQUOTE (q : Quoting) (n : Nat) : Quoting :=
  if q.isUNQUOTED then q else q.advance n

/-- The test `q == UNQUOTED || q[n] == 'r'` of `match`. -/
def isRaw (q : Quoting) (n : Nat) : Except Fault Bool :=
  if q.isUNQUOTED then .ok true
  else do
    let r ← q.read n
    return r = 'r'.toUInt8

/-- `*p == '*' && (q == UNQUOTED || q[n] == 'r')`. -/
def isStar (q : Quoting) (n : Nat) (p : Text) : Except Fault Bool :=
  if p.head? = some '*'.toUInt8 then q.isRaw n else .ok false

end Quoting

/-! ### Classes -/

/-- What `rangematch` returns: an offset, or one of two failures. -/
inductive Range where
  | matched (offset : Nat)
  | RANGE_FAIL
  | RANGE_ERROR
  deriving DecidableEq

/-- Do two characters, compared as signed ones, have another between them? -/
def between (lo c hi : UInt8) : Bool := lo.toInt8 ≤ c.toInt8 && c.toInt8 ≤ hi.toInt8

/-- `*p == c && !ISQUOTED(q, n)`. -/
def Quoting.isUnquoted (q : Quoting) (n : Nat) (p : Text) (c : UInt8) : Except Fault Bool :=
  if p.head? = some c then do
    return !(← q.ISQUOTED n)
  else .ok false

/-- Is `p` at the `-` of a range? `q` is the quoting argument one character earlier. -/
def atRange (p : Text) (q : Quoting) : Except Fault Bool := do
  if ← q.isUnquoted 1 p '-'.toUInt8 then
    if p.tail.head? = some ']'.toUInt8 ∨ p.tail = [] then q.ISQUOTED 2 else return true
  else return false

/-- The loop of `rangematch`, `offset` characters into the class. -/
def rangeLoop (neg : Bool) (c : UInt8) (p : Text) (q : Quoting) (offset : Nat) (matched : Bool) :
    Except Fault Range :=
  match p with
  | [] => return .RANGE_ERROR
  | a :: p => do
      if ← q.isUnquoted 0 (a :: p) ']'.toUInt8 then
        return if matched != neg then .matched (offset + 1) else .RANGE_FAIL
      else if ← atRange p q then
        -- check for [..-..] but ignore [..-]
        match p.tail with
        | [] => .error .text
        | b :: _ =>
            rangeLoop neg c (p.drop 2) (q.advance 3) (offset + 3) (matched || between a c b)
      else rangeLoop neg c p (q.advance 1) (offset + 1) (matched || a = c)
termination_by p.length

/-- `rangematch`. -/
def rangematch (p : Text) (q : Quoting) (c : UInt8) : Except Fault Range := do
  let neg ← q.isUnquoted 0 p '~'.toUInt8
  let start := if neg then 1 else 0
  let leading ← (q.advance start).isUnquoted 0 (p.drop start) ']'.toUInt8
  let first := if leading then start + 1 else start
  rangeLoop neg c (p.drop first) (q.advance first) first (leading && c = ']'.toUInt8)

/-! ### Matching -/

/-- Is there a nonempty suffix, from the longest on, on which a test succeeds? -/
def anySuffix (test : Text → Except Fault Bool) : Text → Except Fault Bool
  | [] => return false
  | c :: s => do
      if ← test (c :: s) then return true else anySuffix test s

/-- The loop of `match`, at the pattern's character number `i`, with what is left of the pattern
and of the word. -/
def matchLoop (q : Quoting) (i : Nat) (p s : Text) : Except Fault Bool :=
  match p with
  | [] => return s.isEmpty
  | c :: p => do
      let raw ← q.isRaw i
      if raw ∧ c = '?'.toUInt8 then
        match s with
        | [] => return false
        | _ :: s => matchLoop q (i + 1) p s
      else if raw ∧ c = '*'.toUInt8 then
        -- star at end of pattern?
        if p = [] then return true
        -- collapse multiple stars
        else if ← q.isStar (i + 1) p then matchLoop q (i + 1) p s
        else anySuffix (fun s => matchLoop (q.TAILQUOTE (i + 1)) 0 p s) s
      else if raw ∧ c = '['.toUInt8 then
        match s with
        | [] => return false
        | d :: s =>
            match ← rangematch p (q.TAILQUOTE (i + 1)) d with
            | .matched j => matchLoop q (i + 1 + j) (p.drop j) s
            | .RANGE_FAIL => return false
            | .RANGE_ERROR =>
                if d = '['.toUInt8 then matchLoop q (i + 1) p s else return false
      else
        match s with
        | [] => return false
        | d :: s => if c = d then matchLoop q (i + 1) p s else return false
termination_by p.length

/-- `match`. The pattern behind a star is matched by `matchLoop` itself: there, the quoting
argument is not `QUOTED`. -/
def matchSingle (s p : Text) (q : Quoting) : Except Fault Bool :=
  if q.isQUOTED then return s = p else matchLoop q 0 p s

/-- Is the character a wildcard? -/
def isWildcard (c : UInt8) : Bool := c = '*'.toUInt8 || c = '?'.toUInt8 || c = '['.toUInt8

/-- The last loop of `haswild`, which reads the quoting argument up to the terminating byte. -/
def haswildLoop : Text → Quoting → Except Fault Bool
  | [], q => do
      let _ ← q.read 0
      return false
  | c :: s, q => do
      let r ← q.read 0
      if isWildcard c ∧ r = 'r'.toUInt8 then return true else haswildLoop s (q.advance 1)

/-- `haswild`, with a pointer for the quoting argument. -/
def haswildAt (s : Text) (q : Quoting) : Except Fault Bool :=
  if q.isQUOTED then return false
  else if q.isUNQUOTED then return s.any isWildcard
  else haswildLoop s q

/-! ### Extraction -/

/-- `*s`, where `s` is `none` behind the end of the string. -/
def readChar : Option Text → Except Fault UInt8
  | none => .error .text
  | some [] => return 0
  | some (c :: _) => return c

/-- `s++`. -/
def next : Option Text → Option Text
  | some (_ :: s) => some s
  | _ => none

/-- The search behind a star: what is in front of the first suffix on which the test succeeds, and
the suffix, which must not be empty. -/
def searchSuffix (test : Text → Except Fault Bool) : Text → Except Fault (Text × Text)
  | [] => .error .assertion
  | c :: s => do
      if ← test (c :: s) then return ([], c :: s)
      else
        let (u, v) ← searchSuffix test s
        return (c :: u, v)

/-- `str("%c", c)`. -/
def oneChar (c : UInt8) : Text := if c = 0 then [] else [c]

/-- The beginning of `extractsinglematch`: nothing is extracted without a wildcard or a match. -/
def ifMatch (subject pattern : Text) (quoting : Quoting) (extracted : Except Fault (List Text)) :
    Except Fault (List Text) := do
  if !(← haswildAt pattern quoting) then return []
  else if !(← matchSingle subject pattern quoting) then return []
  else extracted

/-- The loop of `extractsinglematch`, at the pattern's character number `i`. The list `NULL` is the
empty one. -/
def extractLoop (quoting : Quoting) (i : Nat) (pattern : Text) (s : Option Text)
    (result : List Text) : Except Fault (List Text) :=
  match pattern with
  | [] => return result
  | c :: pattern => do
      let quoted ← quoting.ISQUOTED i
      if !quoted ∧ c = '*'.toUInt8 then
        match s with
        | none => .error .text
        | some s =>
            if pattern = [] then return s :: result
            else
              let q := quoting.TAILQUOTE (i + 1)
              let (piece, s) ← searchSuffix (fun s => matchSingle s pattern q) s
              if ← haswildAt pattern q then
                ifMatch s pattern q (extractLoop q 0 pattern (some s) (piece :: result))
              else return piece :: result
      else if !quoted ∧ c = '['.toUInt8 then
        let d ← readChar s
        match ← rangematch pattern (quoting.TAILQUOTE (i + 1)) d with
        | .RANGE_FAIL => .error .assertion
        | .RANGE_ERROR =>
            if d = '['.toUInt8 then extractLoop quoting (i + 1) pattern (next s) result
            else .error .assertion
        | .matched j =>
            extractLoop quoting (i + 1 + j) (pattern.drop j) (next s) (oneChar d :: result)
      else if !quoted ∧ c = '?'.toUInt8 then
        let d ← readChar s
        extractLoop quoting (i + 1) pattern (next s) (oneChar d :: result)
      else extractLoop quoting (i + 1) pattern (next s) result
termination_by pattern.length

/-- `extractsinglematch`, which returns the pieces backwards. -/
def extractsinglematch (subject pattern : Text) (quoting : Quoting) (result : List Text) :
    Except Fault (List Text) :=
  ifMatch subject pattern quoting (extractLoop quoting 0 pattern (some subject) result)

/-- The inner loop of `extractmatches`: what the first pattern gives that gives anything. -/
def extractPatterns (subject : Text) : List Text → List Mask → Except Fault (List Text)
  | [], _ => return []
  -- the list of masks ends too early
  | _ :: _, [] => .error .quoting
  | pattern :: patterns, quote :: quotes => do
      let found ← extractsinglematch subject pattern (.of quote) []
      -- match is returned backwards, so reverse it
      if found ≠ [] then return found.reverse else extractPatterns subject patterns quotes

/-- The outer loop of `extractmatches`, which appends to the result. -/
def extractSubjects (patterns : List Text) (quotes : List Mask) (result : List Text) :
    List Text → Except Fault (List Text)
  | [] => return result
  | subject :: subjects => do
      let found ← extractPatterns subject patterns quotes
      extractSubjects patterns quotes (result ++ found) subjects

/-- `extractmatches`. -/
def extractmatches (subjects patterns : List Text) (quotes : List Mask) :
    Except Fault (List Text) :=
  extractSubjects patterns quotes [] subjects

end Desh
