import UtilWin.Regex.Glob

/-!
# Matching a name against a pattern

`fnmatch` cuts the pattern at its stars.  What stands before the first star is compared with the
front of the string.  Then the pattern is read once to its end, to find the last star and to count
the characters behind it; so many characters are taken from the end of the string, going back byte by
byte, and compared.  The components between the stars are searched from the left in what remains.

A pattern is given by its bytes and by how many of them belong to it, because a component of a path
is matched where it stands in the whole pattern; the length `-1` of the source is the length of the
pattern.  A string is given by the bytes that belong to it.  The bytes are those before the
terminator.

The functions of the locale are a parameter.  A computation is `none` where the source reads behind
the terminator, or does not come to an end.
-/

namespace UtilWin
namespace Fnmatch

open Glob

/-- `END`. -/
def codeEnd : ℤ := 0

/-- `UNMATCHABLE`. -/
def codeUnmatchable : ℤ := -2

/-- `BRACKET`. -/
def codeBracket : ℤ := -3

/-- `QUESTION`. -/
def codeQuestion : ℤ := -4

/-- `STAR`. -/
def codeStar : ℤ := -5

def fnmPathname : BitVec 32 := 0x1
def fnmLeadingDir : BitVec 32 := 0x8
def fnmCasefold : BitVec 32 := 0x10

/-- `FNM_NOMATCH`. -/
def fnmNomatch : ℕ := 1

def caret : UInt8 := 0x5e
def bang : UInt8 := 0x21
def dash : UInt8 := 0x2d
def equals : UInt8 := 0x3d

/-- What `fnmatch` uses of the locale. -/
structure Locale where
  /-- `mbtowc`: the character at the front and its number of bytes, if the result is not negative. -/
  mbtowc : Str → Option (ℤ × ℕ)
  /-- `MB_CUR_MAX`. -/
  mbCurMax : ℕ
  towupper : ℤ → ℤ
  towlower : ℤ → ℤ
  /-- `iswctype(k, wctype(name))`. -/
  iswctype : ℤ → Str → Bool

variable (loc : Locale)

/-- `str_next`. -/
def strNext : Str → ℤ × ℕ
  | [] => (0, 0)
  | c :: q =>
    if 128 ≤ c then
      match loc.mbtowc (c :: q) with
      | none => (-1, 1)
      | some (wc, k) => (wc, k)
    else (c.toNat, 1)

/-! ## The next token of a pattern -/

/-- The marks of a class `[:name:]`, `[.name.]`, `[=name=]`. -/
def isMark (c : UInt8) : Bool := c = colon ∨ c = period ∨ c = equals

/-- The characters that negate a bracket expression. -/
def isNegation (c : UInt8) : Bool := c = caret ∨ c = bang

/-- The loop of `pat_next` that looks for the end of a bracket expression: the index of the `]`.
Inside a class the mark and the byte before the current one are known. -/
def bracketScan : Option (UInt8 × UInt8) → Str → Option ℕ
  | _, [] => none
  | some (z, prev), c :: q =>
    if prev = z ∧ c = bracketClose then (bracketScan none q).map (· + 1)
    else (bracketScan (some (z, c)) q).map (· + 1)
  | none, c :: q =>
    if c = bracketClose then some 0
    else if c = bracketOpen ∧ q.head?.any isMark then
      match q with
      | z :: a :: r => (bracketScan (some (z, a)) r).map (· + 3)
      | _ => none
    else (bracketScan none q).map (· + 1)

/-- How many bytes behind a `[` are a negation and a `]` that stands for itself. -/
def bracketSkip (q : Str) : ℕ :=
  let k := if q.head?.any isNegation then 1 else 0
  if (q.drop k).head? = some bracketClose then k + 1 else k

/-- The end of `pat_next`, from the label `escaped` on. -/
def patChar (pat : Str) (m step esc : ℕ) : ℤ × ℕ :=
  match pat with
  | [] => (codeEnd, step)
  | c :: q =>
    if 128 ≤ c then
      match loc.mbtowc ((c :: q).take m) with
      | none => (codeUnmatchable, 0)
      | some (wc, k) => (wc, k + esc)
    else (c.toNat, step)

/-- `pat_next`: the token at the front of the pattern, and its number of bytes. -/
def patNext (flags : BitVec 32) (pat : Str) (m : ℕ) : ℤ × ℕ :=
  match pat.take m with
  | [] => (codeEnd, 0)
  | c :: q =>
    if c = backslash ∧ pat.drop 1 ≠ [] ∧ !has flags fnmNoescape then patChar loc (pat.drop 1) m 2 1
    else if c = bracketOpen then
      match bracketScan none (q.drop (bracketSkip q)) with
      | none => (bracketOpen.toNat, 1)
      | some j => (codeBracket, 1 + bracketSkip q + j + 1)
    else if c = star then (codeStar, 1)
    else if c = question then (codeQuestion, 1)
    else patChar loc pat m 1 0

/-! ## Bracket expressions -/

/-- `casefold`. -/
def casefold (k : ℤ) : ℤ := if loc.towupper k = k then loc.towlower k else loc.towupper k

/-- `(unsigned)(k-wc) <= (unsigned)(wc2-wc)`. -/
def inRange (k wc wc2 : ℤ) : Bool := (k - wc) % 0x100000000 ≤ (wc2 - wc) % 0x100000000

/-- The loop of `match_bracket` that looks for the end of a class with the mark `z`: the length of
the name without its first byte. -/
def classScan (z : UInt8) : UInt8 → Str → Option ℕ
  | _, [] => none
  | prev, c :: q =>
    if prev = z ∧ c = bracketClose then some 0 else (classScan z c q).map (· + 1)

/-- The loop of `match_bracket`, with the character before the current one. -/
def bracketBody (inv : Bool) (k kfold : ℤ) : ℕ → ℤ → Str → Option Bool
  | 0, _, _ => none
  | _ + 1, _, [] => none
  | fuel + 1, wc, c :: q =>
    if c = bracketClose then some inv
    else if c = dash ∧ q.head? ≠ some bracketClose then
      match loc.mbtowc (q.take 4) with
      | none => some false
      | some (wc2, l) =>
        if wc ≤ wc2 ∧ (inRange k wc wc2 ∨ inRange kfold wc wc2) then some (!inv)
        else bracketBody inv k kfold fuel wc (q.drop (l - 1))
    else if c = bracketOpen ∧ q.head?.any isMark then
      match q with
      | z :: a :: r =>
        match classScan z a r with
        | none => none
        | some n =>
          let name := (a :: r).take n
          if z = colon ∧ name.length < 16 ∧ (loc.iswctype k name ∨ loc.iswctype kfold name) then
            some (!inv)
          else bracketBody inv k kfold fuel wc (r.drop (n + 1))
      | _ => none
    else if c < 128 then
      if (c.toNat : ℤ) = k ∨ (c.toNat : ℤ) = kfold then some (!inv)
      else bracketBody inv k kfold fuel c.toNat q
    else
      match loc.mbtowc ((c :: q).take 4) with
      | none => some false
      | some (wc, l) =>
        if wc = k ∨ wc = kfold then some (!inv)
        else bracketBody inv k kfold fuel wc ((c :: q).drop l)

/-- `match_bracket` behind the negation: a first `]` or `-` stands for itself. -/
def bracketFirst (inv : Bool) (k kfold : ℤ) (fuel : ℕ) (wc : ℤ) : Str → Option Bool
  | [] => none
  | c :: r =>
    if c = bracketClose ∨ c = dash then
      if k = c.toNat then some (!inv) else bracketBody loc inv k kfold fuel c.toNat r
    else bracketBody loc inv k kfold fuel wc (c :: r)

/-- `match_bracket`. -/
def matchBracket (p : Str) (k kfold : ℤ) : Option Bool :=
  let q := p.drop 1
  let inv := q.head?.any isNegation
  bracketFirst loc inv k kfold p.length (if inv then q.head?.getD 0 else bracketOpen).toNat
    (q.drop (if inv then 1 else 0))

/-! ## The matcher -/

/-- The comparison of a token and a character that three loops of `fnmatch_internal` make. -/
def test (flags : BitVec 32) (p : Str) (c k : ℤ) : Option Bool :=
  let kfold := if has flags fnmCasefold then casefold loc k else k
  if c = codeBracket then matchBracket loc p k kfold
  else some !(c ≠ codeQuestion ∧ k ≠ c ∧ kfold ≠ c)

/-- How the loop over the head of the pattern ends. -/
inductive Head where
  | answer (r : ℕ)
  | star (pat : Str) (m : ℕ) (str : Str)

/-- The first loop of `fnmatch_internal`. -/
def matchHead (flags : BitVec 32) : ℕ → Str → ℕ → Str → Option Head
  | 0, _, _, _ => none
  | fuel + 1, pat, m, str =>
    let c := (patNext loc flags pat m).1
    let pinc := (patNext loc flags pat m).2
    if c = codeUnmatchable then some (.answer fnmNomatch)
    else if c = codeStar then some (.star (pat.drop 1) (m - 1) str)
    else
      let k := (strNext loc str).1
      let sinc := (strNext loc str).2
      if k ≤ 0 then some (.answer (if c = codeEnd then 0 else fnmNomatch))
      else
        match test loc flags pat c k with
        | none => none
        | some false => some (.answer fnmNomatch)
        | some true => matchHead flags fuel (pat.drop pinc) (m - pinc) (str.drop sinc)

/-- How the search for the last star ends: with a pattern that cannot match, or with `tailcnt` and
`ptail`. -/
inductive Tail where
  | nomatch
  | found (tailcnt : ℕ) (ptail : Str) (mtail : ℕ)

/-- "Find the last * in pat and count chars needed after it". -/
def scanTail (flags : BitVec 32) : ℕ → Str → ℕ → ℕ → Str → ℕ → Option Tail
  | 0, _, _, _, _, _ => none
  | fuel + 1, p, m, tailcnt, ptail, mtail =>
    if m = 0 then some (.found tailcnt ptail mtail)
    else
      let c := (patNext loc flags p m).1
      let pinc := (patNext loc flags p m).2
      if c = codeUnmatchable then some .nomatch
      else if c = codeStar then
        scanTail flags fuel (p.drop pinc) (m - pinc) 0 (p.drop 1) (m - 1)
      else scanTail flags fuel (p.drop pinc) (m - pinc) (tailcnt + 1) ptail mtail

/-- `(unsigned char)*--s-0x80U<0x40`. -/
def isContinuation (c : UInt8) : Bool := 0x80 ≤ c ∧ c < 0xc0

/-- `while ((unsigned char)*--s-0x80U<0x40 && s>str);`. -/
def backContinuation (str : Str) : ℕ → ℕ
  | 0 => 0
  | s + 1 => if isContinuation (str.getD s 0) ∧ 0 < s then backContinuation str s else s

/-- "Find the final tailcnt chars of str": where they start, and how many are missing. -/
def walkBack (str : Str) : ℕ → ℕ → ℕ × ℕ
  | 0, s => (s, 0)
  | tailcnt + 1, 0 => (0, tailcnt + 1)
  | tailcnt + 1, s + 1 =>
    walkBack str tailcnt
      (if str.getD s 0 < 128 ∨ loc.mbCurMax = 1 then s else backContinuation str (s + 1))

/-- "Check that the pat and str tails match". -/
def matchTail (flags : BitVec 32) : ℕ → Str → ℕ → Str → Option Bool
  | 0, _, _, _ => none
  | fuel + 1, p, m, s =>
    let c := (patNext loc flags p m).1
    let pinc := (patNext loc flags p m).2
    let k := (strNext loc s).1
    let sinc := (strNext loc s).2
    if k ≤ 0 then some (c = codeEnd)
    else
      match test loc flags p c k with
      | none => none
      | some false => some false
      | some true => matchTail flags fuel (p.drop pinc) (m - pinc) (s.drop sinc)

/-- How an attempt to match a component at one place ends. -/
inductive Attempt where
  | commit (pat : Str) (m : ℕ) (str : Str)
  | nomatch
  | fail

/-- The inner loop of "Match pattern components until there are none left". -/
def attempt (flags : BitVec 32) : ℕ → Str → ℕ → Str → Option Attempt
  | 0, _, _, _ => none
  | fuel + 1, p, m, s =>
    let c := (patNext loc flags p m).1
    let pinc := (patNext loc flags p m).2
    if c = codeStar then some (.commit (p.drop pinc) (m - pinc) s)
    else
      let k := (strNext loc s).1
      let sinc := (strNext loc s).2
      if k = 0 then some .nomatch
      else
        match test loc flags p c k with
        | none => none
        | some false => some .fail
        | some true => attempt flags fuel (p.drop pinc) (m - pinc) (s.drop sinc)

/-- `for (str++; str_next(str, endstr-str, &sinc)<0; str++);`, behind the first `str++`. -/
def skipInvalid : Str → Str
  | [] => []
  | c :: q => if (strNext loc (c :: q)).1 < 0 then skipInvalid q else c :: q

/-- "Match pattern components until there are none left". -/
def matchSea (flags : BitVec 32) : ℕ → Str → ℕ → Str → Option ℕ
  | 0, _, _, _ => none
  | fuel + 1, pat, m, str =>
    if m = 0 then some 0
    else
      match attempt loc flags (str.length + 1) pat m str with
      | none => none
      | some (.commit pat' m' str') => matchSea flags fuel pat' m' str'
      | some .nomatch => some fnmNomatch
      | some .fail =>
        let k := (strNext loc str).1
        let sinc := (strNext loc str).2
        if 0 < k then matchSea flags fuel pat m (str.drop sinc)
        else matchSea flags fuel pat m (skipInvalid loc (str.drop 1))

/-- `fnmatch_internal`, behind the first star. -/
def matchStars (flags : BitVec 32) (pat : Str) (m : ℕ) (str : Str) : Option ℕ :=
  match scanTail loc flags (m + 1) pat m 0 pat m with
  | none => none
  | some .nomatch => some fnmNomatch
  | some (.found tailcnt ptail mtail) =>
    if str.length < tailcnt then some fnmNomatch
    else
      let s := (walkBack loc str tailcnt str.length).1
      if (walkBack loc str tailcnt str.length).2 ≠ 0 then some fnmNomatch
      else
        match matchTail loc flags (str.length + 1) ptail mtail (str.drop s) with
        | none => none
        | some false => some fnmNomatch
        | some true => matchSea loc flags (m + str.length + 1) pat (m - mtail) (str.take s)

/-- `fnmatch_internal`. -/
def fnmatchInternal (flags : BitVec 32) (pat : Str) (m : ℕ) (str : Str) : Option ℕ :=
  if has flags fnmPeriod ∧ str.head? = some period ∧ pat.head? ≠ some period then some fnmNomatch
  else
    match matchHead loc flags (m + 1) pat m str with
    | none => none
    | some (.answer r) => some r
    | some (.star pat' m' str') => matchStars loc flags pat' (min m' pat'.length) str'

/-! ## Paths -/

/-- `for (p=pat; (c=pat_next(p, -1, &inc, flags))!=END && c!='/'; p+=inc);`: the token, the pattern
from there on, and the number of bytes of the token. -/
def patComponent (flags : BitVec 32) : ℕ → Str → Option (ℤ × Str × ℕ)
  | 0, _ => none
  | fuel + 1, p =>
    let c := (patNext loc flags p p.length).1
    let inc := (patNext loc flags p p.length).2
    if c = codeEnd ∨ c = slash.toNat then some (c, p, inc)
    else patComponent flags fuel (p.drop inc)

/-- The loop of `fnmatch` for `FNM_PATHNAME`. -/
def matchPath (flags : BitVec 32) : ℕ → Str → Str → Option ℕ
  | 0, _, _ => none
  | fuel + 1, pat, str =>
    match patComponent loc flags (pat.length + 1) pat with
    | none => none
    | some (c, p, inc) =>
      let s := str.dropWhile (· ≠ slash)
      if c ≠ (s.headD 0).toNat ∧ (s = [] ∨ !has flags fnmLeadingDir) then some fnmNomatch
      else
        match fnmatchInternal loc flags pat (pat.length - p.length) (str.takeWhile (· ≠ slash)) with
        | none => none
        | some r =>
          if r ≠ 0 then some fnmNomatch
          else if c = codeEnd then some 0
          else matchPath flags fuel (p.drop inc) (s.drop 1)

/-- The loop of `fnmatch` for `FNM_LEADING_DIR` alone, with `done` bytes before `s`: whether one of
the leading parts matches. -/
def matchLeading (flags : BitVec 32) (pat str : Str) : ℕ → Str → Option Bool
  | _, [] => some false
  | done, c :: s =>
    if c ≠ slash then matchLeading flags pat str (done + 1) s
    else
      match fnmatchInternal loc flags pat pat.length (str.take done) with
      | none => none
      | some r => if r = 0 then some true else matchLeading flags pat str (done + 1) s

/-- `fnmatch`. -/
def fnmatch (flags : BitVec 32) (pat str : Str) : Option ℕ :=
  if has flags fnmPathname then matchPath loc flags (pat.length + 1) pat str
  else if has flags fnmLeadingDir then
    match matchLeading loc flags pat str 0 str with
    | none => none
    | some true => some 0
    | some false => fnmatchInternal loc flags pat pat.length str
  else fnmatchInternal loc flags pat pat.length str

end Fnmatch
end UtilWin
