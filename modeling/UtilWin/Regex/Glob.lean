import UtilWin.Dirent.Stream
import UtilWin.Library.Tokens

/-!
# Globbing

`glob` expands a pattern by walking the directories it may lead to.  `match_in_dir` takes the first
component of the pattern, up to the first `/` or `\`, goes through the entries of the directory, and
for each that the component accepts calls itself with the rest of the pattern; when there is no rest
the path is appended to the list of matches.

Strings are the bytes before the terminator.  The rest of the world is a `System`: what is behind the
terminator of a string, opening a directory, the allocator, the callback, `fnmatch`.  It has a state of
its own, so that each of its answers may depend on everything that happened before.  A directory that
is open is the entries that `readdir_r` will report and how it will end, because nothing else reads it.

A computation is `none` where the source writes outside a buffer or through a null pointer.
-/

namespace UtilWin
namespace Glob

open Directory ErrList

/-- A string, without its terminator. -/
abbrev Str := List UInt8

def slash : UInt8 := 0x2f
def backslash : UInt8 := 0x5c
def colon : UInt8 := 0x3a
def period : UInt8 := 0x2e
def question : UInt8 := 0x3f
def star : UInt8 := 0x2a
def bracketOpen : UInt8 := 0x5b
def bracketClose : UInt8 := 0x5d

def globErr : BitVec 32 := 0x01
def globMark : BitVec 32 := 0x02
def globNosort : BitVec 32 := 0x04
def globDooffs : BitVec 32 := 0x08
def globNocheck : BitVec 32 := 0x10
def globAppend : BitVec 32 := 0x20
def globNoescape : BitVec 32 := 0x40
def globPeriod : BitVec 32 := 0x80

def globNospace : ℕ := 1
def globAborted : ℕ := 2
def globNomatch : ℕ := 3

def fnmNoescape : BitVec 32 := 0x2
def fnmPeriod : BitVec 32 := 0x4

/-- `flags & flag` as a condition. -/
def has (flags flag : BitVec 32) : Bool := flags &&& flag ≠ 0

def pathMax : ℕ := 500

/-- `S_ISDIR`. -/
def sIsdir (mode : BitVec 32) : Bool := mode &&& 0xf000 = 0x4000

/-- `S_ISLNK`. -/
def sIslnk (mode : BitVec 32) : Bool := mode &&& 0xf000 = 0xa000

/-- `de->d_type << 12`. -/
def typeMode (de : Dirent) : BitVec 32 := de.dType.setWidth 32 <<< 12

/-! ## Strings -/

/-- A separator of path components. -/
def isSep (c : UInt8) : Bool := c = slash ∨ c = backslash

/-- The loop of `is_literal`. -/
def isLiteralFrom (useesc : Bool) : Bool → Str → Bool
  | _, [] => true
  | bracket, c :: p =>
    if c = backslash then if !useesc then isLiteralFrom useesc bracket p else false
    else if c = question ∨ c = star then false
    else if c = bracketOpen then isLiteralFrom useesc true p
    else if c = bracketClose then if bracket then false else isLiteralFrom useesc bracket p
    else isLiteralFrom useesc bracket p

/-- `is_literal`. -/
def isLiteral (p : Str) (useesc : Bool) : Bool := isLiteralFrom useesc false p

/-- The first component of a pattern, and behind the separators after it the rest, if there are
any. -/
def splitPattern (p : Str) : Str × Option Str :=
  if p.any isSep then
    (p.takeWhile (!isSep ·), some ((p.dropWhile (!isSep ·)).dropWhile isSep))
  else (p, none)

/-- A pattern is one component, or a component, a separator and what follows. -/
theorem splitPattern_cases (p : Str) :
    ((∀ x ∈ p, isSep x = false) ∧ splitPattern p = (p, none)) ∨
      ∃ comp sep ys, p = comp ++ sep :: ys ∧ isSep sep = true ∧ (∀ x ∈ comp, isSep x = false) ∧
        splitPattern p = (comp, some (ys.dropWhile isSep)) := by
  cases h : p.any isSep with
  | false =>
    refine Or.inl ⟨fun x hx => ?_, by rw [splitPattern, h]; rfl⟩
    simpa using List.any_eq_false.mp h x hx
  | true =>
    obtain ⟨sep, ys, hsep, hp, hdrop, hcomp⟩ := exists_split_of_any h
    refine Or.inr ⟨_, sep, ys, hp, hsep, hcomp, ?_⟩
    rw [splitPattern, if_pos h, hdrop, List.dropWhile_cons_of_pos hsep]

/-- The rest of a pattern is shorter. -/
theorem length_rest_lt {p rest : Str} (h : (splitPattern p).2 = some rest) :
    rest.length < p.length := by
  rcases splitPattern_cases p with ⟨-, hsplit⟩ | ⟨comp, sep, ys, hp, -, -, hsplit⟩
  · rw [hsplit] at h
    cases h
  · rw [hsplit] at h
    cases h
    have : (ys.dropWhile isSep).length ≤ ys.length := (List.dropWhile_sublist isSep).length_le
    rw [hp, List.length_append, List.length_cons]
    omega

/-- `strcmp(a, b) <= 0`. -/
def strcmpLe (a b : Str) : Bool := a ≤ b

/-! ## The world -/

/-- An open directory: the entries that `readdir_r` reports, and then the end, for `0`, or an error. -/
structure Stream where
  entries : List Dirent
  final : Errno

/-- What `glob` uses. -/
structure System (σ : Type) where
  opendir : Str → σ → Option Stream × σ
  errno : σ → Errno
  setErrno : Errno → σ → σ
  /-- `st_mode`, if `stat` succeeds. -/
  stat : Str → σ → Option (BitVec 32) × σ
  /-- The callback, unless it is null, and whether it returns something other than `0`. -/
  errfunc : Option (Str → Errno → σ → Bool × σ)
  /-- Whether `malloc` or `realloc` of so many bytes succeeds. -/
  malloc : ℕ → σ → Bool × σ
  /-- Whether `fnmatch` returns `0`. -/
  fnmatch : Str → Str → BitVec 32 → Bool
  /-- The bytes behind the terminator of a string. -/
  past : Str → ℕ → UInt8
  /-- The string that starts three bytes after the start of one that is shorter. -/
  overrun : Str → Str
  /-- `st_mode` in a `struct stat` that was not filled. -/
  junkMode : BitVec 32

/-- The world, and the matches so far. -/
structure State (σ : Type) where
  world : σ
  found : List Str

/-- A buffer for names: its size, and whether there is one. -/
structure Namebuf where
  size : ℕ
  valid : Bool

section

variable {σ : Type} (sys : System σ)

/-- `s[k]`, wherever that is. -/
def charAt (s : Str) (k : ℕ) : UInt8 :=
  if h : k < s.length then s[k] else if k = s.length then 0 else sys.past s (k - s.length - 1)

/-- The callback, or `ignore_err`. -/
def callErrfunc (path : Str) (err : Errno) (w : σ) : Bool × σ :=
  match sys.errfunc with
  | some errfunc => errfunc path err w
  | none => (false, w)

/-- `append`, and whether it succeeds. -/
def append (name : Str) (len : ℕ) (mark : Bool) (st : State σ) : Option (Bool × State σ) :=
  let r := sys.malloc (16 + len + 1) st.world
  if !r.1 then some (false, { st with world := r.2 })
  else
    let name := if mark then name ++ [slash] else name
    -- the name starts at offset 8, and the terminator follows it
    if 8 + name.length + 1 ≤ 16 + len + 1 then some (true, ⟨r.2, st.found ++ [name]⟩) else none

/-- `l`: the length of the directory string, or `2` for what looks like a drive and its root. -/
def prefixLength (d : Str) : ℕ :=
  if charAt sys d 1 = colon ∧ charAt sys d 3 = 0 then 2 else d.length

variable (flags : BitVec 32)

/-- `fnm_flags`. -/
def fnmFlags : BitVec 32 :=
  (if has flags globNoescape then fnmNoescape else 0) |||
    if !has flags globPeriod then fnmPeriod else 0

/-- The entry is passed over: the component does not accept it, or it is not a directory where one is
needed, or it is `.` or `..` and only `GLOB_PERIOD` made the component accept it. -/
def passesOver (comp : Str) (more : Bool) (de : Dirent) : Bool :=
  let literal := isLiteral comp (!has flags globNoescape)
  (!literal && !sys.fnmatch comp de.dName (fnmFlags flags)) ||
    (literal && comp ≠ de.dName) ||
    (more && de.dType ≠ 0 && !sIsdir (typeMode de) && !sIslnk (typeMode de)) ||
    (more && has flags globPeriod && (de.dName = [period] || de.dName = [period, period]) &&
      !sys.fnmatch comp de.dName (fnmFlags flags ||| fnmPeriod))

/-- Make room in the buffer for a name behind a directory string of length `l`. -/
def grow (l : ℕ) (de : Dirent) (nb : Namebuf) (st : State σ) : Namebuf × State σ :=
  let need := l + de.dReclen.toNat + 2
  if need > nb.size then
    let r := sys.malloc need st.world
    (⟨need, r.1⟩, { st with world := r.2 })
  else (nb, st)

/-- The path of an entry, written into the buffer unless the directory string is empty. -/
def entryPath (d : Str) (l : ℕ) (de : Dirent) (nb : Namebuf) : Option Str :=
  if d ≠ [] then
    if nb.valid ∧ l ≤ d.length ∧ l + 1 + de.dName.length + 1 ≤ nb.size then
      some (d.take l ++ slash :: de.dName)
    else none
  else some de.dName

/-- Whether a match gets a `/`, from the type of the entry or from `stat`. -/
def markOf (name : Str) (de : Dirent) (st : State σ) : Bool × State σ :=
  if has flags globMark then
    if de.dType ≠ 0 ∧ !sIslnk (typeMode de) then (sIsdir (typeMode de), st)
    else
      let r := sys.stat name st.world
      (sIsdir (r.1.getD sys.junkMode), { st with world := r.2 })
  else (false, st)

/-- The body of the loop over the entries, with the recursive call, if there is more of the pattern,
as an argument.  The result is `0` or what is returned at once. -/
def onEntry (d : Str) (l : ℕ) (comp : Str) (walk : Option (Str → State σ → Option (ℕ × State σ)))
    (de : Dirent) (nb : Namebuf) (st : State σ) : Option (ℕ × Namebuf × State σ) := do
  let (nb, st) := grow sys l de nb st
  if passesOver sys flags comp walk.isSome de then some (0, nb, st)
  else
    let name ← entryPath d l de nb
    match walk with
    | some walk =>
      let (error, st) ← walk name st
      some (error, nb, st)
    | none =>
      let (mark, st) := markOf sys flags name de st
      let (ok, st) ← append sys name (l + de.dReclen.toNat + 1) mark st
      some (if ok then 0 else globNospace, nb, st)

/-- The loop over the entries. -/
def overEntries (body : Dirent → Namebuf → State σ → Option (ℕ × Namebuf × State σ)) :
    List Dirent → Namebuf → State σ → Option (ℕ × State σ)
  | [], _, st => some (0, st)
  | de :: entries, nb, st => do
    let (error, nb, st) ← body de nb st
    if error ≠ 0 then some (error, st) else overEntries body entries nb st

/-- The end of a walk that met an error: the callback and `GLOB_ERR` decide. -/
def report (d : Str) (error : Errno) (st : State σ) : ℕ × State σ :=
  let r := callErrfunc sys d error st.world
  (if r.1 || has flags globErr then globAborted else 0, { st with world := r.2 })

/-- `match_in_dir`, with the recursive calls as an argument. -/
def inDir (d comp : Str) (walk : Option (Str → State σ → Option (ℕ × State σ))) (st : State σ) :
    Option (ℕ × State σ) :=
  let l := prefixLength sys d
  let r := sys.opendir (if d ≠ [] then d else [period]) st.world
  let st := { st with world := r.2 }
  match r.1 with
  | none =>
    let error := sys.errno st.world
    if error = ENOTDIR then some (0, st)
    else if error = EACCES ∧ comp = [] then
      let r := sys.stat d st.world
      let st := { st with world := r.2 }
      if r.1.any sIsdir then do
        let (ok, st) ← append sys d l (l ≠ 0) st
        some (if ok then 0 else globNospace, st)
      else some (report sys flags d error st)
    else some (report sys flags d error st)
  | some stream =>
    if comp = [] then do
      let (ok, st) ← append sys d l (l ≠ 0) st
      some (if ok then 0 else globNospace, st)
    else do
      let (error, st) ← overEntries (onEntry sys flags d l comp walk) stream.entries ⟨0, false⟩ st
      if error ≠ 0 then some (error, st)
      else if stream.final ≠ 0 then
        some (report sys flags d stream.final
          { st with world := sys.setErrno stream.final st.world })
      else some (0, st)

/-- `match_in_dir`. -/
def matchInDir (d p : Str) (st : State σ) : Option (ℕ × State σ) :=
  match _h : (splitPattern p).2 with
  | some rest => inDir sys flags d (splitPattern p).1 (some fun name => matchInDir name rest) st
  | none => inDir sys flags d (splitPattern p).1 none st
termination_by p.length
decreasing_by exact length_rest_lt (by assumption)

theorem matchInDir_of_none {d p comp : Str} (st : State σ) (h : splitPattern p = (comp, none)) :
    matchInDir sys flags d p st = inDir sys flags d comp none st := by
  rw [matchInDir]
  split
  · next rest hrest =>
    rw [h] at hrest
    cases hrest
  · rw [h]

theorem matchInDir_of_some {d p comp rest : Str} (st : State σ)
    (h : splitPattern p = (comp, some rest)) :
    matchInDir sys flags d p st =
      inDir sys flags d comp (some fun name => matchInDir sys flags name rest) st := by
  rw [matchInDir]
  split
  · next rest' hrest =>
    rw [h] at hrest
    cases hrest
    rw [h]
  · next hrest =>
    rw [h] at hrest
    cases hrest

/-- `glob_t`, with a null pointer as `none`. -/
structure GlobT where
  glPathc : ℕ
  glPathv : List (Option Str)
  glOffs : ℕ

/-- The drive, if the pattern names one, and the rest of the pattern. -/
def splitDrive (pat : Str) : Str × Str :=
  if charAt sys pat 1 = colon then
    let p := if 3 ≤ pat.length then pat.drop 3 else sys.overrun pat
    (if pat = [] then [] else [charAt sys pat 0, colon, slash], p.dropWhile isSep)
  else ([], pat)

/-- The end of `glob`: the matches go behind what is in `gl_pathv`, sorted among themselves. -/
def store (offs : ℕ) (g : GlobT) (error : ℕ) (st : State σ) : ℕ × GlobT × σ :=
  let cnt := st.found.length
  let matched := if has flags globNosort then st.found else st.found.mergeSort strcmpLe
  let r := sys.malloc ((offs + (if has flags globAppend then g.glPathc else 0) + cnt + 1) * 8)
    st.world
  if !r.1 then (globNospace, if has flags globAppend then g else { g with glPathv := [] }, r.2)
  else
    let old := if has flags globAppend then g.glPathv.take (offs + g.glPathc)
      else List.replicate offs none
    (error, { g with glPathc := g.glPathc + cnt, glPathv := old ++ matched.map some ++ [none] }, r.2)

/-- `glob`. -/
def glob (pat : Str) (g : GlobT) (w : σ) : Option (ℕ × GlobT × σ) :=
  let offs := if has flags globDooffs then g.glOffs else 0
  let (d, p) := splitDrive sys pat
  let g := if !has flags globAppend then ⟨0, [], offs⟩ else g
  if p.length > pathMax then some (globNospace, g, w)
  else do
    let (error, st) ← if pat ≠ [] then matchInDir sys flags d p ⟨w, []⟩ else some (0, ⟨w, []⟩)
    if error = globNospace then some (error, g, st.world)
    else if st.found = [] then
      if has flags globNocheck then
        let (ok, st) ← append sys pat pat.length false st
        if !ok then some (globNospace, g, st.world) else some (store sys flags offs g error st)
      else some (globNomatch, g, st.world)
    else some (store sys flags offs g error st)

end

end Glob
end UtilWin
