import UtilWin.Library.Play
import UtilWin.Regex.Search

/-!
# The script of a search

Where the directories stay as they are, what `match_in_dir` does next depends on what it is told on the
way only in so far as it may be stopped: by the allocator, by the callback, or by a write through a null
pointer.  So its course is a list that can be written down beforehand, the `script`, and what comes of
it is what comes of playing the list (`follows_matchInDir`).

A `Scene` is what is there while the list is played.  Besides the world and the matches these are the
buffers for names, one for each directory that is being read, as nothing but their being there or not.
Two things are kept in it that the code does not know: whether a buffer was ever asked for in vain, and
whether an error was met at which the search is to stop.  What is an error is for the `Forest` to say;
`match_in_dir` goes by `errno`, which may be older than the failure.
-/

namespace UtilWin
namespace Glob

open Directory ErrList

/-! ## Acts -/

/-- What there is to open, by the names that `opendir` is given.  An entry covers its name, which has
no terminator inside. -/
structure Forest where
  opens : Str → Option Stream
  /-- What is wrong with a name as a directory, whether or not anybody is told: `0` if nothing is,
  `ENOTDIR` if it is none, and otherwise why it may not be opened. -/
  fault : Str → Errno
  fault_ne : ∀ name, opens name = none → fault name ≠ 0
  covered : ∀ name, ∀ stream ∈ opens name, ∀ de ∈ stream.entries,
    de.dName.length ≤ de.dReclen.toNat
  noZero : ∀ name, ∀ stream ∈ opens name, ∀ de ∈ stream.entries, 0 ∉ de.dName

/-- What `match_in_dir` does, one thing at a time. -/
inductive Act
  /-- `opendir`. -/
  | opened (name : Str)
  /-- `d` was not opened; `ended` if nothing is left of the pattern. -/
  | refused (d : Str) (ended : Bool) (l : ℕ) (fault : Errno)
  /-- The loop over the entries begins, without a buffer for names. -/
  | enter
  /-- `realloc` of the buffer. -/
  | room (size : ℕ)
  /-- A path is written into the buffer. -/
  | write
  /-- `append`, with a `/` if `mark` says so, or if it leaves it to `stat`. -/
  | hit (size : ℕ) (name : Str) (mark : Option Bool)
  /-- The loop is over. -/
  | leave
  /-- `d` could not be read to its end. -/
  | unread (d : Str) (error : Errno) (fault : Errno)

/-- What stops a search. -/
inductive Ending
  | nospace
  | aborted
  deriving DecidableEq

/-- What `match_in_dir` returns. -/
def code : Option Ending → ℕ
  | none => 0
  | some .nospace => globNospace
  | some .aborted => globAborted

/-- What is there while a search goes on. -/
structure Scene (σ : Type) where
  /-- Whether there is a buffer, for each directory that is being read, the innermost first. -/
  buffers : List Bool
  /-- A buffer was asked for in vain. -/
  lost : Bool
  /-- A directory error was met at which the callback or `GLOB_ERR` wants the search to stop. -/
  due : Bool
  world : σ
  found : List Str

/-- What `match_in_dir` knows of it. -/
def Scene.state {σ : Type} (s : Scene σ) : State σ := ⟨s.world, s.found⟩

section

variable {σ : Type} (sys : System σ) (flags : BitVec 32)

/-- The directories are those of `forest`, whatever happens. -/
def Stands (forest : Forest) : Prop := ∀ name w, (sys.opendir name w).1 = forest.opens name

/-- A match is put on the list, if there is memory. -/
def put (size : ℕ) (path : Str) (s : Scene σ) : Option Ending × Scene σ :=
  let r := sys.malloc size s.world
  if r.1 then (none, { s with world := r.2, found := s.found ++ [path] })
  else (some .nospace, { s with world := r.2 })

/-- Where `d` is not opened, `error` says that this is no directory error: `d` is no directory, or it
is one that may not be read where nothing is to be looked for in it. -/
def excused (d : Str) (ended : Bool) (error : Errno) (w : σ) : Bool :=
  error = ENOTDIR || (error = EACCES && ended && (sys.stat d w).1.any sIsdir)

/-- The callback is told, and the search is aborted if it or `GLOB_ERR` wants it; `isError` if there is
a directory error behind it. -/
def complain (isError : Bool) (d : Str) (error : Errno) (s : Scene σ) : Option Ending × Scene σ :=
  let r := callErrfunc sys d error s.world
  let stop := r.1 || has flags globErr
  (if stop then some .aborted else none, { s with world := r.2, due := s.due || (isError && stop) })

/-- The search goes on without telling anybody; `isError` if there is a directory error behind it. -/
def overlook (isError : Bool) (s : Scene σ) : Scene σ :=
  { s with due := s.due || (isError && has flags globErr) }

/-- `name`, with a `/` if it is marked. -/
def markedName (name : Str) (mark : Bool) : Str := name ++ if mark then [slash] else []

/-- What comes of one act. -/
def perform : Act → Scene σ → Option (Option Ending × Scene σ)
  | .opened name, s => some (none, { s with world := (sys.opendir name s.world).2 })
  | .refused d ended l fault, s =>
    let isError := !excused sys d ended fault s.world
    let error := sys.errno s.world
    if error = ENOTDIR then some (none, overlook flags isError s)
    else if error = EACCES ∧ ended then
      let r := sys.stat d s.world
      let s := { s with world := r.2 }
      -- a directory that may not be read is there all the same
      if r.1.any sIsdir then
        some (put sys (16 + l + 1) (markedName d (l ≠ 0)) (overlook flags isError s))
      else some (complain sys flags isError d error s)
    else some (complain sys flags isError d error s)
  | .enter, s => some (none, { s with buffers := false :: s.buffers })
  | .room size, s =>
    let r := sys.malloc size s.world
    some (none,
      { s with buffers := r.1 :: s.buffers.tail, lost := s.lost || !r.1, world := r.2 })
  | .write, s => if s.buffers.head? = some true then some (none, s) else none
  | .hit size name (some mark), s => some (put sys size (markedName name mark) s)
  | .hit size name none, s =>
    let r := sys.stat name s.world
    some (put sys size (markedName name (sIsdir (r.1.getD sys.junkMode))) { s with world := r.2 })
  | .leave, s => some (none, { s with buffers := s.buffers.tail })
  | .unread d error fault, s =>
    some (complain sys flags (fault ≠ ENOTDIR) d error
      { s with world := sys.setErrno error s.world })

/-! ## Scripts -/

/-- The size of the buffer that an entry needs behind a directory string of length `l`. -/
def roomFor (l : ℕ) (de : Dirent) : ℕ := l + de.dReclen.toNat + 2

/-- What is known of the `/` of a match without asking `stat`. -/
def markFor (de : Dirent) : Option Bool :=
  if has flags globMark then
    if de.dType ≠ 0 ∧ !sIslnk (typeMode de) then some (sIsdir (typeMode de)) else none
  else some false

/-- What is done for an entry once there is room for it. -/
def acceptScript (d comp : Str) (walk : Option (Str → List Act)) (de : Dirent) : List Act :=
  if passesOver sys flags comp walk.isSome de then []
  else
    (if d ≠ [] then [.write] else []) ++
    match walk with
    | some walk => walk (pathIn sys d de)
    | none =>
      [.hit (16 + (prefixLength sys d + de.dReclen.toNat + 1) + 1) (pathIn sys d de)
        (markFor flags de)]

/-- What is done for one entry, with a buffer of the given size. -/
def entryScript (d comp : Str) (walk : Option (Str → List Act)) (de : Dirent) (size : ℕ) :
    List Act :=
  (if roomFor (prefixLength sys d) de > size then [.room (roomFor (prefixLength sys d) de)]
    else []) ++ acceptScript sys flags d comp walk de

/-- What is done for the entries of a directory, one after the other. -/
def loopScript (l : ℕ) (body : Dirent → ℕ → List Act) : List Dirent → ℕ → List Act
  | [], _ => []
  | de :: entries, size => body de size ++ loopScript l body entries (max size (roomFor l de))

variable (forest : Forest)

/-- What is done for one directory. -/
def dirScript (d comp : Str) (walk : Option (Str → List Act)) : List Act :=
  let l := prefixLength sys d
  .opened (openName d) ::
    match forest.opens (openName d) with
    | none => [.refused d (comp = []) l (forest.fault (openName d))]
    | some stream =>
      if comp = [] then [.hit (16 + l + 1) d (some (l ≠ 0))]
      else
        .enter :: (loopScript l (entryScript sys flags d comp walk) stream.entries 0 ++
          .leave :: if stream.final ≠ 0 then [.unread d stream.final (forest.fault (openName d))]
            else [])

/-- The script of the search from `d` with `p`. -/
def script (d p : Str) : List Act :=
  match _h : (splitPattern p).2 with
  | some rest => dirScript sys flags forest d (splitPattern p).1 (some fun name => script name rest)
  | none => dirScript sys flags forest d (splitPattern p).1 none
termination_by p.length
decreasing_by exact length_rest_lt (by assumption)

theorem script_of_none {d p : Str} (h : (splitPattern p).2 = none) :
    script sys flags forest d p = dirScript sys flags forest d (splitPattern p).1 none := by
  rw [script]
  split
  · next rest hrest =>
    rw [h] at hrest
    cases hrest
  · rfl

theorem script_of_some {d p rest : Str} (h : (splitPattern p).2 = some rest) :
    script sys flags forest d p = dirScript sys flags forest d (splitPattern p).1
      (some fun name => script sys flags forest name rest) := by
  rw [script]
  split
  · next rest' hrest =>
    rw [h] at hrest
    cases hrest
    rfl
  · next hrest =>
    rw [h] at hrest
    cases hrest

end

/-! ## One act and one part of the code -/

section

variable {σ : Type} {sys : System σ} {flags : BitVec 32}

/-- What `match_in_dir` sees of an outcome. -/
def outcome (r : Option Ending × Scene σ) : ℕ × State σ := (code r.1, r.2.state)

theorem code_some_ne (v : Ending) : code (some v) ≠ 0 := by
  cases v <;> decide

theorem code_eq_nospace {v : Option Ending} : code v = globNospace ↔ v = some .nospace := by
  rcases v with _ | _ | _ <;> simp [code, globNospace, globAborted]

@[simp] theorem put_buffers (size : ℕ) (path : Str) (s : Scene σ) :
    (put sys size path s).2.buffers = s.buffers := by
  rw [put]
  split_ifs <;> rfl

@[simp] theorem complain_buffers (isError : Bool) (d : Str) (error : Errno) (s : Scene σ) :
    (complain sys flags isError d error s).2.buffers = s.buffers := rfl

/-- `append`, when there is room for the name in what it asks for. -/
theorem append_eq_put {name : Str} {len : ℕ} (mark : Bool) (s : Scene σ)
    (hlen : name.length ≤ len + 7) :
    ((append sys name len mark s.state).bind fun r =>
        some (if r.1 then 0 else globNospace, r.2)) =
      some (outcome (put sys (16 + len + 1) (markedName name mark) s)) := by
  have hfits : 8 + (markedName name mark).length + 1 ≤ 16 + len + 1 := by
    rw [markedName, List.length_append]
    cases mark <;> simp <;> omega
  have hname : (if mark then name ++ [slash] else name) = markedName name mark := by
    cases mark
    · exact (List.append_nil name).symm
    · rfl
  show (append sys name len mark ⟨s.world, s.found⟩).bind _ = _
  rw [append, put]
  dsimp only
  rw [hname, if_pos hfits]
  by_cases hmem : (sys.malloc (16 + len + 1) s.world).1 = true
  · rw [if_neg (fun h => by rw [hmem] at h; cases h), if_pos hmem]
    rfl
  · rw [if_pos (by rw [Bool.eq_false_iff.mpr hmem]; rfl), if_neg hmem]
    rfl

theorem report_eq_complain (isError : Bool) (d : Str) (error : Errno) (s : Scene σ) :
    report sys flags d error s.state = outcome (complain sys flags isError d error s) := by
  show report sys flags d error ⟨s.world, s.found⟩ = _
  rw [report, complain]
  dsimp only
  split_ifs <;> rfl

/-- A search that follows a script: it ends as the script does, and when nothing stops it the buffers
are what they were. -/
structure Follows (sys : System σ) (flags : BitVec 32) (run : State σ → Option (ℕ × State σ))
    (t : List Act) : Prop where
  eq : ∀ s : Scene σ, run s.state = (play (perform sys flags) t s).map outcome
  balanced : ∀ s s', play (perform sys flags) t s = some (none, s') → s'.buffers = s.buffers

/-- The same of the body of the loop, which has the buffer on top. -/
structure FollowsBody (sys : System σ) (flags : BitVec 32)
    (body : Namebuf → State σ → Option (ℕ × Namebuf × State σ)) (t : ℕ → List Act) (need : ℕ) :
    Prop where
  eq : ∀ nb s bs, s.buffers = nb.valid :: bs →
    (body nb s.state).map (fun r => (r.1, r.2.2)) =
      (play (perform sys flags) (t nb.size) s).map outcome
  next : ∀ nb s bs s', s.buffers = nb.valid :: bs →
    play (perform sys flags) (t nb.size) s = some (none, s') →
      ∃ nb', body nb s.state = some (0, nb', s'.state) ∧ nb'.size = max nb.size need ∧
        s'.buffers = nb'.valid :: bs

/-- **The loop follows the script of its entries.** -/
theorem follows_overEntries {body : Dirent → Namebuf → State σ → Option (ℕ × Namebuf × State σ)}
    {t : Dirent → ℕ → List Act} {l : ℕ} {entries : List Dirent}
    (h : ∀ de ∈ entries, FollowsBody sys flags (body de) (t de) (roomFor l de))
    {nb : Namebuf} {s : Scene σ} {bs : List Bool} (hs : s.buffers = nb.valid :: bs) :
    overEntries body entries nb s.state =
        (play (perform sys flags) (loopScript l t entries nb.size) s).map outcome ∧
      ∀ s', play (perform sys flags) (loopScript l t entries nb.size) s = some (none, s') →
        s'.buffers.tail = bs := by
  induction entries generalizing nb s with
  | nil =>
    refine ⟨rfl, fun s' hs' => ?_⟩
    cases hs'
    rw [hs]
    rfl
  | cons de entries ih =>
    have hde := h de List.mem_cons_self
    have ih := fun {nb' : Namebuf} {s' : Scene σ} (hs' : s'.buffers = nb'.valid :: bs) =>
      ih (fun de' hde' => h de' (List.mem_cons_of_mem _ hde')) hs'
    have heq := hde.eq nb s bs hs
    rw [overEntries, loopScript]
    cases hplay : play (perform sys flags) (t de nb.size) s with
    | none =>
      rw [hplay, Option.map_none, Option.map_eq_none_iff] at heq
      rw [heq, play_append, hplay]
      exact ⟨rfl, fun s' hs' => by cases hs'⟩
    | some r =>
      obtain ⟨_ | v, s₁⟩ := r
      · -- the entry is dealt with, and the others follow
        obtain ⟨nb', hbody, hsize, hbuf⟩ := hde.next nb s bs s₁ hs hplay
        rw [hbody, play_append_of_next hplay, ← hsize]
        exact ih hbuf
      · rw [hplay, Option.map_some, Option.map_eq_some_iff] at heq
        obtain ⟨⟨e, nb', st'⟩, hbody, hout⟩ := heq
        cases hout
        rw [hbody, play_append, hplay]
        exact ⟨if_pos (code_some_ne v), fun s' hs' => by cases hs'⟩

/-- The buffer grows when it has to. -/
theorem play_grow (l : ℕ) (de : Dirent) (nb : Namebuf) {s : Scene σ} {bs : List Bool}
    (hs : s.buffers = nb.valid :: bs) :
    ∃ s₁ : Scene σ, play (perform sys flags)
        (if roomFor l de > nb.size then [.room (roomFor l de)] else []) s = some (none, s₁) ∧
      s₁.buffers = (grow sys l de nb s.state).1.valid :: bs ∧
      (grow sys l de nb s.state).2 = s₁.state ∧
      (grow sys l de nb s.state).1.size = max nb.size (roomFor l de) := by
  rw [grow, ← roomFor]
  dsimp only
  split_ifs with hneed
  · refine ⟨_, play_singleton .., ?_, rfl, ?_⟩
    · rw [hs]
      rfl
    · exact (max_eq_right (Nat.le_of_lt hneed)).symm
  · exact ⟨s, rfl, hs, rfl, (max_eq_left (Nat.le_of_not_lt hneed)).symm⟩

/-- A match with the mark that `match_in_dir` finds for it. -/
theorem perform_hit {name : Str} (de : Dirent) {len : ℕ} (s : Scene σ)
    (hlen : name.length ≤ len + 7) :
    ∃ r, perform sys flags (.hit (16 + len + 1) name (markFor flags de)) s = some r ∧
      r.2.buffers = s.buffers ∧
      ((append sys name len (markOf sys flags name de s.state).1
          (markOf sys flags name de s.state).2).bind fun r =>
        some (if r.1 then 0 else globNospace, r.2)) = some (outcome r) := by
  rw [markOf, markFor]
  split_ifs with hmark htype
  · exact ⟨_, rfl, put_buffers .., append_eq_put _ s hlen⟩
  · exact ⟨_, rfl, put_buffers ..,
      append_eq_put _ { s with world := (sys.stat name s.world).2 } hlen⟩
  · exact ⟨_, rfl, put_buffers .., append_eq_put _ s hlen⟩

/-- The path of an entry is written, or there is no buffer to write it to. -/
theorem play_write {d : Str} {de : Dirent} {nb : Namebuf} {s : Scene σ} {bs : List Bool}
    (hs : s.buffers = nb.valid :: bs) (hroom : roomFor (prefixLength sys d) de ≤ nb.size)
    (hlen : de.dName.length ≤ de.dReclen.toNat) (t : List Act) :
    play (perform sys flags) ((if d ≠ [] then [.write] else []) ++ t) s =
      (entryPath d (prefixLength sys d) de nb).bind fun _ => play (perform sys flags) t s := by
  by_cases hd : d = []
  · rw [if_neg (fun h => h hd), entryPath, if_neg (fun h => h hd)]
    rfl
  · rw [if_pos hd]
    cases hvalid : nb.valid with
    | true =>
      have hwrite : perform sys flags .write s = some (none, s) := by
        rw [perform, hs, hvalid, List.head?_cons, if_pos rfl]
      rw [entryPath_eq_pathIn hvalid hroom hlen]
      exact play_cons_of_next hwrite t
    | false =>
      have hwrite : perform sys flags .write s = none := by
        rw [perform, hs, hvalid, List.head?_cons, if_neg (by simp)]
      have hpath : entryPath d (prefixLength sys d) de nb = none := by
        rw [entryPath, if_pos hd, if_neg]
        rintro ⟨h, -⟩
        rw [hvalid] at h
        cases h
      rw [hpath]
      exact play_cons_of_none hwrite t

/-- What happens to an entry once there is room for it. -/
theorem onEntry_eq_play {d comp : Str} {walk : Option (Str → State σ → Option (ℕ × State σ))}
    {t : Option (Str → List Act)} {de : Dirent}
    (h : Option.Rel (fun f t => Follows sys flags (f (pathIn sys d de)) (t (pathIn sys d de)))
      walk t)
    (hlen : de.dName.length ≤ de.dReclen.toNat) {nb nb₁ : Namebuf} {st : State σ} {s : Scene σ}
    {bs : List Bool} (hgrow : grow sys (prefixLength sys d) de nb st = (nb₁, s.state))
    (hs : s.buffers = nb₁.valid :: bs) (hroom : roomFor (prefixLength sys d) de ≤ nb₁.size) :
    onEntry sys flags d (prefixLength sys d) comp walk de nb st =
        (play (perform sys flags) (acceptScript sys flags d comp t de) s).map
          (fun r => (code r.1, nb₁, r.2.state)) ∧
      ∀ s', play (perform sys flags) (acceptScript sys flags d comp t de) s = some (none, s') →
        s'.buffers = s.buffers := by
  have hsome : walk.isSome = t.isSome := by cases h <;> rfl
  rw [onEntry, hgrow, acceptScript.eq_def, ← hsome]
  dsimp only
  by_cases hpass : passesOver sys flags comp walk.isSome de = true
  · rw [if_pos hpass, if_pos hpass]
    refine ⟨rfl, fun s' hs' => ?_⟩
    cases hs'
    rfl
  rw [if_neg hpass, if_neg hpass, play_write hs hroom hlen]
  cases hpath : entryPath d (prefixLength sys d) de nb₁ with
  | none => exact ⟨rfl, fun s' hs' => by cases hs'⟩
  | some name =>
    rw [pathIn_of_entryPath hpath]
    simp only [Option.bind_eq_bind, Option.bind_some]
    cases h with
    | some hrel =>
      refine ⟨?_, fun s' hs' => hrel.balanced s s' hs'⟩
      dsimp only
      rw [hrel.eq s, Option.bind_map, Option.map_eq_bind]
      rfl
    | none =>
      have hpath_le : (pathIn sys d de).length ≤ prefixLength sys d + de.dReclen.toNat + 1 + 7 :=
        Nat.le_add_right_of_le (length_pathIn_le hlen)
      obtain ⟨r, hperform, hbuf, happ⟩ := @perform_hit _ sys flags _ de _ s hpath_le
      dsimp only
      rw [play_singleton, hperform]
      refine ⟨?_, fun s' hs' => ?_⟩
      · obtain ⟨⟨ok, st'⟩, happend, hout⟩ := Option.bind_eq_some_iff.mp happ
        rw [happend]
        have hout : (if ok then 0 else globNospace, st') = outcome r := Option.some.inj hout
        exact congrArg (fun q : ℕ × State σ => some (q.1, nb₁, q.2)) hout
      · cases hs'
        exact hbuf

/-- **The body of the loop follows the script of the entry.** -/
theorem followsBody_onEntry {d comp : Str} {walk : Option (Str → State σ → Option (ℕ × State σ))}
    {t : Option (Str → List Act)} {de : Dirent}
    (h : Option.Rel (fun f t => Follows sys flags (f (pathIn sys d de)) (t (pathIn sys d de)))
      walk t)
    (hlen : de.dName.length ≤ de.dReclen.toNat) :
    FollowsBody sys flags (onEntry sys flags d (prefixLength sys d) comp walk de)
      (entryScript sys flags d comp t de) (roomFor (prefixLength sys d) de) := by
  have hgrown : ∀ (nb : Namebuf) (s : Scene σ) (bs : List Bool), s.buffers = nb.valid :: bs →
      ∃ (nb₁ : Namebuf) (s₁ : Scene σ), s₁.buffers = nb₁.valid :: bs ∧
        nb₁.size = max nb.size (roomFor (prefixLength sys d) de) ∧
        play (perform sys flags) (entryScript sys flags d comp t de nb.size) s =
          play (perform sys flags) (acceptScript sys flags d comp t de) s₁ ∧
        grow sys (prefixLength sys d) de nb s.state = (nb₁, s₁.state) := by
    intro nb s bs hs
    obtain ⟨s₁, hplay, hbuf, hstate, hsize⟩ := play_grow (prefixLength sys d) de nb hs
    exact ⟨_, s₁, hbuf, hsize, play_append_of_next hplay _, Prod.ext rfl hstate⟩
  constructor
  · intro nb s bs hs
    obtain ⟨nb₁, s₁, hbuf, hsize, hplay, hgrow⟩ := hgrown nb s bs hs
    rw [(onEntry_eq_play h hlen hgrow hbuf (by omega)).1, hplay, Option.map_map]
    rfl
  · intro nb s bs s' hs hs'
    obtain ⟨nb₁, s₁, hbuf, hsize, hplay, hgrow⟩ := hgrown nb s bs hs
    obtain ⟨heq, hkept⟩ := onEntry_eq_play h hlen hgrow hbuf (by omega)
    rw [hplay] at hs'
    refine ⟨nb₁, ?_, hsize, (hkept s' hs').trans hbuf⟩
    rw [heq, hs']
    rfl

/-! ## A directory -/

/-- **A directory that is not opened.** -/
theorem inDir_of_refused {d comp : Str} {walk : Option (Str → State σ → Option (ℕ × State σ))}
    (hd : Terminated d) (fault : Errno) {s : Scene σ}
    (hopen : (sys.opendir (openName d) s.world).1 = none) :
    ∃ r, perform sys flags (.refused d (comp = []) (prefixLength sys d) fault)
        { s with world := (sys.opendir (openName d) s.world).2 } = some r ∧
      r.2.buffers = s.buffers ∧ inDir sys flags d comp walk s.state = some (outcome r) := by
  rw [inDir, ← openName, perform]
  dsimp only [Scene.state]
  rw [hopen]
  dsimp only
  simp only [decide_eq_true_eq]
  generalize (sys.opendir (openName d) s.world).2 = w
  generalize (!excused sys d (decide (comp = [])) fault w) = isError
  split_ifs with hnotdir hacces hdir
  · exact ⟨_, rfl, rfl, rfl⟩
  · exact ⟨_, rfl, put_buffers .., append_eq_put _
      (overlook flags isError ⟨s.buffers, s.lost, s.due, _, s.found⟩) hd.length_le⟩
  · exact ⟨_, rfl, rfl, congrArg some
      (report_eq_complain isError d _ ⟨s.buffers, s.lost, s.due, (sys.stat d w).2, s.found⟩)⟩
  · exact ⟨_, rfl, rfl, congrArg some
      (report_eq_complain isError d _ ⟨s.buffers, s.lost, s.due, w, s.found⟩)⟩

/-- The end of a directory that is read. -/
theorem play_leave (d : Str) (final fault : Errno) (s : Scene σ) :
    ∃ r, play (perform sys flags) (.leave :: if final ≠ 0 then [.unread d final fault] else []) s =
        some r ∧ r.2.buffers = s.buffers.tail ∧
      outcome r = if final ≠ 0 then
          report sys flags d final { s.state with world := sys.setErrno final s.world }
        else (0, s.state) := by
  have hleave : perform sys flags .leave s = some (none, { s with buffers := s.buffers.tail }) := rfl
  rw [play_cons_of_next hleave]
  split_ifs with hfinal
  · refine ⟨_, play_singleton .., complain_buffers .., ?_⟩
    exact (report_eq_complain _ d final
      ⟨s.buffers.tail, s.lost, s.due, sys.setErrno final s.world, s.found⟩).symm
  · exact ⟨_, rfl, rfl, rfl⟩

/-- **A directory that is read.** -/
theorem inDir_of_stream {d comp : Str} {walk : Option (Str → State σ → Option (ℕ × State σ))}
    {t : Option (Str → List Act)} {stream : Stream} (fault : Errno) {s : Scene σ}
    (hcomp : comp ≠ []) (hopen : (sys.opendir (openName d) s.world).1 = some stream)
    (hbody : ∀ de ∈ stream.entries,
      FollowsBody sys flags (onEntry sys flags d (prefixLength sys d) comp walk de)
        (entryScript sys flags d comp t de) (roomFor (prefixLength sys d) de)) :
    let scene := { s with world := (sys.opendir (openName d) s.world).2 }
    let acts := Act.enter :: (loopScript (prefixLength sys d) (entryScript sys flags d comp t)
      stream.entries 0 ++
        .leave :: if stream.final ≠ 0 then [.unread d stream.final fault] else [])
    inDir sys flags d comp walk s.state = (play (perform sys flags) acts scene).map outcome ∧
      ∀ s', play (perform sys flags) acts scene = some (none, s') → s'.buffers = s.buffers := by
  rw [inDir, ← openName]
  dsimp only [Scene.state]
  rw [hopen]
  dsimp only
  rw [if_neg hcomp]
  generalize (sys.opendir (openName d) s.world).2 = w
  have henter : perform sys flags .enter ⟨s.buffers, s.lost, s.due, w, s.found⟩ =
      some (none, ⟨false :: s.buffers, s.lost, s.due, w, s.found⟩) := rfl
  obtain ⟨hloop, hrest⟩ := follows_overEntries hbody
    (show (Scene.mk (false :: s.buffers) s.lost s.due w s.found).buffers =
      (⟨0, false⟩ : Namebuf).valid :: s.buffers from rfl)
  rw [play_cons_of_next henter, play_append]
  change overEntries _ _ _ ⟨w, s.found⟩ = _ at hloop
  rw [hloop]
  cases hplay : play (perform sys flags) (loopScript (prefixLength sys d)
    (entryScript sys flags d comp t) stream.entries 0)
    ⟨false :: s.buffers, s.lost, s.due, w, s.found⟩ with
  | none => exact ⟨rfl, fun s' hs' => by cases hs'⟩
  | some r =>
    obtain ⟨_ | v, s₁⟩ := r
    · obtain ⟨r, hleave, hbuf, hout⟩ := @play_leave _ sys flags d stream.final fault s₁
      simp only [Option.map_some, Option.bind_eq_bind, Option.bind_some, Option.isSome_none,
        Bool.false_eq_true, if_false]
      rw [hleave]
      refine ⟨?_, fun s' hs' => ?_⟩
      · rw [Option.map_some, hout]
        have hzero : ¬(outcome (none, s₁)).1 ≠ 0 := fun h => h rfl
        rw [if_neg hzero]
        split_ifs <;> rfl
      · cases hs'
        rw [hbuf, hrest s₁ hplay]
    · have hstop : (outcome (some v, s₁)).1 ≠ 0 := code_some_ne v
      refine ⟨?_, fun s' hs' => by cases hs'⟩
      simp only [Option.map_some, Option.bind_eq_bind, Option.bind_some, if_pos hstop,
        Option.isSome_some, if_true]

/-- **A call of `match_in_dir` follows its script**, if the calls that it makes do. -/
theorem follows_inDir {forest : Forest} (hstands : Stands sys forest) {d comp : Str}
    (hd : Terminated d) {walk : Option (Str → State σ → Option (ℕ × State σ))}
    {t : Option (Str → List Act)}
    (h : Option.Rel (fun f t => ∀ name, Terminated name → Follows sys flags (f name) (t name))
      walk t) :
    Follows sys flags (inDir sys flags d comp walk) (dirScript sys flags forest d comp t) := by
  have hopened : ∀ s : Scene σ, perform sys flags (.opened (openName d)) s =
      some (none, { s with world := (sys.opendir (openName d) s.world).2 }) := fun _ => rfl
  rw [dirScript]
  generalize forest.fault (openName d) = fault
  cases hopen : forest.opens (openName d) with
  | none =>
    have hrefused : ∀ s : Scene σ, (sys.opendir (openName d) s.world).1 = none :=
      fun s => (hstands _ _).trans hopen
    constructor
    · intro s
      obtain ⟨r, hperform, -, hrun⟩ := @inDir_of_refused _ sys flags d comp walk hd fault s (hrefused s)
      rw [play_cons_of_next (hopened s), play_singleton, hperform, hrun, Option.map_some]
    · intro s s' hs'
      obtain ⟨r, hperform, hbuf, -⟩ := @inDir_of_refused _ sys flags d comp walk hd fault s (hrefused s)
      rw [play_cons_of_next (hopened s), play_singleton, hperform] at hs'
      cases hs'
      exact hbuf
  | some stream =>
    have hstream : ∀ s : Scene σ, (sys.opendir (openName d) s.world).1 = some stream :=
      fun s => (hstands _ _).trans hopen
    dsimp only
    by_cases hcomp : comp = []
    · rw [if_pos hcomp]
      constructor
      · intro s
        rw [play_cons_of_next (hopened s), play_singleton, inDir, ← openName]
        dsimp only [Scene.state]
        rw [hstream]
        dsimp only
        rw [if_pos hcomp]
        exact append_eq_put _ ⟨s.buffers, s.lost, s.due, _, s.found⟩ hd.length_le
      · intro s s' hs'
        rw [play_cons_of_next (hopened s), play_singleton] at hs'
        have hput := congrArg (fun r : Option Ending × Scene σ => r.2.buffers) (Option.some.inj hs')
        rw [put_buffers] at hput
        exact hput.symm
    · rw [if_neg hcomp]
      have hbody : ∀ de ∈ stream.entries,
          FollowsBody sys flags (onEntry sys flags d (prefixLength sys d) comp walk de)
            (entryScript sys flags d comp t de) (roomFor (prefixLength sys d) de) := by
        intro de hde
        have hname : Terminated (pathIn sys d de) := hd.pathIn (forest.noZero _ stream hopen de hde)
        refine followsBody_onEntry ?_ (forest.covered _ stream hopen de hde)
        cases h with
        | none => exact .none
        | some hrel => exact .some (hrel _ hname)
      constructor
      · intro s
        rw [play_cons_of_next (hopened s)]
        exact (inDir_of_stream fault hcomp (hstream s) hbody).1
      · intro s s' hs'
        rw [play_cons_of_next (hopened s)] at hs'
        exact (inDir_of_stream fault hcomp (hstream s) hbody).2 s' hs'

/-- **The search follows its script.** -/
theorem follows_matchInDir {forest : Forest} (hstands : Stands sys forest) {d : Str}
    (hd : Terminated d) (p : Str) :
    Follows sys flags (matchInDir sys flags d p) (script sys flags forest d p) := by
  induction hlen : p.length using Nat.strong_induction_on generalizing d p with
  | _ k ih =>
  cases hsplit : (splitPattern p).2 with
  | none =>
    have hrun : matchInDir sys flags d p = inDir sys flags d (splitPattern p).1 none :=
      funext fun st => matchInDir_of_none sys flags st (Prod.ext rfl hsplit)
    rw [hrun, script_of_none sys flags forest hsplit]
    exact follows_inDir hstands hd .none
  | some rest =>
    have hrun : matchInDir sys flags d p = inDir sys flags d (splitPattern p).1
        (some fun name => matchInDir sys flags name rest) :=
      funext fun st => matchInDir_of_some sys flags st (Prod.ext rfl hsplit)
    rw [hrun, script_of_some sys flags forest hsplit]
    refine follows_inDir hstands hd (.some fun name hname => ?_)
    exact ih _ (hlen ▸ length_rest_lt hsplit) hname rest rfl

/-! ## Where it ends -/

/-- An act at the end of a pattern that ends in a separator: a directory is put on the list, with a `/`
unless its prefix is empty. -/
def AtEnd (sys : System σ) : Act → Prop
  | .refused d _ l _ => l = prefixLength sys d
  | .hit _ d mark => mark = some (decide (prefixLength sys d ≠ 0))
  | _ => True

theorem mem_loopScript {l : ℕ} {body : Dirent → ℕ → List Act} {entries : List Dirent} {size : ℕ}
    {act : Act} (h : act ∈ loopScript l body entries size) : ∃ de size', act ∈ body de size' := by
  induction entries generalizing size with
  | nil => cases h
  | cons de entries ih =>
    rcases List.mem_append.mp h with h | h
    · exact ⟨de, size, h⟩
    · exact ih h

/-- With components behind it an entry does what the walk from it does. -/
theorem atEnd_of_mem_entryScript {d comp : Str} {f : Str → List Act} {de : Dirent} {size : ℕ}
    {act : Act} (hf : ∀ name, ∀ act ∈ f name, AtEnd sys act)
    (h : act ∈ entryScript sys flags d comp (some f) de size) : AtEnd sys act := by
  have hroom : ∀ n m : ℕ, act ∈ (if n > m then [Act.room n] else []) → AtEnd sys act := by
    intro n m h
    split_ifs at h
    · cases List.mem_singleton.mp h
      trivial
    · cases h
  have hwrite : act ∈ (if d ≠ [] then [Act.write] else []) → AtEnd sys act := by
    intro h
    split_ifs at h
    · cases List.mem_singleton.mp h
      trivial
    · cases h
  rcases List.mem_append.mp h with h | h
  · exact hroom _ _ h
  · rw [acceptScript] at h
    by_cases hpass : passesOver sys flags comp (some f).isSome de = true
    · rw [if_pos hpass] at h
      cases h
    · rw [if_neg hpass] at h
      rcases List.mem_append.mp h with h | h
      · exact hwrite h
      · exact hf _ act h

theorem atEnd_of_mem_dirScript {forest : Forest} {d comp : Str} {walk : Option (Str → List Act)}
    (hlast : walk = none → comp = [])
    (hwalk : ∀ f, walk = some f → ∀ name, ∀ act ∈ f name, AtEnd sys act) {act : Act}
    (h : act ∈ dirScript sys flags forest d comp walk) : AtEnd sys act := by
  rw [dirScript] at h
  rcases List.mem_cons.mp h with rfl | h
  · trivial
  cases hopen : forest.opens (openName d) with
  | none =>
    rw [hopen] at h
    cases List.mem_singleton.mp h
    rfl
  | some stream =>
    rw [hopen] at h
    dsimp only at h
    by_cases hcomp : comp = []
    · rw [if_pos hcomp] at h
      cases List.mem_singleton.mp h
      rfl
    · rw [if_neg hcomp] at h
      rcases List.mem_cons.mp h with rfl | h
      · trivial
      rcases List.mem_append.mp h with h | h
      · obtain ⟨de, size, h⟩ := mem_loopScript h
        cases walk with
        | none => exact absurd (hlast rfl) hcomp
        | some f => exact atEnd_of_mem_entryScript (hwalk f rfl) h
      · rcases List.mem_cons.mp h with rfl | h
        · trivial
        · split_ifs at h
          · cases List.mem_singleton.mp h
            trivial
          · cases h

/-- **With a pattern that ends in a separator** nothing but directories is put on the list. -/
theorem atEnd_of_mem_script {forest : Forest} {d p : Str} (hopen : endsOpen p = true) {act : Act}
    (h : act ∈ script sys flags forest d p) : AtEnd sys act := by
  induction hlen : p.length using Nat.strong_induction_on generalizing d p act with
  | _ k ih =>
  cases hsplit : (splitPattern p).2 with
  | none =>
    rw [script_of_none sys flags forest hsplit] at h
    exact atEnd_of_mem_dirScript (fun _ => comp_eq_nil_of_endsOpen hopen hsplit)
      (fun f hf => by cases hf) h
  | some rest =>
    rw [script_of_some sys flags forest hsplit] at h
    refine atEnd_of_mem_dirScript (fun hnone => by cases hnone) (fun f hf name act hact => ?_) h
    cases hf
    exact ih _ (hlen ▸ length_rest_lt hsplit) (endsOpen_of_rest hopen hsplit) hact rfl

/-- **What one act puts on the list**: nothing, or what it is told to, or a directory that may not be
read. -/
theorem found_of_perform {act : Act} {s : Scene σ} {r : Option Ending × Scene σ}
    (h : perform sys flags act s = some r) :
    r.2.found = s.found ∨ ∃ d b, r.2.found = s.found ++ [markedName d b] ∧
      ((∃ size mark, act = .hit size d mark ∧ ∀ m, mark = some m → b = m) ∨
        ∃ ended l fault, act = .refused d ended l fault ∧ b = decide (l ≠ 0) ∧
          (sys.stat d s.world).1.any sIsdir = true) := by
  have hput : ∀ (size : ℕ) (path : Str) (s : Scene σ), (put sys size path s).2.found = s.found ∨
      (put sys size path s).2.found = s.found ++ [path] := by
    intro size path s
    rw [put]
    split_ifs
    · exact Or.inr rfl
    · exact Or.inl rfl
  cases act with
  | opened name =>
    cases h
    exact Or.inl rfl
  | refused d ended l fault =>
    rw [perform] at h
    dsimp only at h
    split_ifs at h with hnotdir hacces hdir
    · cases h
      exact Or.inl rfl
    · cases h
      refine (hput _ _ _).imp id fun hfound => ⟨d, _, hfound, Or.inr ⟨ended, l, fault, rfl, rfl, hdir⟩⟩
    · cases h
      exact Or.inl rfl
    · cases h
      exact Or.inl rfl
  | enter =>
    cases h
    exact Or.inl rfl
  | room size =>
    cases h
    exact Or.inl rfl
  | write =>
    rw [perform] at h
    split_ifs at h
    cases h
    exact Or.inl rfl
  | hit size d mark =>
    cases mark with
    | some mark =>
      cases h
      refine (hput _ _ _).imp id fun hfound => ⟨d, mark, hfound, Or.inl ⟨size, _, rfl, ?_⟩⟩
      intro m hm
      exact Option.some.inj hm
    | none =>
      cases h
      refine (hput _ _ _).imp id fun hfound => ⟨d, _, hfound, Or.inl ⟨size, _, rfl, ?_⟩⟩
      intro m hm
      cases hm
  | leave =>
    cases h
    exact Or.inl rfl
  | unread d error fault =>
    cases h
    exact Or.inl rfl

/-- What was found stays found. -/
theorem mem_found_of_perform {act : Act} {s : Scene σ} {r : Option Ending × Scene σ}
    (h : perform sys flags act s = some r) {x : Str} (hx : x ∈ s.found) : x ∈ r.2.found := by
  rcases found_of_perform h with hfound | ⟨d, b, hfound, -⟩
  · rwa [hfound]
  · rw [hfound]
    exact List.mem_append_left _ hx

/-! ## With memory -/

section

variable (hmalloc : ∀ size w, (sys.malloc size w).1 = true)

include hmalloc in
/-- There is a buffer to write a path to, and it stays. -/
theorem onEntry_isSome {d comp : Str} {walk : Option (Str → State σ → Option (ℕ × State σ))}
    {de : Dirent} (hwalk : ∀ f, walk = some f → ∀ st, (f (pathIn sys d de) st).isSome = true)
    (hlen : de.dName.length ≤ de.dReclen.toNat) {nb : Namebuf} (hnb : nb.Ok) (st : State σ) :
    ∃ r, onEntry sys flags d (prefixLength sys d) comp walk de nb st = some r ∧ r.2.1.Ok := by
  have hroom := room_of_grow hmalloc (prefixLength sys d) de hnb st
  rw [onEntry]
  generalize grow sys (prefixLength sys d) de nb st = r at hroom
  obtain ⟨nb₁, st₁⟩ := r
  have hok : nb₁.Ok := fun _ => hroom.1
  dsimp only
  split_ifs with hpass
  · exact ⟨_, rfl, hok⟩
  · rw [entryPath_eq_pathIn hroom.1 hroom.2 hlen]
    cases walk with
    | some f =>
      obtain ⟨r, hr⟩ := Option.isSome_iff_exists.mp (hwalk f rfl st₁)
      simp only [Option.bind_eq_bind, Option.bind_some, hr]
      exact ⟨_, rfl, hok⟩
    | none =>
      have hfits : (pathIn sys d de).length ≤ prefixLength sys d + de.dReclen.toNat + 1 + 7 :=
        Nat.le_add_right_of_le (length_pathIn_le hlen)
      simp only [Option.bind_eq_bind, Option.bind_some, append_eq hmalloc _ _ hfits]
      exact ⟨_, rfl, hok⟩

theorem overEntries_isSome
    {body : Dirent → Namebuf → State σ → Option (ℕ × Namebuf × State σ)} {entries : List Dirent}
    (h : ∀ de ∈ entries, ∀ nb st, nb.Ok → ∃ r, body de nb st = some r ∧ r.2.1.Ok) {nb : Namebuf}
    (hnb : nb.Ok) (st : State σ) : (overEntries body entries nb st).isSome = true := by
  induction entries generalizing nb st with
  | nil => rfl
  | cons de entries ih =>
    obtain ⟨r, hr, hok⟩ := h de List.mem_cons_self nb st hnb
    rw [overEntries, hr]
    simp only [Option.bind_eq_bind, Option.bind_some]
    split_ifs
    · rfl
    · exact ih (fun de' hde' => h de' (List.mem_cons_of_mem _ hde')) hok r.2.2

include hmalloc in
theorem inDir_isSome {forest : Forest} (hstands : Stands sys forest) {d comp : Str}
    (hd : Terminated d) {walk : Option (Str → State σ → Option (ℕ × State σ))}
    (hwalk : ∀ f, walk = some f → ∀ name, Terminated name → ∀ st, (f name st).isSome = true)
    (st : State σ) : (inDir sys flags d comp walk st).isSome = true := by
  rw [inDir, ← openName]
  have hstream := hstands (openName d) st.world
  generalize sys.opendir (openName d) st.world = r at hstream
  obtain ⟨_ | stream, w⟩ := r
  · dsimp only
    split_ifs
    · rfl
    · simp only [Option.bind_eq_bind, append_eq hmalloc _ _ hd.length_le, Option.bind_some]
      rfl
    · rfl
    · rfl
  · dsimp only at hstream ⊢
    by_cases hcomp : comp = []
    · rw [if_pos hcomp]
      simp only [Option.bind_eq_bind, append_eq hmalloc _ _ hd.length_le, Option.bind_some]
      rfl
    · rw [if_neg hcomp]
      have hbody : ∀ de ∈ stream.entries, ∀ nb st, nb.Ok → ∃ r,
          onEntry sys flags d (prefixLength sys d) comp walk de nb st = some r ∧ r.2.1.Ok := by
        intro de hde nb st hnb
        exact onEntry_isSome hmalloc
          (fun f hf => hwalk f hf _ (hd.pathIn (forest.noZero _ stream hstream.symm de hde)))
          (forest.covered _ stream hstream.symm de hde) hnb st
      have hnb : Namebuf.Ok ⟨0, false⟩ := fun h => absurd rfl h
      obtain ⟨r, hr⟩ := Option.isSome_iff_exists.mp (overEntries_isSome hbody hnb ⟨w, st.found⟩)
      rw [hr]
      simp only [Option.bind_eq_bind, Option.bind_some]
      split_ifs <;> rfl

include hmalloc in
/-- **With memory nothing goes wrong.** -/
theorem matchInDir_isSome {forest : Forest} (hstands : Stands sys forest) {d : Str}
    (hd : Terminated d) (p : Str) (st : State σ) : (matchInDir sys flags d p st).isSome = true := by
  induction hlen : p.length using Nat.strong_induction_on generalizing d p st with
  | _ k ih =>
  cases hsplit : (splitPattern p).2 with
  | none =>
    rw [matchInDir_of_none sys flags st (Prod.ext rfl hsplit)]
    exact inDir_isSome hmalloc hstands hd (fun f hf => by cases hf) st
  | some rest =>
    rw [matchInDir_of_some sys flags st (Prod.ext rfl hsplit)]
    refine inDir_isSome hmalloc hstands hd (fun f hf name hname st => ?_) st
    cases hf
    exact ih _ (hlen ▸ length_rest_lt hsplit) hname rest st rfl

end

/-! ## A search as a whole -/

/-- The script of the search for a pattern. -/
def searchScript (sys : System σ) (flags : BitVec 32) (forest : Forest) (pat : Str) : List Act :=
  if pat ≠ [] then script sys flags forest (splitDrive sys pat).1 (splitDrive sys pat).2 else []

/-- How the search for a pattern goes. -/
def search (sys : System σ) (flags : BitVec 32) (forest : Forest) (pat : Str) (w : σ) :
    Option (Option Ending × Scene σ) :=
  play (perform sys flags) (searchScript sys flags forest pat) ⟨[], false, false, w, []⟩

/-- With memory the search for a pattern comes to an end. -/
theorem search_isSome (hmalloc : ∀ size w, (sys.malloc size w).1 = true) {forest : Forest}
    (hstands : Stands sys forest) (pat : Str) (w : σ) :
    ∃ r, search sys flags forest pat w = some r := by
  rw [search, searchScript]
  split_ifs with hpat
  · have hd := terminated_splitDrive sys pat
    have hfollows := @follows_matchInDir _ sys flags forest hstands _ hd (splitDrive sys pat).2
    have hsome := @matchInDir_isSome _ sys flags hmalloc forest hstands _ hd (splitDrive sys pat).2
      ⟨w, []⟩
    have heq := hfollows.eq ⟨[], false, false, w, []⟩
    change matchInDir _ _ _ _ ⟨w, []⟩ = _ at heq
    rw [heq, Option.isSome_map] at hsome
    exact Option.isSome_iff_exists.mp hsome
  · exact ⟨_, rfl⟩

/-- A call is a search and its conclusion. -/
theorem glob_eq_search {forest : Forest} (hstands : Stands sys forest) {pat : Str}
    (hshort : (splitDrive sys pat).2.length ≤ pathMax) (g : GlobT) (w : σ) :
    ∃ offs g₁, offs = (if has flags globDooffs then g.glOffs else 0) ∧
      g₁ = (if !has flags globAppend then ⟨0, [], offs⟩ else g) ∧
      glob sys flags pat g w = (search sys flags forest pat w).bind fun r =>
        conclude sys flags pat offs g₁ (code r.1) r.2.state := by
  obtain ⟨offs, g₁, hg, hoffs, hglob⟩ := glob_eq_conclude sys flags pat g w
  refine ⟨offs, g₁, hoffs, hg, ?_⟩
  have hrun : (if pat ≠ [] then
      matchInDir sys flags (splitDrive sys pat).1 (splitDrive sys pat).2 ⟨w, []⟩
      else some (0, ⟨w, []⟩)) = (search sys flags forest pat w).map outcome := by
    rw [search, searchScript]
    split_ifs with hpat
    · exact (follows_matchInDir hstands (terminated_splitDrive sys pat) _).eq
        ⟨[], false, false, w, []⟩
    · rfl
  rw [hglob, if_neg (Nat.not_lt_of_le hshort), hrun, Option.bind_map]
  rfl

end

end Glob
end UtilWin
