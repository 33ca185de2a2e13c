import UtilWin.Regex.Script

/-!
# What the return code of `glob` tells

`glob` has three bad news to tell: that memory ran out, that a directory error was not to be passed over,
and that nothing matched.  They are found out in this order of weight but not in this order of time, and
on the way to the caller they can get lost.  `match_in_dir` returns `GLOB_ABORTED`, but where it found
nothing before the error, `glob` replaces it by `GLOB_NOMATCH`, which says less.  The buffer for the names
of a directory is asked for with `realloc` and not looked at: without it `match_in_dir` writes through a
null pointer, or, if no entry is accepted before the buffer is asked for again, goes on as if nothing had
happened.  And why a name was not opened is asked of `errno`, which `opendir` leaves alone: a directory
that may not be read is passed over where `errno` was `ENOTDIR` before, and what is no directory, or is
opened although it is none, stops the search like a directory error.

The `Story` of a call is what really happened; it is read off the script of the search, without the
codes, and what a directory error is in it is for the forest to say.  `Tells` is what the code is to say
of the story, and `tellsHow_iff` when it does.
-/

namespace UtilWin
namespace Glob

open Directory ErrList

section

variable {σ : Type} (sys : System σ) (flags : BitVec 32)

/-! ## Stories -/

/-- Whether one allocation after the other succeeds. -/
def granted : List ℕ → σ → Bool
  | [], _ => true
  | size :: sizes, w => (sys.malloc size w).1 && granted sizes (sys.malloc size w).2

/-- `offs`, when `glob` is called. -/
def offsOf (g : GlobT) : ℕ := if has flags globDooffs then g.glOffs else 0

/-- The size of `gl_pathv` with `cnt` new paths. -/
def pathvSize (g : GlobT) (cnt : ℕ) : ℕ :=
  (offsOf flags g + (if has flags globAppend then g.glPathc else 0) + cnt + 1) * 8

/-- What is asked for when the search is over: a match for the pattern, if it stands for what was not
found, and `gl_pathv`. -/
def lastSizes (pat : Str) (g : GlobT) (found : List Str) : List ℕ :=
  if found = [] then
    if has flags globNocheck then [16 + pat.length + 1, pathvSize flags g 1] else []
  else [pathvSize flags g found.length]

/-- What happened in a call. -/
structure Story where
  /-- An allocation failed. -/
  starved : Bool
  /-- A directory error was met for which the callback returned something other than `0`, or
  `GLOB_ERR` is set. -/
  stopped : Bool
  /-- The paths that were found until the search ended. -/
  found : List Str

/-- What happens in a call.  Behind a pattern that is too long nothing happens at all. -/
def story (forest : Forest) (pat : Str) (g : GlobT) (w : σ) : Option Story :=
  if (splitDrive sys pat).2.length > pathMax then some ⟨false, false, []⟩
  else (search sys flags forest pat w).map fun r =>
    { starved := r.2.lost || r.1 = some .nospace ||
        !granted sys (lastSizes flags pat g r.2.found) r.2.world
      stopped := r.2.due
      found := r.2.found }

/-- What is in front of the new paths in `gl_pathv`. -/
def keptPathv (g : GlobT) : List (Option Str) :=
  if has flags globAppend then g.glPathv.take (offsOf flags g + g.glPathc)
  else List.replicate (offsOf flags g) none

/-- The code says what happened. -/
structure Tells (g g' : GlobT) (ret : ℕ) (y : Story) : Prop where
  nospace : y.starved = true → ret = globNospace
  aborted : y.starved = false → y.stopped = true → ret = globAborted
  noMatch : y.starved = false → y.stopped = false →
    (ret = globNomatch ↔ y.found = [] ∧ has flags globNocheck = false)
  zero : y.starved = false → y.stopped = false → ret = globNomatch ∨ ret = 0
  paths : y.starved = false → y.stopped = true → y.found ≠ [] →
    ∃ matched : List Str, matched.Perm y.found ∧
      g'.glPathv = keptPathv flags g ++ matched.map some ++ [none]

/-- `glob` returns, and its code says what happened. -/
def TellsHow (forest : Forest) (pat : Str) (g : GlobT) (w : σ) : Prop :=
  ∃ y ret g' w', story sys flags forest pat g w = some y ∧
    glob sys flags pat g w = some (ret, g', w') ∧ Tells flags g g' ret y

/-- Nothing gets lost on the way to the caller. -/
structure NothingLost (forest : Forest) (pat : Str) (g : GlobT) (w : σ) : Prop where
  /-- The pattern is not too long. -/
  short : (splitDrive sys pat).2.length ≤ pathMax
  /-- Nothing is written where there is no buffer, and when a buffer was asked for in vain, memory is
  also missing elsewhere. -/
  buffers : ∃ r, search sys flags forest pat w = some r ∧
    (r.2.lost = true → r.1 = some .nospace ∨
      granted sys (lastSizes flags pat g r.2.found) r.2.world = false)
  /-- Where the search is stopped and a directory error is behind it, there is a match in front of it, or
  the pattern stands for one. -/
  errors : ∀ pre act post s s', searchScript sys flags forest pat = pre ++ act :: post →
    play (perform sys flags) pre ⟨[], false, false, w, []⟩ = some (none, s) →
    perform sys flags act s = some (some .aborted, s') → s'.due = true →
      s.found ≠ [] ∨ has flags globNocheck = true
  /-- Where it is stopped and none is behind it, there is no match, or there is no memory for it. -/
  alarms : ∀ pre act post s s', searchScript sys flags forest pat = pre ++ act :: post →
    play (perform sys flags) pre ⟨[], false, false, w, []⟩ = some (none, s) →
    perform sys flags act s = some (some .aborted, s') → s'.due = false →
      (s.found = [] ∧ has flags globNocheck = false) ∨
        granted sys (lastSizes flags pat g s.found) s'.world = false
  /-- Under `GLOB_ERR` no directory error is hidden by an `errno` that says there is none, unless the
  search does not come to its end, or there is no memory for it in the end. -/
  heeded : has flags globErr = true → ∀ pre d ended l fault post s s',
    searchScript sys flags forest pat = pre ++ .refused d ended l fault :: post →
    play (perform sys flags) pre ⟨[], false, false, w, []⟩ = some (none, s) →
    excused sys d ended fault s.world = false →
    excused sys d ended (sys.errno s.world) s.world = true →
    search sys flags forest pat w = some (none, s') →
      granted sys (lastSizes flags pat g s'.found) s'.world = false

/-! ## The end of a call -/

variable {sys flags}

theorem found_of_put {size : ℕ} {path : Str} {s s' : Scene σ} {v : Ending}
    (h : some (put sys size path s) = some (some v, s')) : s'.found = s.found := by
  rw [put] at h
  split_ifs at h
  · cases h
  · cases h
    rfl

theorem found_of_complain {isError : Bool} {d : Str} {error : Errno} {s s' : Scene σ} {v : Ending}
    (h : some (complain sys flags isError d error s) = some (some v, s')) : s'.found = s.found :=
  congrArg (fun r : Option Ending × Scene σ => r.2.found) (Option.some.inj h).symm

/-- An act that stops the search finds nothing. -/
theorem found_of_stop {act : Act} {s s' : Scene σ} {v : Ending}
    (h : perform sys flags act s = some (some v, s')) : s'.found = s.found := by
  cases act with
  | opened name => cases h
  | refused d ended l fault =>
    rw [perform] at h
    dsimp only at h
    split_ifs at h
    · cases h
    · exact (found_of_put h).trans rfl
    · exact (found_of_complain h).trans rfl
    · exact found_of_complain h
  | enter => cases h
  | room size => cases h
  | write =>
    rw [perform] at h
    split_ifs at h
    cases h
  | hit size name mark =>
    cases mark with
    | some mark => exact found_of_put h
    | none => exact (found_of_put (s := { s with world := (sys.stat name s.world).2 }) h).trans rfl
  | leave => cases h
  | unread d error fault =>
    exact (found_of_complain (s := { s with world := sys.setErrno error s.world }) h).trans rfl

/-- **`gl_pathv` in the end**: the paths that were found are behind what was there. -/
theorem store_pathv {offs : ℕ} {g g₁ : GlobT} (hoffs : offs = offsOf flags g)
    (hg : g₁ = if !has flags globAppend then ⟨0, [], offs⟩ else g) (error : ℕ) (st : State σ) :
    ∃ ret g' w', store sys flags offs g₁ error st = (ret, g', w') ∧
      ((sys.malloc (pathvSize flags g st.found.length) st.world).1 = false → ret = globNospace) ∧
      ((sys.malloc (pathvSize flags g st.found.length) st.world).1 = true → ret = error ∧
        ∃ matched : List Str, matched.Perm st.found ∧
          g'.glPathv = keptPathv flags g ++ matched.map some ++ [none]) := by
  have hcount : (if has flags globAppend then g₁.glPathc else 0) =
      if has flags globAppend then g.glPathc else 0 := by
    rw [hg]
    cases has flags globAppend <;> rfl
  have hold : (if has flags globAppend then g₁.glPathv.take (offs + g₁.glPathc)
      else List.replicate offs none) = keptPathv flags g := by
    rw [hg, keptPathv, hoffs]
    cases has flags globAppend <;> rfl
  have hperm : (if has flags globNosort then st.found else st.found.mergeSort strcmpLe).Perm
      st.found := by
    split_ifs
    · exact List.Perm.refl _
    · exact List.mergeSort_perm _ _
  rw [store]
  dsimp only
  rw [hcount, hold, hoffs, ← pathvSize]
  by_cases hmem : (sys.malloc (pathvSize flags g st.found.length) st.world).1 = true
  · rw [if_neg (fun h => by rw [hmem] at h; cases h)]
    refine ⟨_, _, _, rfl, fun h => ?_, fun _ => ⟨rfl, _, hperm, rfl⟩⟩
    rw [hmem] at h
    cases h
  · rw [if_pos (by rw [Bool.eq_false_iff.mpr hmem]; rfl)]
    exact ⟨_, _, _, rfl, fun _ => rfl, fun h => absurd h hmem⟩

/-- The pattern is put on the list instead of what was not found, if there is memory. -/
theorem append_pattern (pat : Str) (s : Scene σ) :
    ∃ ok st, append sys pat pat.length false ⟨s.world, s.found⟩ = some (ok, st) ∧
      ((sys.malloc (16 + pat.length + 1) s.world).1 = false → ok = false) ∧
      ((sys.malloc (16 + pat.length + 1) s.world).1 = true → ok = true ∧
        st.world = (sys.malloc (16 + pat.length + 1) s.world).2 ∧ st.found = s.found ++ [pat]) := by
  rw [append]
  dsimp only
  by_cases hmem : (sys.malloc (16 + pat.length + 1) s.world).1 = true
  · rw [if_neg (fun h => by rw [hmem] at h; cases h), if_neg Bool.false_ne_true,
      if_pos (by omega)]
    refine ⟨true, _, rfl, fun h => ?_, fun _ => ⟨rfl, rfl, rfl⟩⟩
    rw [hmem] at h
    cases h
  · rw [if_pos (by rw [Bool.eq_false_iff.mpr hmem]; rfl)]
    exact ⟨false, _, rfl, fun _ => rfl, fun h => absurd h hmem⟩

/-- **What `glob` makes of the end of the search.** -/
theorem conclude_eq (pat : Str) {offs : ℕ} {g g₁ : GlobT} (hoffs : offs = offsOf flags g)
    (hg : g₁ = if !has flags globAppend then ⟨0, [], offs⟩ else g) {v : Option Ending}
    (hv : v ≠ some .nospace) (s : Scene σ) :
    ∃ ret g' w', conclude sys flags pat offs g₁ (code v) s.state = some (ret, g', w') ∧
      (granted sys (lastSizes flags pat g s.found) s.world = false → ret = globNospace) ∧
      (granted sys (lastSizes flags pat g s.found) s.world = true →
        ret = (if s.found = [] ∧ has flags globNocheck = false then globNomatch else code v) ∧
        (s.found ≠ [] → ∃ matched : List Str, matched.Perm s.found ∧
          g'.glPathv = keptPathv flags g ++ matched.map some ++ [none])) := by
  have hcode : code v ≠ globNospace := fun h => hv (code_eq_nospace.mp h)
  show ∃ ret g' w', conclude sys flags pat offs g₁ (code v) ⟨s.world, s.found⟩ = _ ∧ _
  rw [conclude, if_neg hcode, lastSizes]
  dsimp only
  by_cases hfound : s.found = []
  · rw [if_pos hfound, if_pos hfound]
    cases hnocheck : has flags globNocheck with
    | false =>
      rw [if_neg Bool.false_ne_true, if_neg Bool.false_ne_true]
      refine ⟨_, _, _, rfl, fun h => ?_, fun _ => ⟨?_, fun h => absurd hfound h⟩⟩
      · cases h
      · rw [if_pos ⟨hfound, rfl⟩]
    | true =>
      rw [if_pos rfl, if_pos rfl, if_neg (fun h => by cases h.2)]
      obtain ⟨ok, st, happ, hno, hyes⟩ := @append_pattern _ sys pat s
      rw [happ, Option.bind_some, granted]
      by_cases hmem : (sys.malloc (16 + pat.length + 1) s.world).1 = true
      · obtain ⟨rfl, hworld, hst⟩ := hyes hmem
        obtain ⟨ret, g', w', hstore, hno, hyes⟩ := store_pathv hoffs hg (code v) st
        have hcount : st.found.length = 1 := by rw [hst, hfound]; rfl
        rw [hcount, hworld] at hno hyes
        rw [hmem, Bool.true_and, granted, granted, Bool.and_true]
        exact ⟨ret, g', w', congrArg some hstore, hno,
          fun h => ⟨(hyes h).1, fun h => absurd hfound h⟩⟩
      · obtain rfl := hno (Bool.eq_false_iff.mpr hmem)
        rw [Bool.eq_false_iff.mpr hmem, Bool.false_and]
        exact ⟨_, _, _, rfl, fun _ => rfl, fun h => by cases h⟩
  · obtain ⟨ret, g', w', hstore, hno, hyes⟩ := store_pathv hoffs hg (code v) ⟨s.world, s.found⟩
    rw [if_neg hfound, if_neg hfound, if_neg (fun h => hfound h.1), hstore, granted, granted,
      Bool.and_true]
    exact ⟨ret, g', w', rfl, hno, fun h => ⟨(hyes h).1, fun _ => (hyes h).2⟩⟩

/-- **What a call returns**, by how its search goes. -/
theorem glob_returns {forest : Forest} (hstands : Stands sys forest) {pat : Str}
    (hshort : (splitDrive sys pat).2.length ≤ pathMax) (g : GlobT) {w : σ}
    {v : Option Ending} {s : Scene σ} (hsearch : search sys flags forest pat w = some (v, s)) :
    ∃ ret g' w', glob sys flags pat g w = some (ret, g', w') ∧
      (v = some .nospace ∨ granted sys (lastSizes flags pat g s.found) s.world = false →
        ret = globNospace) ∧
      (v ≠ some .nospace → granted sys (lastSizes flags pat g s.found) s.world = true →
        ret = (if s.found = [] ∧ has flags globNocheck = false then globNomatch else code v) ∧
        (s.found ≠ [] → ∃ matched : List Str, matched.Perm s.found ∧
          g'.glPathv = keptPathv flags g ++ matched.map some ++ [none])) := by
  obtain ⟨offs, g₁, hoffs, hg, hglob⟩ := glob_eq_search hstands hshort g w
  rw [hglob, hsearch, Option.bind_some]
  by_cases hv : v = some .nospace
  · subst hv
    refine ⟨globNospace, g₁, s.world, ?_, fun _ => rfl, fun h => absurd rfl h⟩
    rw [conclude]
    exact if_pos rfl
  · obtain ⟨ret, g', w', hend, hno, hyes⟩ := conclude_eq pat hoffs hg hv s
    exact ⟨ret, g', w', hend, fun h => h.elim (fun h => absurd h hv) hno, fun _ => hyes⟩

/-- The story of a call whose pattern is not too long. -/
theorem story_of_short {forest : Forest} {pat : Str}
    (hshort : (splitDrive sys pat).2.length ≤ pathMax) (g : GlobT) (w : σ) :
    story sys flags forest pat g w = (search sys flags forest pat w).map fun r =>
      { starved := r.2.lost || r.1 = some .nospace ||
          !granted sys (lastSizes flags pat g r.2.found) r.2.world
        stopped := r.2.due
        found := r.2.found } := by
  rw [story, if_neg (Nat.not_lt_of_le hshort)]

/-- A pattern that is too long is refused, whatever happened. -/
theorem not_tellsHow_of_long {forest : Forest} {pat : Str}
    (hlong : (splitDrive sys pat).2.length > pathMax) (g : GlobT) (w : σ) :
    ¬TellsHow sys flags forest pat g w := by
  rintro ⟨y, ret, g', w', hstory, hglob, htells⟩
  obtain ⟨offs, g₁, -, -, heq⟩ := glob_eq_conclude sys flags pat g w
  rw [heq, if_pos hlong] at hglob
  rw [story, if_pos hlong] at hstory
  cases hstory
  cases hglob
  rcases htells.zero rfl rfl with h | h <;> cases h

/-- What stops a search comes at its end. -/
theorem stops_iff {forest : Forest} {pat : Str} {w : σ} {v : Option Ending} {s : Scene σ}
    (hsearch : search sys flags forest pat w = some (v, s)) (Q : List Str → Scene σ → Prop) :
    (∀ pre act post s₁ s', searchScript sys flags forest pat = pre ++ act :: post →
        play (perform sys flags) pre ⟨[], false, false, w, []⟩ = some (none, s₁) →
        perform sys flags act s₁ = some (some .aborted, s') → Q s₁.found s') ↔
      (v = some .aborted → Q s.found s) := by
  constructor
  · rintro h rfl
    obtain ⟨pre, act, post, s₁, hscript, hpre, hstop⟩ := play_stops hsearch
    rw [found_of_stop hstop]
    exact h pre act post s₁ s hscript hpre hstop
  · intro h pre act post s₁ s' hscript hpre hstop
    rw [search, hscript, play_of_stop hpre hstop] at hsearch
    cases hsearch
    rw [← found_of_stop hstop]
    exact h rfl

/-! ## Errors that are passed over -/

theorem due_put (size : ℕ) (path : Str) (s : Scene σ) : (put sys size path s).2.due = s.due := by
  rw [put]
  split_ifs <;> rfl

/-- An error at which the search is to stop is not forgotten. -/
theorem due_of_perform {act : Act} {s : Scene σ} {r : Option Ending × Scene σ}
    (h : perform sys flags act s = some r) (hs : s.due = true) : r.2.due = true := by
  have hkept : ∀ b : Bool, (s.due || b) = true := fun b => by rw [hs, Bool.true_or]
  cases act with
  | opened name =>
    cases h
    exact hs
  | refused d ended l fault =>
    rw [perform] at h
    dsimp only at h
    split_ifs at h
    · cases h
      exact hkept _
    · cases h
      exact (due_put ..).trans (hkept _)
    · cases h
      exact hkept _
    · cases h
      exact hkept _
  | enter =>
    cases h
    exact hs
  | room size =>
    cases h
    exact hs
  | write =>
    rw [perform] at h
    split_ifs at h
    cases h
    exact hs
  | hit size name mark =>
    cases mark with
    | some mark =>
      cases h
      exact (due_put ..).trans hs
    | none =>
      cases h
      exact (due_put ..).trans hs
  | leave =>
    cases h
    exact hs
  | unread d error fault =>
    cases h
    exact hkept _

/-- A complaint that does not stop the search leaves no error behind at which it is to stop. -/
theorem due_of_complain {isError : Bool} {d : Str} {error : Errno} {s s' : Scene σ}
    (h : some (complain sys flags isError d error s) = some (none, s')) : s'.due = s.due := by
  cases hstop : (callErrfunc sys d error s.world).1 || has flags globErr with
  | true => simp [complain, hstop] at h
  | false =>
    simp only [complain, hstop, Bool.and_false, Bool.or_false] at h
    cases h
    rfl

/-- **How an error is passed over** at which the search is to stop. -/
theorem hidden_of_due {act : Act} {s s' : Scene σ} (h : perform sys flags act s = some (none, s'))
    (hs : s.due = false) (hs' : s'.due = true) :
    ∃ d ended l fault, act = .refused d ended l fault ∧ has flags globErr = true ∧
      excused sys d ended fault s.world = false ∧
      excused sys d ended (sys.errno s.world) s.world = true := by
  -- without a change there is nothing to show
  have hsame : s'.due ≠ s.due := by
    rw [hs, hs']
    exact Bool.noConfusion
  cases act with
  | opened name =>
    cases h
    exact absurd rfl hsame
  | refused d ended l fault =>
    refine ⟨d, ended, l, fault, rfl, ?_⟩
    have hover : ∀ w : σ, (overlook flags (!excused sys d ended fault s.world)
        { s with world := w }).due = true →
        has flags globErr = true ∧ excused sys d ended fault s.world = false := by
      intro w hdue
      rw [overlook] at hdue
      dsimp only at hdue
      rw [hs, Bool.false_or, Bool.and_eq_true, Bool.not_eq_true'] at hdue
      exact ⟨hdue.2, hdue.1⟩
    rw [perform] at h
    dsimp only at h
    split_ifs at h with hnotdir hacces hdir
    · cases h
      obtain ⟨herr, hfault⟩ := hover s.world hs'
      refine ⟨herr, hfault, ?_⟩
      rw [excused, decide_eq_true hnotdir, Bool.true_or]
    · have hdue : s'.due = (overlook flags (!excused sys d ended fault s.world)
          { s with world := (sys.stat d s.world).2 }).due :=
        (congrArg (fun r : Option Ending × Scene σ => r.2.due) (Option.some.inj h)).symm.trans
          (due_put ..)
      obtain ⟨herr, hfault⟩ := hover _ (hdue.symm.trans hs')
      refine ⟨herr, hfault, ?_⟩
      rw [excused, decide_eq_true hacces.1, hacces.2, hdir, Bool.and_true, Bool.and_true,
        Bool.or_true]
    · exact absurd (due_of_complain h) hsame
    · exact absurd (due_of_complain h) hsame
  | enter =>
    cases h
    exact absurd rfl hsame
  | room size =>
    cases h
    exact absurd rfl hsame
  | write =>
    rw [perform] at h
    split_ifs at h
    cases h
    exact absurd rfl hsame
  | hit size name mark =>
    cases mark with
    | some mark => exact absurd ((congrArg (fun r : Option Ending × Scene σ => r.2.due)
        (Option.some.inj h)).symm.trans (due_put ..)) hsame
    | none => exact absurd ((congrArg (fun r : Option Ending × Scene σ => r.2.due)
        (Option.some.inj h)).symm.trans (due_put ..)) hsame
  | leave =>
    cases h
    exact absurd rfl hsame
  | unread d error fault =>
    exact absurd (due_of_complain (s := { s with world := sys.setErrno error s.world }) h) hsame

/-- An error that `errno` hides is passed over. -/
theorem due_of_hidden {d : Str} {ended : Bool} {l : ℕ} {fault : Errno} {s : Scene σ}
    (herr : has flags globErr = true) (hfault : excused sys d ended fault s.world = false)
    (herrno : excused sys d ended (sys.errno s.world) s.world = true) :
    ∃ r, perform sys flags (.refused d ended l fault) s = some r ∧ r.2.due = true := by
  have hover : ∀ w : σ, (overlook flags (!excused sys d ended fault s.world)
      { s with world := w }).due = true := by
    intro w
    rw [overlook, hfault, herr]
    exact Bool.or_true _
  rw [perform]
  dsimp only
  split_ifs with hnotdir hacces hdir
  · exact ⟨_, rfl, hover s.world⟩
  · exact ⟨_, rfl, (due_put ..).trans (hover _)⟩
  · rw [excused, decide_eq_false hnotdir, Bool.eq_false_iff.mpr hdir, Bool.and_false,
      Bool.false_or] at herrno
    cases herrno
  · rw [excused, decide_eq_false hnotdir, Bool.false_or, Bool.and_eq_true, Bool.and_eq_true,
      decide_eq_true_eq] at herrno
    exact absurd herrno.1 hacces

/-- **A search that came to its end** has passed over an error at which it was to stop exactly where
`errno` hid one from `GLOB_ERR`. -/
theorem heeded_iff {forest : Forest} {pat : Str} {w : σ} {v : Option Ending} {s : Scene σ}
    (hsearch : search sys flags forest pat w = some (v, s)) (P : Scene σ → Prop) :
    (has flags globErr = true → ∀ pre d ended l fault post s₁ s',
        searchScript sys flags forest pat = pre ++ .refused d ended l fault :: post →
        play (perform sys flags) pre ⟨[], false, false, w, []⟩ = some (none, s₁) →
        excused sys d ended fault s₁.world = false →
        excused sys d ended (sys.errno s₁.world) s₁.world = true →
        search sys flags forest pat w = some (none, s') → P s') ↔
      (v = none → s.due = true → P s) := by
  constructor
  · rintro h rfl hdue
    obtain ⟨pre, act, post, s₁, ⟨v₁, s₂⟩, hscript, hpre, hact, hs₁, hs₂, hlast⟩ :=
      play_gains (P := fun s : Scene σ => s.due = true) hsearch Bool.false_ne_true hdue
    cases v₁ with
    | some v₁ => cases hlast rfl
    | none =>
      obtain ⟨d, ended, l, fault, rfl, herr, hfault, herrno⟩ :=
        hidden_of_due hact (Bool.eq_false_iff.mpr hs₁) hs₂
      exact h herr pre d ended l fault post s₁ s hscript hpre hfault herrno hsearch
  · intro h herr pre d ended l fault post s₁ s' hscript hpre hfault herrno hend
    rw [hsearch] at hend
    cases hend
    obtain ⟨r, hact, hr⟩ := due_of_hidden (l := l) herr hfault herrno
    rw [search, hscript] at hsearch
    exact h rfl (play_reaches (P := fun s : Scene σ => s.due = true)
      (fun act s r hact hs => due_of_perform hact hs) hpre hact hr hsearch)

/-! ## What the code tells -/

/-- Without `GLOB_NOCHECK` nothing is asked for when nothing was found. -/
theorem found_of_not_granted {pat : Str} {g : GlobT} {found : List Str} {w : σ}
    (h : granted sys (lastSizes flags pat g found) w = false) :
    found ≠ [] ∨ has flags globNocheck = true := by
  rw [lastSizes] at h
  split_ifs at h with hfound hnocheck
  · exact Or.inr hnocheck
  · cases h
  · exact Or.inl hfound

/-- Where memory is missing there is nothing else to tell. -/
theorem tells_starved (g g' : GlobT) (stopped : Bool) (found : List Str) :
    Tells flags g g' globNospace ⟨true, stopped, found⟩ :=
  ⟨fun _ => rfl, fun h => (by cases h), fun h => (by cases h), fun h => (by cases h),
    fun h => (by cases h)⟩

/-- A search that came to its end. -/
theorem tells_ended {g g' : GlobT} {ret : ℕ} {found : List Str}
    (hret : ret = if found = [] ∧ has flags globNocheck = false then globNomatch else 0) :
    Tells flags g g' ret ⟨false, false, found⟩ := by
  refine ⟨fun h => (by cases h), fun _ h => (by cases h), fun _ _ => ?_, fun _ _ => ?_,
    fun _ h => (by cases h)⟩
  · rw [hret]
    split_ifs with h
    · exact ⟨fun _ => h, fun _ => rfl⟩
    · exact ⟨fun h0 => (by cases h0), fun h1 => absurd h1 h⟩
  · rw [hret]
    split_ifs
    · exact Or.inl rfl
    · exact Or.inr rfl

/-- A search that was stopped by a directory error. -/
theorem tells_stopped_iff {g g' : GlobT} {ret : ℕ} {found : List Str}
    (hret : ret = if found = [] ∧ has flags globNocheck = false then globNomatch else globAborted)
    (hpaths : found ≠ [] → ∃ matched : List Str, matched.Perm found ∧
      g'.glPathv = keptPathv flags g ++ matched.map some ++ [none]) :
    Tells flags g g' ret ⟨false, true, found⟩ ↔ found ≠ [] ∨ has flags globNocheck = true := by
  constructor
  · intro h
    have haborted := h.aborted rfl rfl
    rw [hret] at haborted
    split_ifs at haborted with hnone
    · cases haborted
    · rwa [not_and_or, Bool.not_eq_false] at hnone
  · intro h
    have hsome : ¬(found = [] ∧ has flags globNocheck = false) := by
      rw [not_and_or, Bool.not_eq_false]
      exact h
    rw [if_neg hsome] at hret
    exact ⟨fun h => (by cases h), fun _ _ => hret, fun _ h => (by cases h),
      fun _ h => (by cases h), fun _ _ => hpaths⟩

/-- A search that was stopped, but by no directory error. -/
theorem tells_alarmed_iff {g g' : GlobT} {ret : ℕ} {found : List Str}
    (hret : ret = if found = [] ∧ has flags globNocheck = false then globNomatch else globAborted) :
    Tells flags g g' ret ⟨false, false, found⟩ ↔ found = [] ∧ has flags globNocheck = false := by
  constructor
  · intro h
    by_contra hsome
    rw [if_neg hsome] at hret
    rcases h.zero rfl rfl with hzero | hzero
    · rw [hret] at hzero
      cases hzero
    · rw [hret] at hzero
      cases hzero
  · intro h
    refine tells_ended ?_
    rw [hret, if_pos h, if_pos h]

/-- When a code tells the story of a search that ends with `v`. -/
theorem tells_iff {g g' : GlobT} {ret : ℕ} {v : Option Ending} {found : List Str}
    {lost due enough : Bool} (hscarce : enough = false → found ≠ [] ∨ has flags globNocheck = true)
    (hno : v = some .nospace ∨ enough = false → ret = globNospace)
    (hyes : v ≠ some .nospace → enough = true →
      ret = (if found = [] ∧ has flags globNocheck = false then globNomatch else code v) ∧
      (found ≠ [] → ∃ matched : List Str, matched.Perm found ∧
        g'.glPathv = keptPathv flags g ++ matched.map some ++ [none])) :
    Tells flags g g' ret ⟨lost || v = some .nospace || !enough, due, found⟩ ↔
      (lost = true → v = some .nospace ∨ enough = false) ∧
      (v = some .aborted → due = true → found ≠ [] ∨ has flags globNocheck = true) ∧
      (v = some .aborted → due = false →
        (found = [] ∧ has flags globNocheck = false) ∨ enough = false) ∧
      (v = none → due = true → enough = false) := by
  by_cases hdry : v = some .nospace ∨ enough = false
  · -- memory is missing, and `glob` says so
    have hstarved : (lost || decide (v = some .nospace) || !enough) = true := by
      rcases hdry with h | h <;> simp [h]
    have henough : v ≠ some .nospace → enough = false := hdry.resolve_left
    rw [hstarved, hno hdry]
    refine ⟨fun _ => ⟨fun _ => hdry, fun hv _ => hscarce (henough ?_),
      fun hv _ => Or.inr (henough ?_), fun hv _ => henough ?_⟩, fun _ => tells_starved g g' due found⟩
    all_goals
      rw [hv]
      exact fun h => by cases h
  obtain ⟨hv, henough⟩ := not_or.mp hdry
  have henough : enough = true := Bool.not_eq_false enough ▸ henough
  obtain ⟨hret, hpaths⟩ := hyes hv henough
  have hstarved : (lost || decide (v = some .nospace) || !enough) = lost := by simp [hv, henough]
  rw [hstarved]
  cases lost with
  | true =>
    -- memory is missing, and `glob` does not know
    constructor
    · intro h
      have hnospace := h.nospace rfl
      rw [hret] at hnospace
      split_ifs at hnospace
      · cases hnospace
      · exact absurd (code_eq_nospace.mp hnospace) hv
    · exact fun h => absurd (h.1 rfl) hdry
  | false =>
    rcases v with _ | _ | _
    · cases due with
      | false => exact ⟨fun _ => ⟨fun h => (by cases h), fun h => (by cases h), fun h => (by cases h),
          fun _ h => (by cases h)⟩, fun _ => tells_ended hret⟩
      | true =>
        -- an error was passed over
        constructor
        · intro h
          have haborted := h.aborted rfl rfl
          rw [hret] at haborted
          split_ifs at haborted <;> cases haborted
        · exact fun h => absurd (Or.inr (h.2.2.2 rfl rfl)) hdry
    · exact absurd rfl hv
    · cases due with
      | false =>
        refine (tells_alarmed_iff hret).trans ⟨fun h => ⟨fun h => (by cases h),
          fun _ h => (by cases h), fun _ _ => Or.inl h, fun h => (by cases h)⟩, fun h => ?_⟩
        exact (h.2.2.1 rfl rfl).resolve_right fun henough => hdry (Or.inr henough)
      | true => exact (tells_stopped_iff hret hpaths).trans ⟨fun h => ⟨fun h => (by cases h),
          fun _ _ => h, fun _ h => (by cases h), fun h => (by cases h)⟩, fun h => h.2.1 rfl rfl⟩

/-- **When nothing gets lost**, by how the search goes. -/
theorem nothingLost_iff {forest : Forest} {pat : Str}
    (hshort : (splitDrive sys pat).2.length ≤ pathMax) {g : GlobT} {w : σ} {v : Option Ending}
    {s : Scene σ} (hsearch : search sys flags forest pat w = some (v, s)) :
    NothingLost sys flags forest pat g w ↔
      (s.lost = true → v = some .nospace ∨
        granted sys (lastSizes flags pat g s.found) s.world = false) ∧
      (v = some .aborted → s.due = true → s.found ≠ [] ∨ has flags globNocheck = true) ∧
      (v = some .aborted → s.due = false → (s.found = [] ∧ has flags globNocheck = false) ∨
        granted sys (lastSizes flags pat g s.found) s.world = false) ∧
      (v = none → s.due = true → granted sys (lastSizes flags pat g s.found) s.world = false) := by
  have herrors := stops_iff hsearch fun found s' =>
    s'.due = true → found ≠ [] ∨ has flags globNocheck = true
  have halarms := stops_iff hsearch fun found s' =>
    s'.due = false → (found = [] ∧ has flags globNocheck = false) ∨
      granted sys (lastSizes flags pat g found) s'.world = false
  have hheeded := heeded_iff hsearch fun s' =>
    granted sys (lastSizes flags pat g s'.found) s'.world = false
  constructor
  · rintro ⟨-, ⟨r, hr, hbuf⟩, h₁, h₂, h₃⟩
    rw [hsearch] at hr
    cases hr
    exact ⟨hbuf, herrors.mp h₁, halarms.mp h₂, hheeded.mp h₃⟩
  · rintro ⟨hbuf, h₁, h₂, h₃⟩
    exact ⟨hshort, ⟨_, hsearch, hbuf⟩, herrors.mpr h₁, halarms.mpr h₂, hheeded.mpr h₃⟩

/-- **What the return code tells.** -/
theorem tellsHow_iff {forest : Forest} (hstands : Stands sys forest) (flags : BitVec 32)
    (pat : Str) (g : GlobT) (w : σ) :
    TellsHow sys flags forest pat g w ↔ NothingLost sys flags forest pat g w := by
  by_cases hlong : (splitDrive sys pat).2.length > pathMax
  · exact ⟨fun h => absurd h (not_tellsHow_of_long hlong g w),
      fun h => absurd h.short (Nat.not_le_of_lt hlong)⟩
  have hshort := Nat.le_of_not_lt hlong
  have hstory := @story_of_short _ sys flags forest pat hshort g w
  cases hsearch : search sys flags forest pat w with
  | none =>
    -- a write through a null pointer
    rw [hsearch] at hstory
    constructor
    · rintro ⟨y, -, -, -, hy, -⟩
      rw [hstory] at hy
      cases hy
    · rintro ⟨-, ⟨r, hr, -⟩, -, -, -⟩
      rw [hsearch] at hr
      cases hr
  | some r =>
    obtain ⟨v, s⟩ := r
    rw [hsearch] at hstory
    obtain ⟨ret, g', w', hglob, hno, hyes⟩ := glob_returns hstands hshort g hsearch
    have hiff : TellsHow sys flags forest pat g w ↔
        Tells flags g g' ret
          { starved := s.lost || v = some .nospace ||
              !granted sys (lastSizes flags pat g s.found) s.world
            stopped := s.due
            found := s.found } := by
      constructor
      · rintro ⟨y, ret', g'', w'', hy, hglob', htells⟩
        rw [hstory] at hy
        rw [hglob] at hglob'
        cases hy
        cases hglob'
        exact htells
      · exact fun h => ⟨_, ret, g', w', hstory, hglob, h⟩
    rw [hiff, nothingLost_iff hshort hsearch]
    exact tells_iff found_of_not_granted hno hyes

end

/-! ## Two directories -/

/-- A world with memory, without a callback, in which a directory that is not opened may not be read. -/
def worldOf (forest : Forest) : System Unit where
  opendir name w := (forest.opens name, w)
  errno _ := EACCES
  setErrno _ w := w
  stat _ w := (none, w)
  errfunc := none
  malloc _ w := (true, w)
  fnmatch _ _ _ := false
  past _ _ := 0
  overrun p := p
  junkMode := 0

/-- Nothing may be read. -/
def lockedForest : Forest where
  opens _ := none
  fault _ := EACCES
  fault_ne _ _ := by decide
  covered _ _ hstream := by cases hstream
  noZero _ _ hstream := by cases hstream

/-- The file `b` in a directory that cannot be read to its end. -/
def brokenForest : Forest where
  opens name := if name = [period] then some ⟨[⟨0, 13, dtReg, [0x62]⟩], EIO⟩ else none
  fault name := if name = [period] then 0 else ENOENT
  fault_ne name hnone := by
    split_ifs at hnone ⊢
    decide
  covered name stream hstream de hde := by
    split_ifs at hstream
    · cases hstream
      cases List.mem_singleton.mp hde
      decide
    · cases hstream
  noZero name stream hstream de hde := by
    split_ifs at hstream
    · cases hstream
      cases List.mem_singleton.mp hde
      decide
    · cases hstream

theorem search_locked : search (worldOf lockedForest) globErr lockedForest [0x61] () =
    some (some .aborted, ⟨[], false, true, (), []⟩) := by
  rw [search, searchScript, if_pos (by decide), script_of_none _ _ _ rfl]
  rfl

theorem search_broken : search (worldOf brokenForest) globErr brokenForest [0x62] () =
    some (some .aborted, ⟨[], false, true, (), [[0x62]]⟩) := by
  rw [search, searchScript, if_pos (by decide), script_of_none _ _ _ rfl]
  rfl

/-- The current directory may not be read, `GLOB_ERR` is set, and the code is `GLOB_NOMATCH`. -/
theorem not_tellsHow_locked :
    ¬TellsHow (worldOf lockedForest) globErr lockedForest [0x61] ⟨0, [], 0⟩ () := by
  have hshort : (splitDrive (worldOf lockedForest) [0x61]).2.length ≤ pathMax := by decide
  rintro ⟨y, ret, g', w', hstory, hglob, htells⟩
  rw [story_of_short hshort, search_locked] at hstory
  cases hstory
  obtain ⟨ret₁, g₁, w₁, hglob₁, -, hyes⟩ :=
    glob_returns (fun _ _ => rfl) hshort ⟨0, [], 0⟩ search_locked
  rw [hglob₁] at hglob
  cases hglob
  have haborted := htells.aborted rfl rfl
  rw [(hyes (by decide) rfl).1] at haborted
  exact absurd haborted (by decide)

/-- With a match in front of the error the code is `GLOB_ABORTED`. -/
theorem tellsHow_broken :
    TellsHow (worldOf brokenForest) globErr brokenForest [0x62] ⟨0, [], 0⟩ () := by
  have hshort : (splitDrive (worldOf brokenForest) [0x62]).2.length ≤ pathMax := by decide
  refine (tellsHow_iff (fun _ _ => rfl) globErr [0x62] ⟨0, [], 0⟩ ()).mpr
    ((nothingLost_iff hshort search_broken).mpr ⟨fun h => ?_, fun _ _ => ?_, fun _ h => ?_,
      fun h => ?_⟩)
  · cases h
  · exact Or.inl (List.cons_ne_nil _ _)
  · cases h
  · cases h

end Glob
end UtilWin
