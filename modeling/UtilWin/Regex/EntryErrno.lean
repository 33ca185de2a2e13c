import UtilWin.Dirent.OpenContract
import UtilWin.Regex.Script

/-!
# `glob` and the `errno` it finds

`match_in_dir` tells by `errno` why a directory could not be opened, and passes over it in silence for
`ENOTDIR`.  Because `opendir` leaves `errno` alone when `NtCreateFile` fails, what it looks at is what
was there before: the value that the caller of `glob` had, until a directory cannot be read to its end
or `stat` fails.  And because `opendir` opens files, a file may be taken for a directory at the end of
a pattern.

A `Setting` is what `glob` finds when it is called: which names can be opened, as what, and what is
listed there.  A `Call` is everything else that it is given, but for `errno`.  The script of the search
tells what comes before what.  Two plays of it that differ in `errno` cannot be told apart if nothing is
refused before `errno` is written (`play_forget`), and the callback is told the `errno` of the caller if
something is (`shows_play`).
-/

namespace UtilWin
namespace Glob

open Directory ErrList

/-! ## The setting -/

/-- What `glob` finds, by the names of things.  A name is opened if `NtCreateFile` says so, and what
is opened may be a directory or not; `listing` is what `readdir_r` reports then.  An entry covers its
name, which has no terminator inside, and `stat` tells directories from other things.  There is
memory. -/
structure Setting where
  status : Str → NtStatus
  isDirectory : Str → Bool
  listing : Str → Stream
  stat : Str → Except Errno (BitVec 32)
  fnmatch : Str → Str → BitVec 32 → Bool
  past : Str → ℕ → UInt8
  overrun : Str → Str
  junkMode : BitVec 32
  covered : ∀ name, ∀ de ∈ (listing name).entries, de.dName.length ≤ de.dReclen.toNat
  noZero : ∀ name, ∀ de ∈ (listing name).entries, 0 ∉ de.dName
  stat_dir : ∀ d mode, stat d = .ok mode → sIsdir mode = true → isDirectory (openName d) = true

/-- What changes during a call: `errno`, the calls of the callback so far, and what the callback keeps
for itself. -/
structure Process (C : Type) where
  errno : Errno
  calls : List (Str × Errno)
  own : C

/-- A callback: it is told the path and the error, and may also read and write `errno`. -/
abbrev Callback (C : Type) := Str → Errno → Errno × C → Bool × (Errno × C)

/-- `ignore_err`, which is called instead of a null pointer. -/
def ignoreErr : Callback Unit := fun _ _ own => (false, own)

/-- A call of `glob`, but for the `errno` that it finds. -/
structure Call (C : Type) where
  pat : Str
  flags : BitVec 32
  errfunc : Callback C
  own : C
  g : GlobT

namespace Setting

variable (v : Setting) {C : Type}

/-- The world of `glob` in this setting. -/
def system (errfunc : Callback C) : System (Process C) where
  opendir name w :=
    let r := opendirErrno (v.status name) true w.errno
    (r.1.map fun _ => v.listing name, { w with errno := r.2 })
  errno w := w.errno
  setErrno e w := { w with errno := e }
  stat path w :=
    match v.stat path with
    | .ok mode => (some mode, w)
    | .error e => (none, { w with errno := e })
  errfunc := some fun path err w =>
    let r := errfunc path err (w.errno, w.own)
    (r.1, ⟨r.2.1, w.calls ++ [(path, err)], r.2.2⟩)
  malloc _ w := (true, w)
  fnmatch := v.fnmatch
  past := v.past
  overrun := v.overrun
  junkMode := v.junkMode

/-- The world with `ignore_err`. -/
abbrev plain : System (Process Unit) := v.system ignoreErr

/-- The directories of the setting.  One that is not opened may not be read. -/
def forest : Forest where
  opens name := if failed (v.status name) then none else some (v.listing name)
  fault name := if v.isDirectory name then EACCES else ENOTDIR
  fault_ne name _ := by split_ifs <;> decide
  covered name stream hstream := by
    split_ifs at hstream
    · cases hstream
    · cases hstream
      exact v.covered name
  noZero name stream hstream := by
    split_ifs at hstream
    · cases hstream
    · cases hstream
      exact v.noZero name

/-- `opendir` leaves everything as it is, and the directories are those of the setting. -/
theorem opendir_eq (errfunc : Callback C) (name : Str) (w : Process C) :
    (v.system errfunc).opendir name w = (v.forest.opens name, w) := by
  cases hfailed : failed (v.status name) <;>
    simp [system, forest, opendirErrno, Directory.opendir, hfailed]

theorem stands (errfunc : Callback C) : Stands (v.system errfunc) v.forest :=
  fun name w => congrArg Prod.fst (v.opendir_eq errfunc name w)

/-- The script of a call; behind a pattern that is too long there is none. -/
def acts (c : Call C) : List Act :=
  if (splitDrive v.plain c.pat).2.length ≤ pathMax then
    searchScript (v.system c.errfunc) c.flags v.forest c.pat
  else []

/-- What comes of the first acts of a call. -/
def playFrom (c : Call C) (errno : Errno) (t : List Act) :
    Option (Option Ending × Scene (Process C)) :=
  play (perform (v.system c.errfunc) c.flags) t ⟨[], false, false, ⟨errno, [], c.own⟩, []⟩

/-- The call, when it finds `errno`. -/
def run (c : Call C) (errno : Errno) : Option (ℕ × GlobT × Process C) :=
  glob (v.system c.errfunc) c.flags c.pat c.g ⟨errno, [], c.own⟩

end Setting

/-! ## What is wanted -/

section

variable {C : Type}

/-- What a caller can tell of a call of `glob`: what it returns, the paths, and the calls of the
callback. -/
def observed (r : Option (ℕ × GlobT × Process C)) : Option (ℕ × GlobT × List (Str × Errno)) :=
  r.map fun r => (r.1, r.2.1, r.2.2.calls)

/-- The directory that a path with a slash behind it names. -/
def dirOf (x : Str) : Str := openName x.dropLast

/-- What a directory is put on the list as. -/
def marked (v : Setting) (d : Str) : Str := markedName d (prefixLength v.plain d ≠ 0)

/-- What a call may return though it is no directory: what was there before, if it is to be kept, and
the pattern, if it stands for what was not found. -/
def Call.Allows (c : Call C) (x : Str) : Prop :=
  (has c.flags globAppend = true ∧ some x ∈ c.g.glPathv) ∨
    (has c.flags globNocheck = true ∧ x = c.pat)

/-- **What relies on `opendir`**: two runs that differ in the `errno` they find cannot be told apart,
and a pattern that ends in a separator returns directories only. -/
structure Relies (v : Setting) (c : Call C) : Prop where
  agree : ∀ errno errno', observed (v.run c errno) = observed (v.run c errno')
  directories : endsOpen c.pat = true → ∀ errno ret g' w', v.run c errno = some (ret, g', w') →
    ∀ x, some x ∈ g'.glPathv → c.Allows x ∨ v.isDirectory (dirOf x) = true

namespace Setting

variable (v : Setting)

/-- The act writes to `errno`, whatever was there. -/
def writesErrno : Act → Bool
  | .unread _ _ _ => true
  | .hit _ name none =>
    match v.stat name with
    | .ok _ => false
    | .error _ => true
  | _ => false

/-- What is refused before `errno` is written. -/
def firstRefused : List Act → Option Str
  | [] => none
  | .refused d _ _ _ :: _ => some d
  | act :: t => if v.writesErrno act then none else firstRefused t

end Setting

/-- Nothing is refused before `errno` is written; and what the call opens at the end of a pattern that
ends in a separator is a directory, or may be returned all the same. -/
structure WellOpened (v : Setting) (c : Call C) : Prop where
  opens : v.firstRefused (v.acts c) = none
  directories : endsOpen c.pat = true → ∀ errno pre size d mark post s,
    v.acts c = pre ++ .hit size d mark :: post → v.playFrom c errno pre = some (none, s) →
      c.Allows (marked v d) ∨ v.isDirectory (openName d) = true

/-! ## One act -/

variable {v : Setting} {errfunc : Callback C} {flags : BitVec 32}

/-- The same scene with another `errno`. -/
def Scene.withErrno (s : Scene (Process C)) (errno : Errno) : Scene (Process C) :=
  { s with world := { s.world with errno := errno } }

/-- An outcome, less the `errno`. -/
def forget (r : Option Ending × Scene (Process C)) : Option Ending × Scene (Process C) :=
  (r.1, r.2.withErrno 0)

/-- With memory a match is always put on the list. -/
theorem put_system (size : ℕ) (path : Str) (s : Scene (Process C)) :
    put (v.system errfunc) size path s = (none, { s with found := s.found ++ [path] }) := rfl

/-- An act that neither is refused anything nor writes to `errno` takes it along, and the search goes
on. -/
theorem perform_still {act : Act} (hrefused : ∀ t, v.firstRefused (act :: t) = v.firstRefused t)
    (hwrites : v.writesErrno act = false) (s : Scene (Process C)) :
    (∀ errno, perform (v.system errfunc) flags act (s.withErrno errno) =
      (perform (v.system errfunc) flags act s).map fun r => (r.1, r.2.withErrno errno)) ∧
    ∀ r, perform (v.system errfunc) flags act s = some r → r.1 = none ∧ r.2.world = s.world := by
  cases act with
  | opened name =>
    simp only [perform, v.opendir_eq]
    exact ⟨fun errno => rfl, fun r hr => by cases hr; exact ⟨rfl, rfl⟩⟩
  | refused d ended l fault => cases hrefused []
  | enter => exact ⟨fun errno => rfl, fun r hr => by cases hr; exact ⟨rfl, rfl⟩⟩
  | room size => exact ⟨fun errno => rfl, fun r hr => by cases hr; exact ⟨rfl, rfl⟩⟩
  | write =>
    refine ⟨fun errno => ?_, fun r hr => ?_⟩
    · show (if s.buffers.head? = some true then _ else none) = _
      rw [perform]
      split_ifs <;> rfl
    · rw [perform] at hr
      split_ifs at hr
      cases hr
      exact ⟨rfl, rfl⟩
  | hit size name mark =>
    cases mark with
    | some mark => exact ⟨fun errno => rfl, fun r hr => by cases hr; exact ⟨rfl, rfl⟩⟩
    | none =>
      cases hstat : v.stat name with
      | ok mode =>
        have hasked : ∀ w : Process C, (v.system errfunc).stat name w = (some mode, w) := by
          intro w
          simp only [Setting.system, hstat]
        simp only [perform, hasked, put_system]
        exact ⟨fun errno => rfl, fun r hr => by cases hr; exact ⟨rfl, rfl⟩⟩
      | error e =>
        rw [Setting.writesErrno, hstat] at hwrites
        cases hwrites
  | leave => exact ⟨fun errno => rfl, fun r hr => by cases hr; exact ⟨rfl, rfl⟩⟩
  | unread d error fault => cases hwrites

/-- An act that writes to `errno` does not depend on it. -/
theorem perform_writes {act : Act} (hwrites : v.writesErrno act = true) (s : Scene (Process C))
    (errno : Errno) : perform (v.system errfunc) flags act (s.withErrno errno) =
      perform (v.system errfunc) flags act s := by
  cases act with
  | hit size name mark =>
    cases mark with
    | some mark => cases hwrites
    | none =>
      cases hstat : v.stat name with
      | ok mode =>
        rw [Setting.writesErrno, hstat] at hwrites
        cases hwrites
      | error e =>
        have hasked : ∀ w : Process C,
            (v.system errfunc).stat name w = (none, { w with errno := e }) := by
          intro w
          simp only [Setting.system, hstat]
        simp only [perform, hasked, put_system]
        rfl
  | unread d error fault => rfl
  | opened name => cases hwrites
  | refused d ended l fault => cases hwrites
  | enter => cases hwrites
  | room size => cases hwrites
  | write => cases hwrites
  | leave => cases hwrites

/-- What an act is, as far as `errno` is concerned. -/
theorem act_cases (v : Setting) (act : Act) :
    (∃ d ended l fault, act = .refused d ended l fault) ∨
      ((∀ t, v.firstRefused (act :: t) = none) ∧ v.writesErrno act = true) ∨
      ((∀ t, v.firstRefused (act :: t) = v.firstRefused t) ∧ v.writesErrno act = false) := by
  cases hwrites : v.writesErrno act with
  | true =>
    refine Or.inr (Or.inl ⟨fun t => ?_, rfl⟩)
    cases act with
    | refused d ended l fault => cases hwrites
    | _ => exact if_pos hwrites
  | false =>
    cases act with
    | refused d ended l fault => exact Or.inl ⟨d, ended, l, fault, rfl⟩
    | _ => exact Or.inr (Or.inr ⟨fun t => if_neg (by rw [hwrites]; exact Bool.false_ne_true), rfl⟩)

/-! ## Two plays -/

/-- **Two plays that differ in `errno`** differ in nothing else, if nothing is refused before `errno` is
written. -/
theorem play_forget {t : List Act} (h : v.firstRefused t = none) (s : Scene (Process C))
    (errno : Errno) :
    (play (perform (v.system errfunc) flags) t (s.withErrno errno)).map forget =
      (play (perform (v.system errfunc) flags) t s).map forget := by
  induction t generalizing s with
  | nil => rfl
  | cons act t ih =>
    rcases act_cases v act with ⟨d, ended, l, fault, rfl⟩ | ⟨-, hwrites⟩ | ⟨hnext, hwrites⟩
    · cases h
    · rw [play, play, perform_writes hwrites]
    · obtain ⟨hstill, hgoesOn⟩ := @perform_still C v errfunc flags act hnext hwrites s
      rw [play, play, hstill]
      cases hact : perform (v.system errfunc) flags act s with
      | none => rfl
      | some r =>
        obtain ⟨_ | e, s'⟩ := r
        · exact ih ((hnext t).symm.trans h) s'
        · cases (hgoesOn _ hact).1

theorem calls_complain (isError : Bool) (d : Str) (error : Errno) (s : Scene (Process C)) :
    (complain (v.system errfunc) flags isError d error s).2.world.calls =
      s.world.calls ++ [(d, error)] := rfl

/-- `stat` does not call the callback. -/
theorem calls_stat (d : Str) (w : Process C) : ((v.system errfunc).stat d w).2.calls = w.calls := by
  cases hstat : v.stat d <;> simp only [Setting.system, hstat]

/-- What the callback was told stays told. -/
theorem calls_perform {act : Act} {s : Scene (Process C)} {r : Option Ending × Scene (Process C)}
    (h : perform (v.system errfunc) flags act s = some r) : s.world.calls <+: r.2.world.calls := by
  rcases act_cases v act with ⟨d, ended, l, fault, rfl⟩ | ⟨-, hwrites⟩ | ⟨hnext, hwrites⟩
  · rw [perform] at h
    dsimp only at h
    split_ifs at h
    · cases h
      exact List.prefix_refl _
    · rw [put_system] at h
      cases h
      exact ⟨[], (List.append_nil _).trans (calls_stat d s.world).symm⟩
    · cases h
      rw [calls_complain]
      dsimp only
      rw [calls_stat]
      exact List.prefix_append _ _
    · cases h
      exact List.prefix_append _ _
  · cases act with
    | hit size name mark =>
      cases mark with
      | some mark => cases hwrites
      | none =>
        cases h
        exact ⟨[], (List.append_nil _).trans (calls_stat name s.world).symm⟩
    | unread d error fault =>
      cases h
      exact List.prefix_append _ _
    | opened name => cases hwrites
    | refused d ended l fault => cases hwrites
    | enter => cases hwrites
    | room size => cases hwrites
    | write => cases hwrites
    | leave => cases hwrites
  · have hworld := ((perform_still hnext hwrites s).2 r h).2
    exact ⟨[], (List.append_nil _).trans (congrArg Process.calls hworld.symm)⟩

/-- **The callback is told the `errno` of the caller**, if it is neither `ENOTDIR` nor `EACCES`, where
something is refused before `errno` is written. -/
theorem shows_play {t : List Act} {d : Str} (h : v.firstRefused t = some d) {s : Scene (Process C)}
    (hnotdir : s.world.errno ≠ ENOTDIR) (hacces : s.world.errno ≠ EACCES)
    {r : Option Ending × Scene (Process C)}
    (hplay : play (perform (v.system errfunc) flags) t s = some r) :
    s.world.calls ++ [(d, s.world.errno)] <+: r.2.world.calls := by
  induction t generalizing s with
  | nil => cases h
  | cons act t ih =>
    rcases act_cases v act with ⟨d', ended, l, fault, rfl⟩ | ⟨hnone, -⟩ | ⟨hnext, hwrites⟩
    · cases h
      have hact : perform (v.system errfunc) flags (.refused d ended l fault) s =
          some (complain (v.system errfunc) flags
            (!excused (v.system errfunc) d ended fault s.world) d s.world.errno s) := by
        show (if s.world.errno = ENOTDIR then _ else if s.world.errno = EACCES ∧ ended = true then _
          else _) = _
        rw [if_neg hnotdir, if_neg fun h => hacces h.1]
        rfl
      have hkept : ∀ act s₁ r₁, perform (v.system errfunc) flags act s₁ = some r₁ →
          s.world.calls ++ [(d, s.world.errno)] <+: s₁.world.calls →
            s.world.calls ++ [(d, s.world.errno)] <+: r₁.2.world.calls :=
        fun act s₁ r₁ h₁ hs₁ => hs₁.trans (calls_perform h₁)
      rw [← List.nil_append (Act.refused d ended l fault :: t)] at hplay
      exact play_reaches (P := fun s' => s.world.calls ++ [(d, s.world.errno)] <+: s'.world.calls)
        hkept rfl hact (List.prefix_refl _) hplay
    · rw [hnone] at h
      cases h
    · obtain ⟨⟨e, s'⟩, hact, hrest⟩ := Option.bind_eq_some_iff.mp hplay
      obtain ⟨he, hworld⟩ := (perform_still hnext hwrites s).2 _ hact
      dsimp only at he hworld hrest
      rw [he, if_neg (by simp)] at hrest
      rw [← hworld] at hnotdir hacces ⊢
      exact ih ((hnext t).symm.trans h) hnotdir hacces hrest

end

end Glob
end UtilWin
