import Mathlib.Data.List.Infix
import UtilWin.Regex.EntryErrno

/-!
# What a call of `glob` relies on

A call is the play of its script and a conclusion that knows nothing but the verdict and what was found
(`run_eq`).  So two calls that differ in `errno` agree if their plays do, and what is returned for a
pattern that ends in a separator was put on the list at an act of the play.  Both conditions of
`WellOpened` are also necessary, whatever the flags and the callback: the first failure before `errno`
is written shows in the calls of the callback, and what the call comes to at the end of its pattern is
among the paths (`reliance_iff`).
-/

namespace UtilWin
namespace Glob

open Directory ErrList

section

variable {C : Type} {v : Setting} {errfunc : Callback C} {flags : BitVec 32}

/-! ## The end of a call -/

/-- With memory what was found is put behind what is kept. -/
theorem store_system (flags : BitVec 32) (offs : ℕ) (g : GlobT) (error : ℕ) (found : List Str) :
    ∃ g', (∀ w, store (v.system errfunc) flags offs g error ⟨w, found⟩ = (error, g', w)) ∧
      ∀ x ∈ found, some x ∈ g'.glPathv := by
  refine ⟨(store v.plain flags offs g error ⟨⟨0, [], ()⟩, found⟩).2.1, fun w => rfl, fun x hx => ?_⟩
  have hsorted : x ∈ if has flags globNosort then found else found.mergeSort strcmpLe := by
    split_ifs
    · exact hx
    · exact List.mem_mergeSort.mpr hx
  exact List.mem_append_left _ (List.mem_append_right _ (List.mem_map_of_mem hsorted))

/-- With memory the conclusion is drawn from the verdict and what was found, and changes nothing else. -/
theorem conclude_system (flags : BitVec 32) (pat : Str) (offs : ℕ) (g : GlobT) (error : ℕ)
    (found : List Str) :
    ∃ ret g', (∀ w, conclude (v.system errfunc) flags pat offs g error ⟨w, found⟩ =
        some (ret, g', w)) ∧
      (error ≠ globNospace → ∀ x ∈ found, some x ∈ g'.glPathv) := by
  by_cases hnospace : error = globNospace
  · refine ⟨error, g, fun w => ?_, fun h => absurd hnospace h⟩
    rw [conclude, if_pos hnospace]
  by_cases hfound : found = []
  · subst hfound
    cases hnocheck : has flags globNocheck with
    | false =>
      refine ⟨globNomatch, g, fun w => ?_, fun _ x hx => absurd hx List.not_mem_nil⟩
      rw [conclude, if_neg hnospace, if_pos rfl, hnocheck, if_neg Bool.false_ne_true]
    | true =>
      have happ : ∀ w : Process C, append (v.system errfunc) pat pat.length false ⟨w, []⟩ =
          some (true, ⟨w, [pat]⟩) := by
        intro w
        rw [append_eq (fun _ _ => rfl) false _ (Nat.le_add_right _ _)]
        simp only [Bool.false_eq_true, if_false, List.append_nil, List.nil_append]
        rfl
      obtain ⟨g', hstore, -⟩ := @store_system C v errfunc flags offs g error [pat]
      refine ⟨error, g', fun w => ?_, fun _ x hx => absurd hx List.not_mem_nil⟩
      rw [conclude, if_neg hnospace, if_pos rfl, hnocheck, if_pos rfl, happ]
      exact congrArg some (hstore w)
  · obtain ⟨g', hstore, hpaths⟩ := @store_system C v errfunc flags offs g error found
    refine ⟨error, g', fun w => ?_, fun _ => hpaths⟩
    rw [conclude, if_neg hnospace, if_neg hfound]
    exact congrArg some (hstore w)

/-- **A call is the play of its script and a conclusion**, which returns what was found, and nothing
else but what is allowed. -/
theorem run_eq (v : Setting) (c : Call C) :
    ∃ f : ℕ → List Str → ℕ × GlobT,
      (∀ errno, v.run c errno = (v.playFrom c errno (v.acts c)).map fun r =>
        ((f (code r.1) r.2.found).1, (f (code r.1) r.2.found).2, r.2.world)) ∧
      (v.acts c ≠ [] → ∀ error found x, error ≠ globNospace → x ∈ found →
        some x ∈ (f error found).2.glPathv) ∧
      ∀ errno r x, v.playFrom c errno (v.acts c) = some r →
        some x ∈ (f (code r.1) r.2.found).2.glPathv → c.Allows x ∨ x ∈ r.2.found := by
  obtain ⟨offs, g₁, hoffs, hg⟩ : ∃ offs g₁, offs = (if has c.flags globDooffs then c.g.glOffs else 0) ∧
      g₁ = if !has c.flags globAppend then ⟨0, [], offs⟩ else c.g := ⟨_, _, rfl, rfl⟩
  have hold : ∀ x, some x ∈ g₁.glPathv → c.Allows x := by
    intro x hx
    subst hg
    cases happend : has c.flags globAppend with
    | false =>
      rw [happend] at hx
      cases hx
    | true =>
      rw [happend] at hx
      exact Or.inl ⟨happend, hx⟩
  by_cases hlong : (splitDrive v.plain c.pat).2.length > pathMax
  · have hacts : v.acts c = [] := if_neg (Nat.not_le_of_lt hlong)
    refine ⟨fun _ _ => (globNospace, g₁), fun errno => ?_, fun h => absurd hacts h,
      fun errno r x _ hx => Or.inl (hold x hx)⟩
    obtain ⟨offs', g₁', hg', hoffs', hglob⟩ :=
      glob_eq_conclude (v.system c.errfunc) c.flags c.pat c.g ⟨errno, [], c.own⟩
    obtain rfl : offs' = offs := hoffs'.trans hoffs.symm
    obtain rfl : g₁' = g₁ := hg'.trans hg.symm
    rw [Setting.run, hglob, hacts]
    exact if_pos hlong
  have hshort := Nat.le_of_not_lt hlong
  have hacts : v.acts c = searchScript (v.system c.errfunc) c.flags v.forest c.pat := if_pos hshort
  have hconclude := fun error found =>
    @conclude_system C v c.errfunc c.flags c.pat offs g₁ error found
  choose ret g' hend hpaths using hconclude
  refine ⟨fun error found => (ret error found, g' error found), fun errno => ?_,
    fun _ error found x herror hx => hpaths error found herror x hx, fun errno r x hplay hx => ?_⟩
  · obtain ⟨offs', g₁', hoffs', hg', hglob⟩ :=
      @glob_eq_search _ _ c.flags _ (v.stands c.errfunc) _ hshort c.g ⟨errno, [], c.own⟩
    obtain rfl : offs' = offs := hoffs'.trans hoffs.symm
    obtain rfl : g₁' = g₁ := hg'.trans hg.symm
    rw [Setting.run, hglob, hacts, Option.map_eq_bind]
    exact Option.bind_congr fun r _ => hend (code r.1) r.2.found r.2.world
  · rcases paths_of_conclude (hend (code r.1) r.2.found r.2.world) hx with hx | hx | hx
    · exact Or.inl (hold x hx)
    · exact Or.inl (Or.inr hx)
    · exact Or.inr hx

/-! ## Two runs -/

/-- **Two runs that differ in `errno`** cannot be told apart. -/
theorem agree_of_opens {c : Call C} (h : v.firstRefused (v.acts c) = none) (errno errno' : Errno) :
    observed (v.run c errno) = observed (v.run c errno') := by
  obtain ⟨f, hrun, -, -⟩ := run_eq v c
  have hobserved : ∀ errno, observed (v.run c errno) =
      ((v.playFrom c 0 (v.acts c)).map forget).map fun r =>
        ((f (code r.1) r.2.found).1, (f (code r.1) r.2.found).2, r.2.world.calls) := by
    intro errno
    have hforget : (v.playFrom c errno (v.acts c)).map forget =
        (v.playFrom c 0 (v.acts c)).map forget :=
      play_forget h ⟨[], false, false, ⟨0, [], c.own⟩, []⟩ errno
    rw [← hforget, hrun, observed, Option.map_map, Option.map_map]
    rfl
  rw [hobserved, hobserved]

/-- The play of a call comes to an end. -/
theorem playFrom_isSome (v : Setting) (c : Call C) (errno : Errno) :
    ∃ r, v.playFrom c errno (v.acts c) = some r := by
  rw [Setting.acts]
  split_ifs
  · exact search_isSome (fun _ _ => rfl) (v.stands c.errfunc) c.pat ⟨errno, [], c.own⟩
  · exact ⟨_, rfl⟩

/-- **Nothing is refused before `errno` is written**, if two runs cannot be told apart. -/
theorem opens_of_agree {c : Call C}
    (h : ∀ errno errno', observed (v.run c errno) = observed (v.run c errno')) :
    v.firstRefused (v.acts c) = none := by
  by_contra hfirst
  obtain ⟨d, hfirst⟩ := Option.ne_none_iff_exists'.mp hfirst
  obtain ⟨f, hrun, -, -⟩ := run_eq v c
  -- the callback is told what the caller had
  have htold : ∀ errno, errno ≠ ENOTDIR → errno ≠ EACCES →
      ∃ r, v.playFrom c errno (v.acts c) = some r ∧ [(d, errno)] <+: r.2.world.calls := by
    intro errno hnotdir hacces
    obtain ⟨r, hplay⟩ := playFrom_isSome v c errno
    exact ⟨r, hplay, shows_play hfirst hnotdir hacces hplay⟩
  obtain ⟨r, hplay, hcalls⟩ := htold EPERM (by decide) (by decide)
  obtain ⟨r', hplay', hcalls'⟩ := htold ENOENT (by decide) (by decide)
  have hagree := h EPERM ENOENT
  rw [hrun, hrun, hplay, hplay'] at hagree
  have hsame : r.2.world.calls = r'.2.world.calls :=
    (Prod.ext_iff.mp (Prod.ext_iff.mp (Option.some.inj hagree)).2).2
  rw [← hsame] at hcalls'
  have heq := (List.prefix_of_prefix_length_le hcalls hcalls' (Nat.le_refl _)).eq_of_length rfl
  simp [EPERM, ENOENT] at heq

/-! ## The ends of a pattern -/

theorem dirOf_marked (d : Str) : dirOf (marked v d) = openName d := by
  rw [dirOf, marked, markedName]
  simp only [decide_eq_true_eq]
  split_ifs with hl
  · rw [List.dropLast_concat]
  · have hd : d = [] := by
      rw [prefixLength] at hl
      split_ifs at hl
      · exact absurd (by decide) hl
      · exact List.length_eq_zero_iff.mp (not_not.mp hl)
    rw [hd]
    rfl

/-- All that the call of a pattern that ends in a separator puts on the list are directories. -/
theorem atEnd_of_mem_acts {c : Call C} (hopen : endsOpen c.pat = true) {act : Act}
    (h : act ∈ v.acts c) : AtEnd (v.system c.errfunc) act := by
  rw [Setting.acts, searchScript] at h
  split_ifs at h with hshort hpat
  · exact atEnd_of_mem_script (endsOpen_splitDrive _ hpat hopen) h
  · cases h
  · cases h

/-- What is found at such an act. -/
theorem marked_of_perform {act : Act} (hend : AtEnd (v.system errfunc) act)
    {s : Scene (Process C)} {r : Option Ending × Scene (Process C)}
    (h : perform (v.system errfunc) flags act s = some r) {x : Str} (hs : x ∉ s.found)
    (hx : x ∈ r.2.found) :
    ∃ d, x = marked v d ∧ ((∃ size mark, act = .hit size d mark) ∨
      v.isDirectory (openName d) = true) := by
  rcases found_of_perform h with hfound | ⟨d, b, hfound, hact⟩
  · rw [hfound] at hx
    exact absurd hx hs
  · rw [hfound] at hx
    have hx : x = markedName d b :=
      List.mem_singleton.mp ((List.mem_append.mp hx).resolve_left hs)
    rcases hact with ⟨size, mark, rfl, hb⟩ | ⟨ended, l, fault, rfl, hb, hdir⟩
    · have hb : b = decide (prefixLength v.plain d ≠ 0) := hb _ hend
      exact ⟨d, by rw [hx, hb, marked], Or.inl ⟨size, mark, rfl⟩⟩
    · have hl : l = prefixLength v.plain d := hend
      refine ⟨d, by rw [hx, hb, hl, marked], Or.inr ?_⟩
      cases hstat : v.stat d with
      | ok mode =>
        simp only [Setting.system, hstat, Option.any_some] at hdir
        exact v.stat_dir d mode hstat hdir
      | error e => simp [Setting.system, hstat] at hdir

/-- **A pattern that ends in a separator** returns directories, if what is opened at its end are
directories. -/
theorem directories_of_wellOpened {c : Call C} (h : WellOpened v c) (hopen : endsOpen c.pat = true)
    {errno : Errno} {ret : ℕ} {g' : GlobT} {w' : Process C}
    (hrun : v.run c errno = some (ret, g', w')) {x : Str} (hx : some x ∈ g'.glPathv) :
    c.Allows x ∨ v.isDirectory (dirOf x) = true := by
  obtain ⟨f, hf, -, hpaths⟩ := run_eq v c
  rw [hf, Option.map_eq_some_iff] at hrun
  obtain ⟨r, hplay, hr⟩ := hrun
  cases hr
  refine (hpaths errno r x hplay hx).elim Or.inl fun hfound => ?_
  obtain ⟨pre, act, post, s, r₁, hacts, hpre, hact, hs, hr₁, -⟩ :=
    play_gains (P := fun s : Scene (Process C) => x ∈ s.found) hplay List.not_mem_nil hfound
  have hmem : act ∈ v.acts c := by
    rw [hacts]
    exact List.mem_append_right _ List.mem_cons_self
  obtain ⟨d, rfl, ⟨size, mark, rfl⟩ | hdir⟩ :=
    marked_of_perform (atEnd_of_mem_acts hopen hmem) hact hs hr₁
  · rw [dirOf_marked]
    exact h.directories hopen errno pre size d mark post s hacts hpre
  · rw [dirOf_marked]
    exact Or.inr hdir

/-- With memory nothing but the callback and `GLOB_ERR` stops a search. -/
theorem code_ne_nospace {c : Call C} {errno : Errno} {t : List Act}
    {r : Option Ending × Scene (Process C)} (hplay : v.playFrom c errno t = some r) :
    code r.1 ≠ globNospace := by
  rw [ne_eq, code_eq_nospace]
  intro hr
  obtain ⟨e, s'⟩ := r
  dsimp only at hr
  subst hr
  obtain ⟨pre, act, post, s, -, -, hact⟩ := play_stops hplay
  have hcomplain : ∀ (isError : Bool) (d : Str) (error : Errno) (s : Scene (Process C)),
      (complain (v.system c.errfunc) c.flags isError d error s).1 ≠ some .nospace := by
    intro isError d error s
    rw [complain]
    dsimp only
    split_ifs <;> simp
  cases act with
  | refused d ended l fault =>
    rw [perform] at hact
    dsimp only at hact
    split_ifs at hact
    · cases hact
    · rw [put_system] at hact
      cases hact
    · exact hcomplain _ _ _ _ (congrArg Prod.fst (Option.some.inj hact))
    · exact hcomplain _ _ _ _ (congrArg Prod.fst (Option.some.inj hact))
  | write =>
    rw [perform] at hact
    split_ifs at hact
    cases hact
  | hit size name mark => cases mark <;> cases hact
  | unread d error fault => exact hcomplain _ _ _ _ (congrArg Prod.fst (Option.some.inj hact))
  | opened name => cases hact
  | enter => cases hact
  | room size => cases hact
  | leave => cases hact

/-- **What the call comes to at the end of its pattern is returned.** -/
theorem mem_paths_of_hit {c : Call C} (hopen : endsOpen c.pat = true) {errno : Errno}
    {pre post : List Act} {size : ℕ} {d : Str} {mark : Option Bool} {s : Scene (Process C)}
    (hacts : v.acts c = pre ++ .hit size d mark :: post)
    (hpre : v.playFrom c errno pre = some (none, s)) :
    ∃ ret g' w', v.run c errno = some (ret, g', w') ∧ some (marked v d) ∈ g'.glPathv := by
  obtain ⟨f, hf, hpaths, -⟩ := run_eq v c
  obtain ⟨r, hplay⟩ := playFrom_isSome v c errno
  have hmem : Act.hit size d mark ∈ v.acts c := by
    rw [hacts]
    exact List.mem_append_right _ List.mem_cons_self
  have hmark : mark = some (decide (prefixLength v.plain d ≠ 0)) := atEnd_of_mem_acts hopen hmem
  have hact : perform (v.system c.errfunc) c.flags (.hit size d mark) s =
      some (none, { s with found := s.found ++ [marked v d] }) := by
    rw [hmark]
    rfl
  have hfound : marked v d ∈ r.2.found := by
    rw [hacts] at hplay
    exact play_reaches (P := fun s : Scene (Process C) => marked v d ∈ s.found)
      (fun act s₁ r₁ h₁ hs₁ => mem_found_of_perform h₁ hs₁) hpre hact List.mem_concat_self hplay
  have hne : v.acts c ≠ [] := by
    rw [hacts]
    exact List.append_ne_nil_of_right_ne_nil _ (List.cons_ne_nil _ _)
  refine ⟨_, _, _, by rw [hf, hplay]; rfl, ?_⟩
  exact hpaths hne _ _ _ (code_ne_nospace hplay) hfound

end

/-! ## When it may be relied on -/

/-- **When `opendir` and `glob` do what they promise.**  `opendir` keeps its promise exactly where it
opens a directory.  A call of `glob` in a setting, with its pattern, its flags and its callback, relies
on nothing else exactly when nothing is refused before `errno` is written and, if the pattern ends in a
separator, what the call comes to at its end is a directory or may be returned all the same. -/
theorem reliance_iff (isDirectory : Bool) (status : NtStatus) (calloc : Bool) (v : Setting)
    {C : Type} (c : Call C) :
    (KeepsContract isDirectory status calloc ↔ failed status = false ∧ isDirectory = true) ∧
      (Relies v c ↔ WellOpened v c) := by
  refine ⟨keepsContract_iff isDirectory status calloc, fun h => ?_, fun h => ?_⟩
  · refine ⟨opens_of_agree h.agree, fun hopen errno pre size d mark post s hacts hpre => ?_⟩
    obtain ⟨ret, g', w', hrun, hx⟩ := mem_paths_of_hit hopen hacts hpre
    have hdir := h.directories hopen errno ret g' w' hrun _ hx
    rwa [dirOf_marked] at hdir
  · exact ⟨agree_of_opens h.opens, fun hopen errno ret g' w' hrun x hx =>
      directories_of_wellOpened h hopen hrun hx⟩

/-- `STATUS_ACCESS_DENIED`. -/
def statusAccessDenied : NtStatus := 0xc0000022

/-- Nothing may be opened. -/
def deniedSetting : Setting where
  status _ := statusAccessDenied
  isDirectory _ := true
  listing _ := ⟨[], 0⟩
  stat _ := .error EACCES
  fnmatch _ _ _ := false
  past _ _ := 0
  overrun _ := []
  junkMode := 0
  covered _ de hde := absurd hde List.not_mem_nil
  noZero _ de hde := absurd hde List.not_mem_nil
  stat_dir _ _ h := by cases h

/-- `glob("a", 0, NULL, &g)`. -/
def callA : Call Unit := ⟨[0x61], 0, ignoreErr, (), ⟨0, [], 0⟩⟩

/-- The pattern `a` where the current directory may not be read. -/
theorem denied_not_relies :
    ¬ KeepsContract true statusAccessDenied true ∧ ¬ Relies deniedSetting callA := by
  refine ⟨fun h => ?_, fun h => ?_⟩
  · have hopened := ((keepsContract_iff true statusAccessDenied true).mp h).1
    exact absurd hopened (by decide)
  · have hfirst := opens_of_agree h.agree
    have hsplit : (splitPattern [0x61]).2 = none := rfl
    have hdrive : splitDrive (deniedSetting.system ignoreErr) [0x61] = ([], [0x61]) := rfl
    have hacts : deniedSetting.acts callA = script (deniedSetting.system ignoreErr) 0
        deniedSetting.forest [] [0x61] := by
      rw [Setting.acts, callA, if_pos (by decide), searchScript, if_pos (List.cons_ne_nil _ _), hdrive]
    rw [hacts, script_of_none _ _ _ hsplit] at hfirst
    cases hfirst

end Glob
end UtilWin
