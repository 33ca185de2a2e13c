import UtilWin.Regex.Search
import Mathlib.Data.List.Forall2

/-!
# Drives and roots

`glob` takes a pattern with a colon in second place for one with a drive, passes over three characters
and starts from `X:/`; any other pattern starts from the empty string.  `match_in_dir` looks at the
second and the fourth character of its directory string to recognize the root of a drive.

`WellRooted` is what is wanted of this: that nothing is read behind a terminator, that only separators
are dropped behind the drive, that the search for a pattern with a separator in front starts from the
root, and that a path that is returned consists of the root of the pattern and of names, each accepted
by its component.  It is met in all worlds by the patterns `X:/..` with a component, and by those that
are too long to be searched for (`wellRooted_iff`): all others have characters read that are not
there, or dropped, or `X://` returned.
-/

namespace UtilWin
namespace Glob

open Directory ErrList

/-! ## What is wanted -/

/-- A name in a directory. -/
structure IsName (name : Str) : Prop where
  ne_nil : name ≠ []
  noSep : ∀ c ∈ name, isSep c = false
  noZero : 0 ∉ name

/-- Directories consist of names. -/
def HasNames {σ : Type} (sys : System σ) : Prop :=
  ∀ path w stream, (sys.opendir path w).1 = some stream → ∀ de ∈ stream.entries, IsName de.dName

/-- The root that a pattern names. -/
def rootOf : Str → Str
  | [] => []
  | [x] => if isSep x then [slash] else []
  | x :: y :: _ => if isSep x then [slash] else if y = colon then [x, colon, slash] else []

/-- What stands behind the drive. -/
def afterDrive : Str → Str
  | x :: y :: rest => if y = colon ∧ isSep x = false then rest else x :: y :: rest
  | pat => pat

section

variable {σ : Type} (sys : System σ) (flags : BitVec 32) (pat : Str)

/-- `x` is the root of the pattern and names that its components accept, one by one, and maybe one
more slash behind the names. -/
def RootedPath (x : Str) : Prop :=
  x ≠ [] ∧ ∃ names tail, List.Forall₂ (AcceptsName sys flags) (tokens isSep (afterDrive pat)) names ∧
    (∀ name ∈ names, IsName name) ∧ (tail = [] ∨ tail = [slash] ∧ names ≠ []) ∧
    x = rootOf pat ++ [slash].intercalate names ++ tail

/-- Prefixes are split without leaving the string. -/
structure WellRooted : Prop where
  /-- What `glob` reads of the pattern. -/
  reads_pattern : 1 ≤ pat.length ∧ (charAt sys pat 1 = colon → 3 ≤ pat.length)
  /-- What `match_in_dir` reads of the directory string. -/
  reads_directory : ∀ d p, Called sys flags pat d p →
    1 ≤ d.length ∧ (charAt sys d 1 = colon → 3 ≤ d.length)
  drive : ∀ x rest, pat = x :: colon :: rest → isSep x = false →
    [x, colon] <+: (splitDrive sys pat).1 ∧ (splitDrive sys pat).2 = rest.dropWhile isSep
  root : ∀ x rest, pat = x :: rest → isSep x = true → (splitDrive sys pat).2.length ≤ pathMax →
    (splitDrive sys pat).1 ≠ [] ∧ ∀ c ∈ (splitDrive sys pat).1, isSep c = true
  paths : ∀ g w ret g' w', glob sys flags pat g w = some (ret, g', w') →
    ∀ x, some x ∈ g'.glPathv → some x ∈ g.glPathv ∨ (has flags globNocheck = true ∧ x = pat) ∨
      RootedPath sys flags pat x

end

/-- The pattern is `X:/..` with a component, or what would be searched for is too long. -/
def DriveOrLong : Str → Prop
  | x :: y :: s :: rest =>
    if y = colon then
      if isSep x then pathMax < (rest.dropWhile isSep).length
      else isSep s = true ∧ rest.dropWhile isSep ≠ []
    else pathMax < rest.length + 3
  | _ => False

/-! ## Below the root of a drive -/

section

variable {σ : Type} {sys : System σ} {flags : BitVec 32} {x : UInt8} {names : List Str}

/-- The directory string `X:/n1/../nk`. -/
def driveDir (x : UInt8) (names : List Str) : Str := x :: colon :: slash :: [slash].intercalate names

theorem prefixLength_driveDir_nil : prefixLength sys (driveDir x []) = 2 := by
  rw [driveDir, List.intercalate_nil, prefixLength, if_pos]
  exact ⟨rfl, rfl⟩

/-- The fourth character is a character of a name. -/
theorem prefixLength_driveDir (hnames : ∀ name ∈ names, IsName name) (hne : names ≠ []) :
    prefixLength sys (driveDir x names) = (driveDir x names).length := by
  obtain ⟨name, names', rfl⟩ := List.exists_cons_of_ne_nil hne
  have hname := hnames name List.mem_cons_self
  obtain ⟨c, name', rfl⟩ := List.exists_cons_of_ne_nil hname.ne_nil
  have hzero : c ≠ 0 := fun hc => hname.noZero (hc ▸ List.mem_cons_self)
  have hchar : charAt sys (driveDir x ((c :: name') :: names')) 3 = c := by
    cases names' with
    | nil => rw [driveDir, List.intercalate_singleton]; rfl
    | cons l ls => rw [driveDir, List.intercalate_cons_cons]; rfl
  rw [prefixLength, if_neg fun h => hzero (hchar.symm.trans h.2)]

/-- **The path of an entry** below the root of a drive. -/
theorem pathIn_driveDir (hnames : ∀ name ∈ names, IsName name) (de : Dirent) :
    pathIn sys (driveDir x names) de = driveDir x (names ++ [de.dName]) := by
  have hcons : driveDir x names ≠ [] := List.cons_ne_nil _ _
  rw [pathIn, if_pos hcons]
  by_cases hne : names = []
  · subst hne
    rw [prefixLength_driveDir_nil, List.nil_append, driveDir, driveDir, List.intercalate_singleton]
    rfl
  · rw [prefixLength_driveDir hnames hne, List.take_length, driveDir, driveDir,
      intercalate_snoc hne]
    rfl

theorem Accepted.isName {d p : Str} {de : Dirent} (hsys : HasNames sys)
    (h : Accepted sys flags d p de) : IsName de.dName := by
  obtain ⟨w, stream, hopen, hde⟩ := h.listed
  exact hsys _ _ _ hopen de hde

/-- **What is reached** from below the root of a drive is below it, by names that the components
accept which are used up on the way. -/
theorem reaches_driveDir (hsys : HasNames sys) {d p d' p' : Str} (h : Reaches sys flags d p d' p')
    (hnames : ∀ name ∈ names, IsName name) (hd : d = driveDir x names)
    (hhead : ∀ c ∈ p.head?, isSep c = false) :
    ∃ comps more, tokens isSep p = comps ++ tokens isSep p' ∧
      List.Forall₂ (AcceptsName sys flags) comps more ∧ (∀ name ∈ more, IsName name) ∧
      d' = driveDir x (names ++ more) ∧ (∀ c ∈ p'.head?, isSep c = false) ∧
      (p' = [] → p ≠ [] → more ≠ []) := by
  induction h generalizing names with
  | refl d p =>
    exact ⟨[], [], rfl, .nil, fun _ h => absurd h List.not_mem_nil, by rw [hd, List.append_nil],
      hhead, fun hnil hne => absurd hnil hne⟩
  | @entry d p rest d' p' de hacc hrest hreach ih =>
    subst hd
    obtain ⟨htokens, hhead'⟩ := tokens_of_rest hacc.comp_ne hrest
    have hname := hacc.isName hsys
    have hnames' : ∀ name ∈ names ++ [de.dName], IsName name := by
      intro name hmem
      rcases List.mem_append.mp hmem with hmem | hmem
      · exact hnames name hmem
      · exact List.mem_singleton.mp hmem ▸ hname
    obtain ⟨comps, more, hsplit, hall, hmore, hd', hhead'', -⟩ :=
      ih hnames' (pathIn_driveDir hnames de) hhead'
    refine ⟨(splitPattern p).1 :: comps, de.dName :: more, ?_, .cons hacc.acceptsName hall, ?_, ?_,
      hhead'', fun _ _ => List.cons_ne_nil _ _⟩
    · rw [htokens, hsplit, List.cons_append]
    · intro name hmem
      rcases List.mem_cons.mp hmem with rfl | hmem
      · exact hname
      · exact hmore name hmem
    · rw [hd', List.append_assoc, List.singleton_append]

/-- What a call below the root of a drive appends. -/
theorem appends_driveDir (hsys : HasNames sys) {p y : Str}
    (h : Appends sys flags (driveDir x names) p y) (hnames : ∀ name ∈ names, IsName name)
    (hhead : ∀ c ∈ p.head?, isSep c = false) (hnil : p = [] → names ≠ []) :
    ∃ more tail, List.Forall₂ (AcceptsName sys flags) (tokens isSep p) more ∧
      (∀ name ∈ more, IsName name) ∧ (tail = [] ∨ tail = [slash] ∧ names ++ more ≠ []) ∧
      y = driveDir x (names ++ more) ++ tail := by
  cases h with
  | self hcomp hdir =>
    have hp := eq_nil_of_comp hhead hcomp
    have hlen : (driveDir x names).length ≠ 0 := Nat.succ_ne_zero _
    subst hp
    refine ⟨[], [slash], ?_, fun _ h => absurd h List.not_mem_nil, Or.inr ⟨rfl, ?_⟩, ?_⟩
    · rw [tokens_nil]
      exact .nil
    · rw [List.append_nil]
      exact hnil rfl
    · rw [prefixLength_driveDir hnames (hnil rfl), if_pos hlen, List.append_nil]
  | @entry de hacc hrest mark =>
    have hne : names ++ [de.dName] ≠ [] := by simp
    refine ⟨[de.dName], if mark then [slash] else [], ?_, ?_, ?_, ?_⟩
    · rw [tokens_of_last hacc.comp_ne hrest]
      exact .cons hacc.acceptsName .nil
    · exact List.forall_mem_singleton.2 (hacc.isName hsys)
    · cases mark with
      | true => exact Or.inr ⟨rfl, hne⟩
      | false => exact Or.inl rfl
    · rw [pathIn_driveDir hnames]

/-! ## Patterns that do well -/

theorem splitDrive_drive (sys : System σ) (x s : UInt8) (rest : Str) :
    splitDrive sys (x :: colon :: s :: rest) = ([x, colon, slash], rest.dropWhile isSep) := by
  have hcolon : charAt sys (x :: colon :: s :: rest) 1 = colon := rfl
  have hlen : 3 ≤ (x :: colon :: s :: rest).length := by simp
  rw [splitDrive, if_pos hcolon, if_pos hlen, if_neg (List.cons_ne_nil _ _)]
  rfl

theorem splitDrive_of_ne (sys : System σ) {pat : Str} (h : charAt sys pat 1 ≠ colon) :
    splitDrive sys pat = ([], pat) := by
  rw [splitDrive, if_neg h]

/-- **A pattern with a drive, its root and a component** does well. -/
theorem wellRooted_drive (hsys : HasNames sys) (flags : BitVec 32) {s : UInt8} {rest : Str}
    (hx : isSep x = false) (hs : isSep s = true) (hrest : rest.dropWhile isSep ≠ []) :
    WellRooted sys flags (x :: colon :: s :: rest) := by
  have hsplit := splitDrive_drive sys x s rest
  have htokens : tokens isSep (s :: rest) = tokens isSep (rest.dropWhile isSep) := by
    rw [tokens_cons_of_pos hs, tokens_dropWhile]
  have hhead : ∀ c ∈ (rest.dropWhile isSep).head?, isSep c = false :=
    fun c hc => of_mem_head?_dropWhile hc
  -- the calls are below the root of the drive
  have hcalled : ∀ d p, Called sys flags (x :: colon :: s :: rest) d p → ∃ comps names,
      tokens isSep (s :: rest) = comps ++ tokens isSep p ∧
        List.Forall₂ (AcceptsName sys flags) comps names ∧ (∀ name ∈ names, IsName name) ∧
        d = driveDir x names ∧ (∀ c ∈ p.head?, isSep c = false) ∧ (p = [] → names ≠ []) := by
    rintro d p ⟨-, -, hreach⟩
    rw [hsplit] at hreach
    have hroot : [x, colon, slash] = driveDir x [] := rfl
    obtain ⟨comps, names, h₁, h₂, h₃, h₄, h₅, h₆⟩ :=
      reaches_driveDir hsys hreach (fun _ h => absurd h List.not_mem_nil) hroot hhead
    exact ⟨comps, names, htokens.trans h₁, h₂, h₃, h₄, h₅, fun hp => h₆ hp hrest⟩
  refine ⟨⟨by simp, fun _ => by simp⟩, fun d p hcall => ?_, fun x' rest' hpat _ => ?_,
    fun x' rest' hpat hsep => ?_, fun g w ret g' w' hrun y hy => ?_⟩
  · obtain ⟨-, names, -, -, -, rfl, -⟩ := hcalled d p hcall
    exact ⟨by simp [driveDir], fun _ => by simp [driveDir]⟩
  · cases hpat
    rw [hsplit, List.dropWhile_cons_of_pos hs]
    exact ⟨⟨[slash], rfl⟩, rfl⟩
  · cases hpat
    rw [hx] at hsep
    cases hsep
  · rcases paths_of_glob hrun hy with hold | hpat | ⟨d, p, hcall, happ⟩
    · exact Or.inl hold
    · exact Or.inr (Or.inl hpat)
    · obtain ⟨comps, names, hsplit, hall, hnames, rfl, hhead', hnil⟩ := hcalled d p hcall
      obtain ⟨more, tail, hall', hmore, htail, rfl⟩ := appends_driveDir hsys happ hnames hhead' hnil
      refine Or.inr (Or.inr ⟨List.cons_ne_nil _ _, names ++ more, tail, ?_, ?_, htail, ?_⟩)
      · rw [afterDrive, if_pos ⟨rfl, hx⟩, hsplit]
        exact List.rel_append hall hall'
      · intro name hmem
        exact (List.mem_append.mp hmem).elim (hnames name) (hmore name)
      · rw [rootOf, hx, if_neg Bool.false_ne_true, if_pos rfl]
        rfl

/-- **A pattern that is too long** is not searched for. -/
theorem wellRooted_long (sys : System σ) (flags : BitVec 32) {pat : Str} (hlen : 3 ≤ pat.length)
    (hlong : pathMax < (splitDrive sys pat).2.length)
    (hdrive : ∀ x rest, pat = x :: colon :: rest → isSep x = true) : WellRooted sys flags pat := by
  refine ⟨⟨by omega, fun _ => hlen⟩, fun d p hcall => ?_, fun x rest hpat hx => ?_,
    fun x rest hpat _ hle => ?_, fun g w ret g' w' hrun y hy => ?_⟩
  · have := hcall.2.1
    omega
  · rw [hdrive x rest hpat] at hx
    cases hx
  · omega
  · rcases paths_of_glob hrun hy with hold | hpat | ⟨d, p, hcall, -⟩
    · exact Or.inl hold
    · exact Or.inr (Or.inl hpat)
    · have := hcall.2.1
      omega

end

/-! ## Patterns that do not -/

/-- A world in which everything can be opened and is empty. -/
def emptyWorld : System Unit where
  opendir _ w := (some ⟨[], 0⟩, w)
  errno _ := 0
  setErrno _ w := w
  stat _ w := (none, w)
  errfunc := none
  malloc _ w := (true, w)
  fnmatch _ _ _ := false
  past _ _ := 0
  overrun _ := []
  junkMode := 0

theorem hasNames_emptyWorld : HasNames emptyWorld := by
  intro path w stream h de hde
  cases h
  exact absurd hde List.not_mem_nil

/-- Without a drive the second character of the empty directory string is read. -/
theorem not_wellRooted_of_ne {pat : Str} (hne : pat ≠ []) (hlen : pat.length ≤ pathMax)
    (h : charAt emptyWorld pat 1 ≠ colon) : ¬ WellRooted emptyWorld 0 pat := by
  intro hwell
  have hsplit := splitDrive_of_ne emptyWorld h
  have hcall : Called emptyWorld 0 pat [] pat := by
    refine ⟨hne, ?_, ?_⟩
    · rw [hsplit]
      exact hlen
    · rw [hsplit]
      exact .refl [] pat
  exact absurd (hwell.reads_directory [] pat hcall).1 (by decide)

/-- The root of a drive alone comes back with two slashes. -/
theorem not_wellRooted_root {x s : UInt8} {rest : Str} (hx : isSep x = false)
    (hs : isSep s = true) (hrest : rest.dropWhile isSep = []) :
    ¬ WellRooted emptyWorld 0 (x :: colon :: s :: rest) := by
  intro hwell
  have hglob : glob emptyWorld 0 (x :: colon :: s :: rest) ⟨0, [], 0⟩ () =
      some (0, ⟨1, [some [x, colon, slash, slash], none], 0⟩, ()) := by
    have hrun : matchInDir emptyWorld 0 [x, colon, slash] [] ⟨(), []⟩ =
        some (0, ⟨(), [[x, colon, slash, slash]]⟩) := by
      rw [matchInDir_of_none emptyWorld 0 _ rfl]
      rfl
    rw [glob, splitDrive_drive, hrest]
    dsimp only
    rw [if_neg (by decide), if_pos (List.cons_ne_nil _ _), hrun]
    simp [store, emptyWorld, has, globNospace]
  rcases hwell.paths _ _ _ _ _ hglob [x, colon, slash, slash] List.mem_cons_self with
    hold | ⟨hnocheck, -⟩ | ⟨-, names, tail, hall, -, htail, hpath⟩
  · exact absurd hold List.not_mem_nil
  · cases hnocheck
  · -- there is no component, so there is no name
    have htokens : tokens isSep (s :: rest) = [] := by
      rw [tokens_cons_of_pos hs, ← tokens_dropWhile, hrest, tokens_nil]
    rw [afterDrive, if_pos ⟨rfl, hx⟩, htokens, List.forall₂_nil_left_iff] at hall
    subst hall
    rcases htail with rfl | ⟨-, hne⟩
    · rw [rootOf, hx, if_neg Bool.false_ne_true, if_pos rfl] at hpath
      cases hpath
    · exact hne rfl

/-- In the empty world only the other patterns do well. -/
theorem driveOrLong_of_wellRooted {pat : Str} (h : WellRooted emptyWorld 0 pat) :
    DriveOrLong pat := by
  match pat, h with
  | [], h => exact absurd h.reads_pattern.1 (by decide)
  | [x], h =>
    have hchar : charAt emptyWorld [x] 1 ≠ colon := show (0 : UInt8) ≠ colon by decide
    exact absurd h (not_wellRooted_of_ne (List.cons_ne_nil _ _) (by simp [pathMax]) hchar)
  | [x, y], h =>
    by_cases hy : y = colon
    · subst hy
      exact absurd (h.reads_pattern.2 rfl) (by simp)
    · have hchar : charAt emptyWorld [x, y] 1 ≠ colon := hy
      exact absurd h (not_wellRooted_of_ne (List.cons_ne_nil _ _) (by simp [pathMax]) hchar)
  | x :: y :: s :: rest, h =>
    rw [DriveOrLong]
    split_ifs with hy hx
    · -- a separator and a colon: the search does not start from the root
      subst hy
      by_contra hle
      have hroot := h.root x _ rfl hx
      rw [splitDrive_drive] at hroot
      have hroot := hroot (Nat.le_of_not_lt hle)
      exact absurd (hroot.2 colon (by simp)) (by decide)
    · subst hy
      have hx := Bool.eq_false_iff.mpr hx
      have hdrive := (h.drive x _ rfl hx).2
      rw [splitDrive_drive] at hdrive
      dsimp only at hdrive
      have hs : isSep s = true := by
        by_contra hs
        -- the third character is dropped
        rw [List.dropWhile_cons_of_neg hs] at hdrive
        have hlen := congrArg List.length hdrive
        have hle := (List.dropWhile_sublist isSep (l := rest)).length_le
        rw [List.length_cons] at hlen
        omega
      exact ⟨hs, fun hrest => not_wellRooted_root hx hs hrest h⟩
    · by_contra hle
      have hchar : charAt emptyWorld (x :: y :: s :: rest) 1 ≠ colon := hy
      refine not_wellRooted_of_ne (List.cons_ne_nil _ _) ?_ hchar h
      rw [List.length_cons, List.length_cons, List.length_cons]
      omega

/-! ## Which patterns do well -/

/-- **When the prefix of a pattern is split well.**  In all worlds, under all flags, exactly for a
pattern `X:/..` with a component, and for one that is refused because what would be searched for is
too long. -/
theorem wellRooted_iff (pat : Str) :
    (∀ (σ : Type) (sys : System σ), HasNames sys → ∀ flags, WellRooted sys flags pat) ↔
      DriveOrLong pat := by
  refine ⟨fun h => driveOrLong_of_wellRooted (h Unit emptyWorld hasNames_emptyWorld 0), ?_⟩
  intro h σ sys hsys flags
  match pat, h with
  | x :: y :: s :: rest, h =>
    have hlen : 3 ≤ (x :: y :: s :: rest).length := by simp
    rw [DriveOrLong] at h
    split_ifs at h with hy hx
    · subst hy
      refine wellRooted_long sys flags hlen ?_ fun x' rest' hpat => ?_
      · rw [splitDrive_drive]
        exact h
      · cases hpat
        exact hx
    · subst hy
      exact wellRooted_drive hsys flags (Bool.eq_false_iff.mpr hx) h.1 h.2
    · have hchar : charAt sys (x :: y :: s :: rest) 1 ≠ colon := hy
      refine wellRooted_long sys flags hlen ?_ fun x' rest' hpat => ?_
      · rw [splitDrive_of_ne sys hchar]
        exact h
      · cases hpat
        exact absurd rfl hy

/-- `C:ab` drops the `a`. -/
theorem driveRelative_not_wellRooted :
    HasNames emptyWorld ∧ ¬ WellRooted emptyWorld 0 [0x43, colon, 0x61, 0x62] :=
  ⟨hasNames_emptyWorld, fun h => absurd (driveOrLong_of_wellRooted h).1 (by decide)⟩

end Glob
end UtilWin
