import UtilWin.Regex.Search
import UtilWin.Regex.Tree

/-!
# `glob` finds what matches

In a world where nothing fails, `match_in_dir` is a depth-first search in the graph of entries: from
the directory where a walk has ended, with the rest of the pattern, it appends the paths of all ways to
go on whose names the components of the pattern accept (`matchInDir_eq`).  What the search meets is
exactly those walks, each once, and a walk is known by its path, so the list of matches has every
matching path once (`glob_exact`).
-/

namespace UtilWin
namespace Glob

open Directory ErrList

variable {σ N : Type} {sys : System σ} {t : Tree N} {cwd n : N} {flags : BitVec 32}
  {c : List (Dirent × N)} {e : Dirent × N}

/-! ## Flags -/

/-- The flags are among `GLOB_MARK`, `GLOB_NOSORT` and `GLOB_NOCHECK`. -/
def Plain (flags : BitVec 32) : Prop :=
  flags &&& ~~~(globMark ||| globNosort ||| globNocheck) = 0

theorem Plain.has_eq_false (h : Plain flags) {flag : BitVec 32}
    (hflag : ~~~(globMark ||| globNosort ||| globNocheck) &&& flag = flag) :
    has flags flag = false := by
  have hzero : flags &&& flag = 0 := by
    rw [← hflag, ← BitVec.and_assoc, h]
    exact BitVec.zero_and
  rw [has, hzero]
  rfl

theorem Plain.fnmFlags (h : Plain flags) : fnmFlags flags = fnmPeriod := by
  rw [Glob.fnmFlags, h.has_eq_false (by decide), h.has_eq_false (by decide)]
  rfl

/-! ## Components and tests -/

/-- A component accepts a name. -/
def accepts (sys : System σ) (comp name : Str) : Bool := sys.fnmatch comp name fnmPeriod

/-- What is asked of the entries on the way: that the component accepts the name, and a directory
where more is to come. -/
def tests (sys : System σ) (t : Tree N) (isOpen : Bool) : List Str → List (Dirent × N → Bool)
  | [] => []
  | [comp] => [fun e => accepts sys comp e.1.dName && (!isOpen || t.isDir e.2)]
  | comp :: comps =>
    (fun e => accepts sys comp e.1.dName && t.isDir e.2) :: tests sys t isOpen comps

theorem tests_cons {isOpen : Bool} {comp : Str} {comps : List Str}
    (h : comps = [] → isOpen = true) : tests sys t isOpen (comp :: comps) =
      (fun e => accepts sys comp e.1.dName && t.isDir e.2) :: tests sys t isOpen comps := by
  cases comps with
  | nil => rw [tests, tests, h rfl]; simp
  | cons comp' comps => rfl

/-- What does not start with a separator and has no components is empty. -/
theorem eq_nil_of_tokens {p : Str} (hhead : ∀ x ∈ p.head?, isSep x = false)
    (h : tokens isSep p = []) : p = [] := by
  rcases splitPattern_cases p with ⟨hp, -⟩ | ⟨comp, sep, ys, rfl, hsep, hcomp, -⟩
  · by_contra hne
    rw [tokens_eq_singleton hne hp] at h
    cases h
  · have hne : comp ≠ [] := by
      rintro rfl
      simp [hsep] at hhead
    rw [tokens_append_cons hsep, tokens_eq_singleton hne hcomp] at h
    cases h

/-! ## One entry -/

/-- A match as `glob` reports it: with a `/` if the pattern ends in a separator, or for a directory if
`GLOB_MARK` asks for it. -/
def rendered (t : Tree N) (flags : BitVec 32) (isOpen : Bool) (c : List (Dirent × N)) : Str :=
  pathOf c ++
    if isOpen || (has flags globMark && c.getLast?.any (t.isDir ·.2)) then [slash] else []

section

variable (hshows : Shows sys t cwd) (ht : t.Valid) (hflags : Plain flags)

include hshows in
/-- After `grow` there is room for the name of the entry. -/
theorem grow_eq {l : ℕ} (de : Dirent) {nb : Namebuf} (hnb : nb.Ok) (st : State σ) :
    ∃ nb' w, grow sys l de nb st = (nb', ⟨w, st.found⟩) ∧ nb'.valid = true ∧
      l + de.dReclen.toNat + 2 ≤ nb'.size := by
  have hfound : (grow sys l de nb st).2.found = st.found := grow_found l de nb st
  refine ⟨(grow sys l de nb st).1, (grow sys l de nb st).2.world, ?_,
    room_of_grow hshows.malloc l de hnb st⟩
  rw [← hfound]

include ht in
theorem type_eq (he : e ∈ t.out n) :
    e.1.dType ≠ 0 ∧ sIsdir (typeMode e.1) = t.isDir e.2 ∧ sIslnk (typeMode e.1) = false := by
  have h := ht.type n e he
  rw [typeMode, h]
  cases t.isDir e.2 <;> decide

include hshows ht hflags in
/-- **Which entries are passed over.** -/
theorem passesOver_eq (comp : Str) (more : Bool) (he : e ∈ t.out n) :
    passesOver sys flags comp more e.1 =
      !(accepts sys comp e.1.dName && (!more || t.isDir e.2)) := by
  obtain ⟨htype, hdir, hlnk⟩ := type_eq ht he
  have htype : decide (e.1.dType ≠ 0) = true := decide_eq_true htype
  have hliteral := hshows.oracle comp e.1.dName
  rw [passesOver, hflags.fnmFlags, hflags.has_eq_false (by decide), hflags.has_eq_false (by decide),
    hdir, hlnk, htype, accepts]
  cases hlit : isLiteral comp true with
  | true =>
    have heq : sys.fnmatch comp e.1.dName fnmPeriod = decide (comp = e.1.dName) := by
      rw [Bool.eq_iff_iff, decide_eq_true_iff]
      exact hliteral hlit
    simp [hlit, heq]
  | false => simp [hlit]

include ht in
/-- The path of an entry, written behind the path of the directory. -/
theorem entryPath_eq (hc : IsWalk t.out Prod.snd cwd (c ++ [e])) {nb : Namebuf} {l : ℕ}
    (hl : c ≠ [] → l = (pathOf c).length) (hvalid : nb.valid = true)
    (hroom : l + e.1.dReclen.toNat + 2 ≤ nb.size) :
    entryPath (pathOf c) l e.1 nb = some (pathOf (c ++ [e])) := by
  obtain ⟨hwalk, he, -⟩ := isWalk_append.mp hc
  have hreclen := ht.reclen _ e he
  have hoff : offsetofDName = 11 := rfl
  by_cases hnil : c = []
  · subst hnil
    rw [entryPath, if_neg (fun h => h rfl)]
    exact congrArg some pathOf_singleton.symm
  · have hl := hl hnil
    rw [entryPath, if_pos (pathOf_ne_nil ht hwalk hnil), if_pos ⟨hvalid, by omega, by omega⟩, hl,
      List.take_length, pathOf_snoc hnil]

include ht in
/-- The room that `append` is asked for is enough for the path of an entry. -/
theorem length_pathOf_snoc_le (hc : IsWalk t.out Prod.snd cwd (c ++ [e])) {l : ℕ}
    (hl : c ≠ [] → l = (pathOf c).length) :
    (pathOf (c ++ [e])).length ≤ l + e.1.dReclen.toNat + 1 := by
  obtain ⟨-, he, -⟩ := isWalk_append.mp hc
  have hreclen := ht.reclen _ e he
  have hoff : offsetofDName = 11 := rfl
  by_cases hnil : c = []
  · subst hnil
    rw [List.nil_append, pathOf_singleton]
    omega
  · rw [pathOf_snoc hnil, List.length_append, List.length_cons, hl hnil]
    omega

include ht in
theorem markOf_eq (he : e ∈ t.out n) (name : Str) (st : State σ) :
    markOf sys flags name e.1 st = (has flags globMark && t.isDir e.2, st) := by
  obtain ⟨htype, hdir, hlnk⟩ := type_eq ht he
  cases hmark : has flags globMark with
  | true => rw [markOf, if_pos hmark, if_pos ⟨htype, by simp [hlnk]⟩, hdir, Bool.true_and]
  | false => rw [markOf, hmark]; rfl

end

/-! ## The walk -/

/-- A loop in which every entry adds its matches adds all of them. -/
theorem overEntries_eq {body : Dirent → Namebuf → State σ → Option (ℕ × Namebuf × State σ)}
    {f : Dirent × N → List Str} {edges : List (Dirent × N)}
    (hbody : ∀ e ∈ edges, ∀ nb st, nb.Ok → ∃ nb' w,
      body e.1 nb st = some (0, nb', ⟨w, st.found ++ f e⟩) ∧ nb'.Ok) :
    ∀ nb st, nb.Ok → ∃ w, overEntries body (edges.map Prod.fst) nb st =
      some (0, ⟨w, st.found ++ edges.flatMap f⟩) := by
  induction edges with
  | nil =>
    intro nb st _
    exact ⟨st.world, by rw [List.map_nil, overEntries, List.flatMap_nil, List.append_nil]⟩
  | cons e edges ih =>
    intro nb st hnb
    obtain ⟨nb', w, hrun, hnb'⟩ := hbody e (List.mem_cons_self ..) nb st hnb
    obtain ⟨w', hrest⟩ := ih (fun x hx => hbody x (List.mem_cons_of_mem _ hx)) nb'
      ⟨w, st.found ++ f e⟩ hnb'
    refine ⟨w', ?_⟩
    rw [List.map_cons, overEntries, hrun]
    simp only [Option.bind_eq_bind, Option.bind_some, ne_eq, not_true_eq_false, if_false]
    rw [hrest, List.flatMap_cons, List.append_assoc]

/-- The directory string is never mistaken for a drive. -/
theorem prefixLength_eq (ht : t.Valid) (hc : IsWalk t.out Prod.snd cwd c) (hne : c ≠ []) :
    prefixLength sys (pathOf c) = (pathOf c).length := by
  have hlen := List.length_pos_iff.mpr (pathOf_ne_nil ht hc hne)
  have hcolon : charAt sys (pathOf c) 1 ≠ colon := by
    rw [charAt]
    split_ifs with h1
    · intro heq
      exact colon_notMem_pathOf ht hc (heq ▸ List.getElem_mem h1)
    · decide
    · omega
  rw [prefixLength, if_neg fun h => hcolon h.1]

section

variable (hshows : Shows sys t cwd) (ht : t.Valid) (hflags : Plain flags)
  (hc : IsWalk t.out Prod.snd cwd (c ++ [e])) {l : ℕ} (hl : c ≠ [] → l = (pathOf c).length)
  (comp : Str) {nb : Namebuf} (hnb : nb.Ok) (st : State σ)

include hshows ht hflags hc hl hnb

/-- **An entry, at the end of the pattern.** -/
theorem onEntry_last : ∃ nb' w,
    onEntry sys flags (pathOf c) l comp none e.1 nb st = some (0, nb', ⟨w, st.found ++
      if accepts sys comp e.1.dName then [rendered t flags false (c ++ [e])] else []⟩) ∧ nb'.Ok := by
  have he := (isWalk_append.mp hc).2.1
  obtain ⟨nb', w, hgrow, hvalid, hroom⟩ := grow_eq hshows e.1 hnb st (l := l)
  have hpass := passesOver_eq hshows ht hflags comp false he
  simp only [Bool.not_false, Bool.true_or, Bool.and_true] at hpass
  cases hacc : accepts sys comp e.1.dName with
  | false =>
    refine ⟨nb', w, ?_, fun _ => hvalid⟩
    simp [onEntry, hgrow, hpass, hacc]
  | true =>
    have happ := append_eq hshows.malloc (has flags globMark && t.isDir e.2) ⟨w, st.found⟩
      (Nat.le_add_right_of_le (length_pathOf_snoc_le ht hc hl))
    generalize (sys.malloc (16 + (l + e.1.dReclen.toNat + 1) + 1) w).2 = w' at happ
    refine ⟨nb', w', ?_, fun _ => hvalid⟩
    simp [onEntry, hgrow, hpass, hacc, entryPath_eq ht hc hl hvalid hroom, markOf_eq ht he, happ,
      rendered]

/-- **An entry, with more of the pattern to come.** -/
theorem onEntry_inner {walk : Str → State σ → Option (ℕ × State σ)} {f : List Str}
    (hwalk : t.isDir e.2 = true → ∀ st, ∃ w, walk (pathOf (c ++ [e])) st =
      some (0, ⟨w, st.found ++ f⟩)) : ∃ nb' w,
    onEntry sys flags (pathOf c) l comp (some walk) e.1 nb st = some (0, nb', ⟨w, st.found ++
      if accepts sys comp e.1.dName && t.isDir e.2 then f else []⟩) ∧ nb'.Ok := by
  have he := (isWalk_append.mp hc).2.1
  obtain ⟨nb', w, hgrow, hvalid, hroom⟩ := grow_eq hshows e.1 hnb st (l := l)
  have hpass := passesOver_eq hshows ht hflags comp true he
  simp only [Bool.not_true, Bool.false_or] at hpass
  cases hacc : accepts sys comp e.1.dName && t.isDir e.2 with
  | false =>
    refine ⟨nb', w, ?_, fun _ => hvalid⟩
    simp only [onEntry, hgrow, Option.isSome_some, hpass, hacc]
    simp
  | true =>
    obtain ⟨w', hrun⟩ := hwalk (Bool.and_eq_true_iff.mp hacc).2 ⟨w, st.found⟩
    refine ⟨nb', w', ?_, fun _ => hvalid⟩
    simp only [onEntry, hgrow, Option.isSome_some, hpass, hacc,
      entryPath_eq ht hc hl hvalid hroom]
    simp [hrun]

end

/-- A directory, with what each of its entries adds. -/
theorem inDir_eq (hshows : Shows sys t cwd) (ht : t.Valid) (hcwd : t.isDir cwd = true)
    (hc : IsWalk t.out Prod.snd cwd c) (hdirs : ∀ e ∈ c, t.isDir e.2 = true) {comp : Str}
    (hcomp : comp ≠ []) (walk : Option (Str → State σ → Option (ℕ × State σ)))
    {f : Dirent × N → List Str}
    (hentry : ∀ e ∈ t.out (stop Prod.snd cwd c), ∀ nb st, nb.Ok → ∃ nb' w,
      onEntry sys flags (pathOf c) (prefixLength sys (pathOf c)) comp walk e.1 nb st =
        some (0, nb', ⟨w, st.found ++ f e⟩) ∧ nb'.Ok) (st : State σ) :
    ∃ w, inDir sys flags (pathOf c) comp walk st =
      some (0, ⟨w, st.found ++ (t.out (stop Prod.snd cwd c)).flatMap f⟩) := by
  have hopen := hshows.opendir (if pathOf c ≠ [] then pathOf c else [period]) st.world
  rw [read_pathOf ht hc hcwd hdirs] at hopen
  obtain ⟨w, hrun⟩ := overEntries_eq hentry ⟨0, false⟩
    { st with world := (sys.opendir (if pathOf c ≠ [] then pathOf c else [period]) st.world).2 }
    (fun h => absurd rfl h)
  refine ⟨w, ?_⟩
  simp only [inDir, hopen, if_neg hcomp, hrun, Option.bind_eq_bind, Option.bind_some, ne_eq,
    not_true_eq_false, if_false]

/-- The path of a directory itself, for a pattern that ends in a separator. -/
theorem inDir_nil (flags : BitVec 32) (hshows : Shows sys t cwd) (ht : t.Valid)
    (hcwd : t.isDir cwd = true) (hc : IsWalk t.out Prod.snd cwd c)
    (hdirs : ∀ e ∈ c, t.isDir e.2 = true) (hne : c ≠ [])
    (walk : Option (Str → State σ → Option (ℕ × State σ))) (st : State σ) :
    ∃ w, inDir sys flags (pathOf c) [] walk st =
      some (0, ⟨w, st.found ++ [pathOf c ++ [slash]]⟩) := by
  have hopen := hshows.opendir (if pathOf c ≠ [] then pathOf c else [period]) st.world
  rw [read_pathOf ht hc hcwd hdirs] at hopen
  have hpos := List.length_pos_iff.mpr (pathOf_ne_nil ht hc hne)
  have happ := append_eq hshows.malloc true
    { st with world := (sys.opendir (if pathOf c ≠ [] then pathOf c else [period]) st.world).2 }
    (Nat.le_add_right (pathOf c).length 7)
  generalize (sys.malloc (16 + (pathOf c).length + 1) _).2 = w at happ
  have hmark : decide ((pathOf c).length ≠ 0) = true := decide_eq_true (by omega)
  refine ⟨w, ?_⟩
  simp only [inDir, hopen, prefixLength_eq ht hc hne, hmark, happ, Option.bind_eq_bind,
    Option.bind_some, if_true]

/-- **`match_in_dir` is a depth-first search.**  The induction is on the pattern: from the end of the
walk `c` it goes on in all ways that the rest of the pattern accepts. -/
theorem matchInDir_eq (hshows : Shows sys t cwd) (ht : t.Valid) (hflags : Plain flags)
    (hcwd : t.isDir cwd = true) (p : Str) : ∀ (c : List (Dirent × N)) (st : State σ),
      IsWalk t.out Prod.snd cwd c → (∀ e ∈ c, t.isDir e.2 = true) →
      (∀ x ∈ p.head?, isSep x = false) → (p = [] → c ≠ []) →
      ∃ w, matchInDir sys flags (pathOf c) p st = some (0, ⟨w, st.found ++
        (walks t.out Prod.snd (stop Prod.snd cwd c)
          (tests sys t (endsOpen p) (tokens isSep p))).map
            fun c' => rendered t flags (endsOpen p) (c ++ c')⟩) := by
  induction hlen : p.length using Nat.strong_induction_on generalizing p with
  | _ k ih =>
  intro c st hc hdirs hhead hnil
  have hl : c ≠ [] → prefixLength sys (pathOf c) = (pathOf c).length := prefixLength_eq ht hc
  have hwalk : ∀ e ∈ t.out (stop Prod.snd cwd c), IsWalk t.out Prod.snd cwd (c ++ [e]) :=
    fun e he => isWalk_append.mpr ⟨hc, he, trivial⟩
  rcases splitPattern_cases p with ⟨hp, hsplit⟩ | ⟨comp, sep, ys, rfl, hsep, hcomp, hsplit⟩
  · rw [matchInDir_of_none sys flags st hsplit]
    by_cases hpnil : p = []
    · -- nothing is left: the directory itself
      subst hpnil
      obtain ⟨w, hrun⟩ := inDir_nil flags hshows ht hcwd hc hdirs (hnil rfl) none st
      refine ⟨w, ?_⟩
      simp only [hrun, tokens_nil, tests, walks, List.map_cons, List.map_nil, List.append_nil,
        rendered]
      rfl
    · -- the last component
      have hopen : endsOpen p = false := by
        rw [endsOpen, List.getLast?_eq_some_getLast hpnil, Option.all_some]
        exact hp _ (List.getLast_mem hpnil)
      obtain ⟨w, hrun⟩ := inDir_eq hshows ht hcwd hc hdirs hpnil none
        (fun e he nb st hnb => onEntry_last hshows ht hflags (hwalk e he) hl p hnb st) st
      refine ⟨w, ?_⟩
      rw [hrun, hopen, tokens_eq_singleton hpnil hp, tests, walks, List.map_flatMap]
      congr 5
      funext e
      cases accepts sys p e.1.dName <;> simp [walks]
  · -- a component with more to come
    have hne : comp ≠ [] := by
      rintro rfl
      simp [hsep] at hhead
    have hshort : (ys.dropWhile isSep).length < k := by
      rw [← hlen]
      exact length_rest_lt (by rw [hsplit])
    have hhead' : ∀ x ∈ (ys.dropWhile isSep).head?, isSep x = false :=
      fun x hx => of_mem_head?_dropWhile hx
    rw [matchInDir_of_some sys flags st hsplit, tokens_append_cons hsep,
      tokens_eq_singleton hne hcomp, List.singleton_append, endsOpen_append_cons comp hsep,
      ← tokens_dropWhile ys]
    generalize ys.dropWhile isSep = rest at hshort hhead'
    have hinner : ∀ e ∈ t.out (stop Prod.snd cwd c), t.isDir e.2 = true → ∀ st, ∃ w,
        matchInDir sys flags (pathOf (c ++ [e])) rest st = some (0, ⟨w, st.found ++
          (walks t.out Prod.snd e.2 (tests sys t (endsOpen rest) (tokens isSep rest))).map
            fun c' => rendered t flags (endsOpen rest) (c ++ [e] ++ c')⟩) := by
      intro e he hdir st
      have hdirs' : ∀ x ∈ c ++ [e], t.isDir x.2 = true := by
        intro x hx
        rcases List.mem_append.mp hx with hx | hx
        · exact hdirs x hx
        · rw [List.mem_singleton.mp hx]
          exact hdir
      have h := ih _ hshort _ rfl (c ++ [e]) st (hwalk e he) hdirs' hhead' fun _ => by simp
      rwa [stop_append] at h
    obtain ⟨w, hrun⟩ := inDir_eq hshows ht hcwd hc hdirs hne
      (some fun name => matchInDir sys flags name rest) (fun e he nb st hnb =>
        onEntry_inner hshows ht hflags (hwalk e he) hl comp hnb st (hinner e he)) st
    refine ⟨w, ?_⟩
    rw [hrun, tests_cons fun h => by rw [eq_nil_of_tokens hhead' h]; rfl, walks, List.map_flatMap]
    congr 5
    funext e
    cases accepts sys comp e.1.dName && t.isDir e.2 with
    | false => simp
    | true => simp [Function.comp_def]

/-! ## What matches -/

/-- The walk `c` from the current directory matches the pattern: the components, with runs of
separators counting as one, accept its names one by one, all but the last of its nodes are
directories, and so is the last if the pattern ends in a separator. -/
structure IsMatch (sys : System σ) (t : Tree N) (cwd : N) (pat : Str) (c : List (Dirent × N)) :
    Prop where
  walk : IsWalk t.out Prod.snd cwd c
  accepted : List.Forall₂ (fun comp e => accepts sys comp e.1.dName = true) (tokens isSep pat) c
  inner : ∀ e ∈ c.dropLast, t.isDir e.2 = true
  last : endsOpen pat = true → ∀ e ∈ c.getLast?, t.isDir e.2 = true

/-- The tests say that. -/
theorem forall₂_tests {isOpen : Bool} {comps : List Str} :
    List.Forall₂ (fun test e => test e = true) (tests sys t isOpen comps) c ↔
      List.Forall₂ (fun comp e => accepts sys comp e.1.dName = true) comps c ∧
        (∀ e ∈ c.dropLast, t.isDir e.2 = true) ∧
        (isOpen = true → ∀ e ∈ c.getLast?, t.isDir e.2 = true) := by
  induction comps generalizing c with
  | nil =>
    rw [tests, List.forall₂_nil_left_iff, List.forall₂_nil_left_iff]
    constructor
    · rintro rfl
      simp
    · exact fun h => h.1
  | cons comp comps ih =>
    cases comps with
    | nil =>
      cases c with
      | nil => simp [tests]
      | cons e c =>
        cases c with
        | nil => cases isOpen <;> simp [tests]
        | cons e' c => simp [tests]
    | cons comp' comps =>
      cases c with
      | nil => simp [tests]
      | cons e c =>
        rw [tests_cons (by simp), List.forall₂_cons, ih, List.forall₂_cons]
        cases c with
        | nil => simp
        | cons e' c =>
          rw [List.getLast?_cons_cons, List.dropLast_cons_cons]
          simp only [Bool.and_eq_true, List.mem_cons, forall_eq_or_imp]
          tauto

theorem mem_walks_tests {pat : Str} :
    c ∈ walks t.out Prod.snd cwd (tests sys t (endsOpen pat) (tokens isSep pat)) ↔
      IsMatch sys t cwd pat c := by
  rw [mem_walks, forall₂_tests]
  exact ⟨fun ⟨h1, h2, h3, h4⟩ => ⟨h1, h2, h3, h4⟩, fun h => ⟨h.1, h.2, h.3, h.4⟩⟩

/-- A match is known by what is reported of it. -/
theorem rendered_injOn (ht : t.Valid) {isOpen : Bool} {c c' : List (Dirent × N)}
    (hc : IsWalk t.out Prod.snd cwd c) (hc' : IsWalk t.out Prod.snd cwd c')
    (h : rendered t flags isOpen c = rendered t flags isOpen c') : c = c' := by
  have htokens : ∀ {c}, IsWalk t.out Prod.snd cwd c →
      tokens isSep (rendered t flags isOpen c) = c.map (·.1.dName) := by
    intro c hc
    rw [rendered]
    split_ifs
    · exact tokens_pathOf_slash ht hc
    · rw [List.append_nil, tokens_pathOf ht hc]
  refine IsWalk.eq_of_labels ht.unique hc hc' ?_
  rw [← htokens hc, ← htokens hc', h]

/-! ## `glob` -/

/-- The matches in the order in which they are stored. -/
def sorted (flags : BitVec 32) (found : List Str) : List Str :=
  if has flags globNosort then found else found.mergeSort strcmpLe

theorem sorted_perm (flags : BitVec 32) (found : List Str) : (sorted flags found).Perm found := by
  rw [sorted]
  split_ifs
  · exact List.Perm.refl found
  · exact List.mergeSort_perm found strcmpLe

theorem pairwise_sorted (hsort : has flags globNosort = false) (found : List Str) :
    (sorted flags found).Pairwise fun a b => strcmpLe a b = true := by
  rw [sorted, hsort, if_neg Bool.false_ne_true]
  refine List.pairwise_mergeSort (fun a b c hab hbc => ?_) (fun a b => ?_) found
  · exact decide_eq_true (List.le_trans (of_decide_eq_true hab) (of_decide_eq_true hbc))
  · rcases List.le_total a b with h | h
    · rw [strcmpLe, decide_eq_true h, Bool.true_or]
    · rw [strcmpLe, strcmpLe, decide_eq_true h, Bool.or_true]

/-- The end of `glob`, when there is memory and nothing to put the matches behind. -/
theorem store_eq (hshows : Shows sys t cwd) (hflags : Plain flags) (offs : ℕ) (st : State σ) :
    ∃ w, store sys flags 0 ⟨0, [], offs⟩ 0 st =
      (0, ⟨st.found.length, (sorted flags st.found).map some ++ [none], offs⟩, w) := by
  have happend : has flags globAppend = false := hflags.has_eq_false (by decide)
  refine ⟨(sys.malloc ((0 + 0 + st.found.length + 1) * 8) st.world).2, ?_⟩
  simp [store, sorted, hshows.malloc, happend]

/-- `glob` after a search that nothing has stopped. -/
theorem glob_eq (hflags : Plain flags) {pat : Str} (hne : pat ≠ []) (hlen : pat.length ≤ pathMax)
    (hdrive : splitDrive sys pat = ([], pat)) (g : GlobT) {w w' : σ} {found : List Str}
    (hrun : matchInDir sys flags [] pat ⟨w, []⟩ = some (0, ⟨w', found⟩)) :
    glob sys flags pat g w =
      if found = [] then
        if has flags globNocheck then
          (append sys pat pat.length false ⟨w', found⟩).bind fun r =>
            if !r.1 then some (globNospace, ⟨0, [], 0⟩, r.2.world)
            else some (store sys flags 0 ⟨0, [], 0⟩ 0 r.2)
        else some (globNomatch, ⟨0, [], 0⟩, w')
      else some (store sys flags 0 ⟨0, [], 0⟩ 0 ⟨w', found⟩) := by
  have happend : has flags globAppend = false := hflags.has_eq_false (by decide)
  have hdooffs : has flags globDooffs = false := hflags.has_eq_false (by decide)
  have hlong : ¬ pat.length > pathMax := by omega
  have hzero : ¬ 0 = globNospace := by decide
  simp only [glob, hdrive, happend, hdooffs, hrun, if_neg hlong, if_pos hne, if_neg hzero,
    Bool.false_eq_true, if_false, Bool.not_false, if_true, Option.bind_eq_bind, Option.bind_some]

/-- **`glob` returns exactly the matching paths.** -/
theorem glob_exact (hshows : Shows sys t cwd) (ht : t.Valid) (hcwd : t.isDir cwd = true)
    (hflags : Plain flags) {pat : Str} (hne : pat ≠ []) (hlen : pat.length ≤ pathMax)
    (hhead : ∀ x ∈ pat.head?, isSep x = false) (hcolon : pat[1]? ≠ some colon) (g : GlobT) (w : σ) :
    ∃ found : List Str,
      (∀ x, x ∈ found ↔ ∃ c, IsMatch sys t cwd pat c ∧ x = rendered t flags (endsOpen pat) c) ∧
      found.Nodup ∧
      (has flags globNosort = false → found.Pairwise fun a b => strcmpLe a b = true) ∧
      ∃ ret g' w', glob sys flags pat g w = some (ret, g', w') ∧
        (found ≠ [] → ret = 0 ∧ g'.glPathc = found.length ∧
          g'.glPathv = found.map some ++ [none]) ∧
        (found = [] → has flags globNocheck = true →
          ret = 0 ∧ g'.glPathc = 1 ∧ g'.glPathv = [some pat, none]) ∧
        (found = [] → has flags globNocheck = false → ret = globNomatch) := by
  have hchar : charAt sys pat 1 ≠ colon := by
    have hpos := List.length_pos_iff.mpr hne
    rw [charAt]
    split_ifs with h1
    · intro heq
      exact hcolon (by rw [List.getElem?_eq_getElem h1, heq])
    · decide
    · omega
  have hdrive : splitDrive sys pat = ([], pat) := by rw [splitDrive, if_neg hchar]
  -- the search, from the empty walk
  obtain ⟨w', hrun⟩ := matchInDir_eq hshows ht hflags hcwd pat [] ⟨w, []⟩ trivial
    (fun e he => absurd he List.not_mem_nil) hhead (fun h => absurd h hne)
  rw [pathOf_nil, List.nil_append] at hrun
  generalize hfound : (walks t.out Prod.snd (stop Prod.snd cwd []) (tests sys t (endsOpen pat)
    (tokens isSep pat))).map (fun c' => rendered t flags (endsOpen pat) ([] ++ c')) = found at hrun
  have hmem : ∀ x, x ∈ found ↔
      ∃ c, IsMatch sys t cwd pat c ∧ x = rendered t flags (endsOpen pat) c := by
    intro x
    rw [← hfound, List.mem_map]
    constructor
    · rintro ⟨c, hc, rfl⟩
      exact ⟨c, mem_walks_tests.mp hc, rfl⟩
    · rintro ⟨c, hc, rfl⟩
      exact ⟨c, mem_walks_tests.mpr hc, rfl⟩
  have hnodup : found.Nodup := by
    rw [← hfound]
    refine (nodup_walks fun n => ?_).map_on fun c hc c' hc' heq => ?_
    · exact List.Nodup.of_map _ (ht.unique n)
    · exact rendered_injOn ht (mem_walks_tests.mp hc).walk (mem_walks_tests.mp hc').walk heq
  have hperm := sorted_perm flags found
  have hnil : sorted flags found = [] ↔ found = [] := by
    rw [← List.length_eq_zero_iff, hperm.length_eq, List.length_eq_zero_iff]
  refine ⟨sorted flags found, fun x => hperm.mem_iff.trans (hmem x), hperm.nodup_iff.mpr hnodup,
    fun hsort => pairwise_sorted hsort found, ?_⟩
  rw [glob_eq hflags hne hlen hdrive g hrun]
  by_cases hempty : found = []
  · rw [if_pos hempty]
    cases hnocheck : has flags globNocheck with
    | true =>
      have happ := append_eq hshows.malloc false ⟨w', found⟩ (Nat.le_add_right pat.length 7)
      generalize (sys.malloc (16 + pat.length + 1) w').2 = w₂ at happ
      obtain ⟨w₃, hstore⟩ := store_eq hshows hflags 0 ⟨w₂, [pat]⟩
      have hone : sorted flags [pat] = [pat] := List.perm_singleton.mp (sorted_perm flags [pat])
      refine ⟨0, ⟨1, [some pat, none], 0⟩, w₃, ?_, fun h => absurd (hnil.mpr hempty) h,
        fun _ _ => ⟨rfl, rfl, rfl⟩, fun _ h => absurd h (by simp)⟩
      rw [if_pos rfl, happ, Option.bind_some]
      simp only [hempty, List.nil_append, Bool.false_eq_true, if_false, List.append_nil,
        Bool.not_true, hstore, hone]
      rfl
    | false =>
      exact ⟨globNomatch, _, w', if_neg Bool.false_ne_true, fun h => absurd (hnil.mpr hempty) h,
        fun _ h => absurd h (by simp), fun _ _ => rfl⟩
  · obtain ⟨w₃, hstore⟩ := store_eq hshows hflags 0 ⟨w', found⟩
    rw [if_neg hempty, hstore]
    exact ⟨0, _, w₃, rfl, fun _ => ⟨rfl, hperm.length_eq.symm, rfl⟩,
      fun h => absurd (hnil.mp h) hempty, fun h => absurd (hnil.mp h) hempty⟩

/-- An entry with a short name. -/
def shortEntry (name : Str) (dType : BitVec 8) : Dirent := ⟨0, 16, dType, name⟩

/-- A directory with the directory `a` and the file `b`. -/
def smallTree : Tree (Fin 3) where
  out
    | 0 => [(shortEntry [period] dtDir, 0), (shortEntry [period, period] dtDir, 0),
        (shortEntry [97] dtDir, 1), (shortEntry [98] dtReg, 2)]
    | 1 => [(shortEntry [period] dtDir, 1), (shortEntry [period, period] dtDir, 0)]
    | 2 => []
  isDir n := n ≠ 2

theorem smallTree_valid : smallTree.Valid where
  unique := by decide
  nonempty := by decide
  short := by decide
  noSep n e he x hx := by
    have hall : ∀ n, ∀ e ∈ smallTree.out n, e.1.dName.all (fun x => !isSep x) = true := by decide
    simpa only [Bool.not_eq_true'] using List.all_eq_true.1 (hall n e he) x hx
  noColon := by decide
  type := by decide
  reclen := by decide
  dot := by decide

/-- The world of the small tree; of all patterns but literals, `*` alone is known. -/
def smallSystem : System Unit where
  opendir path w := (smallTree.read 0 path, w)
  errno _ := 0
  setErrno _ w := w
  stat _ w := (none, w)
  errfunc := none
  malloc _ w := (true, w)
  fnmatch p name _ := p = name || (p = [star] && name.head? ≠ some period)
  past _ _ := 0
  overrun _ := []
  junkMode := 0

theorem smallSystem_shows : Shows smallSystem smallTree 0 where
  opendir _ _ := rfl
  malloc _ _ := rfl
  oracle p name hp := by
    have hstar : p ≠ [star] := by
      rintro rfl
      cases hp
    simp [smallSystem, hstar]

/-- `*/` finds `a/`. -/
theorem glob_exact_small : ∃ (found : List Str) (g' : GlobT),
    [97, slash] ∈ found ∧ glob smallSystem 0 [star, slash] ⟨0, [], 0⟩ () = some (0, g', ()) ∧
      g'.glPathv = found.map some ++ [none] := by
  have hflags : Plain 0 := rfl
  obtain ⟨found, hmem, -, -, ret, g', w', hrun, hsome, -⟩ :=
    glob_exact smallSystem_shows smallTree_valid rfl hflags (List.cons_ne_nil star [slash])
      (by decide) (fun _ hx => Option.mem_some_iff.1 hx ▸ rfl) (by decide) ⟨0, [], 0⟩ ()
  have hmatch : IsMatch smallSystem smallTree 0 [star, slash] [(shortEntry [97] dtDir, 1)] := by
    refine ⟨⟨by decide, trivial⟩, ?_, by decide, fun _ => by decide⟩
    have htokens : tokens isSep [star, slash] = [[star]] := by decide
    rw [htokens]
    exact .cons rfl .nil
  have ha : [97, slash] ∈ found := (hmem _).mpr ⟨_, hmatch, by decide⟩
  obtain ⟨rfl, -, hpathv⟩ := hsome (List.ne_nil_of_mem ha)
  exact ⟨found, g', ha, hrun, hpathv⟩

end Glob
end UtilWin
