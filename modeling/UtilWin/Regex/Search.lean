import UtilWin.Regex.Glob
import Mathlib.Tactic.SplitIfs

/-!
# The search behind a pattern

`match_in_dir` calls itself for the entries that the first component of the pattern accepts, and every
path in the list of matches was put there by one of these calls.  `Reaches` are the calls, `Appends`
what a call puts on the list itself, and whatever a search has found is of this kind
(`onlyAdds_matchInDir`), in any world at all; `glob` returns nothing else (`paths_of_glob`).
-/

namespace UtilWin
namespace Glob

open Directory ErrList

section

variable {σ : Type} (sys : System σ) (flags : BitVec 32)

/-- What is opened for a directory string. -/
def openName (d : Str) : Str := if d ≠ [] then d else [period]

/-- The path of an entry of the directory `d`. -/
def pathIn (d : Str) (de : Dirent) : Str :=
  if d ≠ [] then d.take (prefixLength sys d) ++ slash :: de.dName else de.dName

/-- `de` may be an entry of `d`, and the first component of `p` accepts it. -/
structure Accepted (d p : Str) (de : Dirent) : Prop where
  comp_ne : (splitPattern p).1 ≠ []
  listed : ∃ w stream, (sys.opendir (openName d) w).1 = some stream ∧ de ∈ stream.entries
  passed : passesOver sys flags (splitPattern p).1 (splitPattern p).2.isSome de = false

/-- The call for `d` and `p` may lead to the call for `d'` and `p'`. -/
inductive Reaches : Str → Str → Str → Str → Prop
  | refl (d p : Str) : Reaches d p d p
  | entry {d p rest d' p' : Str} {de : Dirent} (h : Accepted sys flags d p de)
      (hrest : (splitPattern p).2 = some rest) (hreach : Reaches (pathIn sys d de) rest d' p') :
      Reaches d p d' p'

/-- `opendir` or, where that is not allowed, `stat` has taken `d` for a directory. -/
def TakenForDir (d : Str) : Prop :=
  ∃ w, (sys.opendir (openName d) w).1.isSome = true ∨ (sys.stat d w).1.any sIsdir = true

/-- What the call for `d` and `p` appends to the matches: the directory when nothing is left of the
pattern, and an entry when the component is the last. -/
inductive Appends (d p : Str) : Str → Prop
  | self (h : (splitPattern p).1 = []) (hdir : TakenForDir sys d) :
      Appends d p (d ++ if prefixLength sys d ≠ 0 then [slash] else [])
  | entry {de : Dirent} (h : Accepted sys flags d p de) (hrest : (splitPattern p).2 = none)
      (mark : Bool) : Appends d p (pathIn sys d de ++ if mark then [slash] else [])

/-- The calls of `match_in_dir` that `glob` may make. -/
def Called (pat d p : Str) : Prop :=
  pat ≠ [] ∧ (splitDrive sys pat).2.length ≤ pathMax ∧
    Reaches sys flags (splitDrive sys pat).1 (splitDrive sys pat).2 d p

/-- The component `comp` of a pattern accepts the name. -/
def AcceptsName (comp name : Str) : Prop :=
  if isLiteral comp (!has flags globNoescape) then comp = name
  else sys.fnmatch comp name (fnmFlags flags) = true

variable {sys flags}

/-! ## Components -/

/-- The pattern ends in a separator, or nothing is left of it. -/
def endsOpen (p : Str) : Bool := p.getLast?.all isSep

/-- Separators behind a separator do not change whether the pattern ends open. -/
theorem endsOpen_append_cons (comp : Str) {sep : UInt8} (hsep : isSep sep = true) (ys : Str) :
    endsOpen (comp ++ sep :: ys) = endsOpen (ys.dropWhile isSep) := by
  rw [endsOpen, List.getLast?_append_of_ne_nil _ (List.cons_ne_nil _ _)]
  induction ys generalizing sep with
  | nil => simp [endsOpen, hsep]
  | cons y ys ih =>
    rw [List.getLast?_cons_cons]
    cases hy : isSep y with
    | true => rw [ih hy, List.dropWhile_cons_of_pos hy]
    | false => rw [List.dropWhile_cons_of_neg (by simp [hy]), endsOpen]

/-- What is left of a pattern that ends open ends open. -/
theorem endsOpen_of_rest {p rest : Str} (h : endsOpen p = true)
    (hrest : (splitPattern p).2 = some rest) : endsOpen rest = true := by
  rcases splitPattern_cases p with ⟨-, hsplit⟩ | ⟨comp, sep, ys, rfl, hsep, -, hsplit⟩
  · rw [hsplit] at hrest
    cases hrest
  · rw [hsplit] at hrest
    cases hrest
    rwa [endsOpen_append_cons comp hsep] at h

/-- Such a pattern has no last component. -/
theorem comp_eq_nil_of_endsOpen {p : Str} (h : endsOpen p = true)
    (hrest : (splitPattern p).2 = none) : (splitPattern p).1 = [] := by
  rcases splitPattern_cases p with ⟨hp, hsplit⟩ | ⟨comp, sep, ys, rfl, -, -, hsplit⟩
  · rw [hsplit]
    by_contra hne
    rw [endsOpen, List.getLast?_eq_some_getLast hne, Option.all_some,
      hp _ (List.getLast_mem hne)] at h
    cases h
  · rw [hsplit] at hrest
    cases hrest

theorem endsOpen_of_suffix {p pat : Str} (hsuffix : p <:+ pat) (h : endsOpen pat = true) :
    endsOpen p = true := by
  obtain ⟨t, rfl⟩ := hsuffix
  by_cases hp : p = []
  · rw [hp]
    rfl
  · rwa [endsOpen, List.getLast?_append_of_ne_nil _ hp] at h

/-- Without its drive as well. -/
theorem endsOpen_splitDrive (sys : System σ) {pat : Str} (hpat : pat ≠ [])
    (h : endsOpen pat = true) : endsOpen (splitDrive sys pat).2 = true := by
  rw [splitDrive]
  split_ifs with hcolon hlen
  · exact endsOpen_of_suffix ((List.dropWhile_suffix _).trans (List.drop_suffix 3 pat)) h
  · -- two characters, and the second is a colon
    obtain ⟨x, rest, rfl⟩ := List.exists_cons_of_ne_nil hpat
    rcases rest with _ | ⟨y, _ | ⟨z, rest⟩⟩
    · exact absurd (show (0 : UInt8) = colon from hcolon) (by decide)
    · have hy : y = colon := hcolon
      subst hy
      cases h
    · exact absurd (by simp) hlen
  · exact h

theorem Accepted.acceptsName {d p : Str} {de : Dirent} (h : Accepted sys flags d p de) :
    AcceptsName sys flags (splitPattern p).1 de.dName := by
  have hpass := h.passed
  rw [passesOver] at hpass
  rw [Bool.or_eq_false_iff, Bool.or_eq_false_iff, Bool.or_eq_false_iff] at hpass
  obtain ⟨⟨⟨hmatch, heq⟩, -⟩, -⟩ := hpass
  rw [AcceptsName]
  split_ifs with hlit
  · simpa [hlit] using heq
  · simpa [hlit] using hmatch

/-- With more of the pattern to come: its first token, and the rest, which has no separator in
front. -/
theorem tokens_of_rest {p rest : Str} (hcomp : (splitPattern p).1 ≠ [])
    (hrest : (splitPattern p).2 = some rest) :
    tokens isSep p = (splitPattern p).1 :: tokens isSep rest ∧
      ∀ c ∈ rest.head?, isSep c = false := by
  rcases splitPattern_cases p with ⟨-, hsplit⟩ | ⟨comp, sep, ys, rfl, hsep, hcomp', hsplit⟩
  · rw [hsplit] at hrest
    cases hrest
  · rw [hsplit] at hrest hcomp ⊢
    cases hrest
    refine ⟨?_, fun c hc => of_mem_head?_dropWhile hc⟩
    rw [tokens_append_cons hsep, tokens_eq_singleton hcomp hcomp', List.singleton_append,
      tokens_dropWhile]

theorem tokens_of_last {p : Str} (hcomp : (splitPattern p).1 ≠ [])
    (hrest : (splitPattern p).2 = none) : tokens isSep p = [(splitPattern p).1] := by
  rcases splitPattern_cases p with ⟨hp, hsplit⟩ | ⟨comp, sep, ys, rfl, -, -, hsplit⟩
  · rw [hsplit] at hcomp ⊢
    exact tokens_eq_singleton hcomp hp
  · rw [hsplit] at hrest
    cases hrest

/-- Without a separator in front, an empty component is the end of the pattern. -/
theorem eq_nil_of_comp {p : Str} (hhead : ∀ c ∈ p.head?, isSep c = false)
    (hcomp : (splitPattern p).1 = []) : p = [] := by
  rcases splitPattern_cases p with ⟨-, hsplit⟩ | ⟨comp, sep, ys, rfl, hsep, -, hsplit⟩
  · rwa [hsplit] at hcomp
  · rw [hsplit] at hcomp
    dsimp only at hcomp
    subst hcomp
    rw [hhead sep rfl] at hsep
    cases hsep

/-! ## What is found -/

theorem found_of_append {name : Str} {len : ℕ} {mark ok : Bool} {st st' : State σ}
    (h : append sys name len mark st = some (ok, st')) :
    st'.found = st.found ∨ st'.found = st.found ++ [name ++ if mark then [slash] else []] := by
  rw [append] at h
  dsimp only at h
  split_ifs at h with hmalloc hmark
  · cases h
    exact Or.inl rfl
  · cases h
    exact Or.inr (by rw [if_pos hmark])
  · cases h
    exact Or.inr (by rw [if_neg hmark, List.append_nil])

@[simp] theorem grow_found (l : ℕ) (de : Dirent) (nb : Namebuf) (st : State σ) :
    (grow sys l de nb st).2.found = st.found := by
  rw [grow]
  dsimp only
  split_ifs <;> rfl

@[simp] theorem markOf_found (name : Str) (de : Dirent) (st : State σ) :
    (markOf sys flags name de st).2.found = st.found := by
  rw [markOf]
  split_ifs <;> rfl

theorem report_found (d : Str) (error : Errno) (st : State σ) :
    (report sys flags d error st).2.found = st.found := rfl

theorem pathIn_of_entryPath {d name : Str} {de : Dirent} {nb : Namebuf}
    (h : entryPath d (prefixLength sys d) de nb = some name) : name = pathIn sys d de := by
  rw [entryPath] at h
  rw [pathIn]
  split_ifs at h ⊢
  · exact (Option.some.inj h).symm
  · exact (Option.some.inj h).symm

/-- What one entry adds: nothing, or itself, or what the recursive call for it finds. -/
theorem found_of_onEntry {d comp : Str} {walk : Option (Str → State σ → Option (ℕ × State σ))}
    {de : Dirent} {nb nb' : Namebuf} {st st' : State σ} {e : ℕ}
    (h : onEntry sys flags d (prefixLength sys d) comp walk de nb st = some (e, nb', st')) :
    st'.found = st.found ∨
      passesOver sys flags comp walk.isSome de = false ∧
        ((walk = none ∧ ∃ mark : Bool, st'.found =
            st.found ++ [pathIn sys d de ++ if mark then [slash] else []]) ∨
          ∃ f st₁, walk = some f ∧ st₁.found = st.found ∧
            f (pathIn sys d de) st₁ = some (e, st')) := by
  have hgrow : (grow sys (prefixLength sys d) de nb st).2.found = st.found := grow_found _ de nb st
  rw [onEntry] at h
  generalize grow sys (prefixLength sys d) de nb st = r at h hgrow
  obtain ⟨nb₁, st₁⟩ := r
  dsimp only at h hgrow
  split_ifs at h with hpass
  · cases h
    exact Or.inl hgrow
  · have hpass := Bool.eq_false_iff.mpr hpass
    obtain ⟨name, hname, h⟩ := Option.bind_eq_some_iff.mp h
    rw [pathIn_of_entryPath hname] at h
    cases walk with
    | some f =>
      obtain ⟨⟨e', st₂⟩, hrun, h⟩ := Option.bind_eq_some_iff.mp h
      cases h
      exact Or.inr ⟨hpass, Or.inr ⟨f, st₁, rfl, hgrow, hrun⟩⟩
    | none =>
      obtain ⟨⟨ok, st₂⟩, happ, h⟩ := Option.bind_eq_some_iff.mp h
      cases h
      rcases found_of_append happ with hfound | hfound
      · exact Or.inl (by rw [hfound, markOf_found, hgrow])
      · exact Or.inr ⟨hpass, Or.inl ⟨rfl, _, by rw [hfound, markOf_found, hgrow]⟩⟩

/-- Nothing was put on the list but what satisfies `P`. -/
def OnlyAdds (P : Str → Prop) (st st' : State σ) : Prop := ∀ x ∈ st'.found, x ∈ st.found ∨ P x

theorem OnlyAdds.of_eq {P : Str → Prop} {st st' : State σ} (h : st'.found = st.found) :
    OnlyAdds P st st' := fun _ hx => Or.inl (h ▸ hx)

theorem OnlyAdds.of_snoc {P : Str → Prop} {st st' : State σ} {x : Str}
    (h : st'.found = st.found ++ [x]) (hP : P x) : OnlyAdds P st st' := by
  intro y hy
  rw [h, List.mem_append, List.mem_singleton] at hy
  rcases hy with hy | rfl
  · exact Or.inl hy
  · exact Or.inr hP

theorem OnlyAdds.trans {P : Str → Prop} {st₁ st₂ st₃ : State σ} (h : OnlyAdds P st₁ st₂)
    (h' : OnlyAdds P st₂ st₃) : OnlyAdds P st₁ st₃ :=
  fun x hx => (h' x hx).elim (h x) Or.inr

/-- A loop adds only what its rounds add. -/
theorem onlyAdds_overEntries
    {body : Dirent → Namebuf → State σ → Option (ℕ × Namebuf × State σ)} {P : Str → Prop}
    {entries : List Dirent} (hbody : ∀ de ∈ entries, ∀ nb st e nb' st',
      body de nb st = some (e, nb', st') → OnlyAdds P st st')
    {nb : Namebuf} {st st' : State σ} {e : ℕ}
    (h : overEntries body entries nb st = some (e, st')) : OnlyAdds P st st' := by
  induction entries generalizing nb st with
  | nil =>
    cases h
    exact .of_eq rfl
  | cons de entries ih =>
    obtain ⟨⟨e₁, nb₁, st₁⟩, hround, h⟩ := Option.bind_eq_some_iff.mp h
    have hfirst := hbody de List.mem_cons_self nb st e₁ nb₁ st₁ hround
    dsimp only at h
    split_ifs at h with he
    · cases h
      exact hfirst
    · exact hfirst.trans (ih (fun de' hde' => hbody de' (List.mem_cons_of_mem _ hde')) h)

/-- What one directory adds: itself, or what its entries add. -/
theorem onlyAdds_inDir {d comp : Str} {walk : Option (Str → State σ → Option (ℕ × State σ))}
    {P : Str → Prop} {st st' : State σ} {e : ℕ}
    (hself : comp = [] → TakenForDir sys d →
      P (d ++ if prefixLength sys d ≠ 0 then [slash] else []))
    (hentry : ∀ w stream, (sys.opendir (openName d) w).1 = some stream → comp ≠ [] →
      ∀ de ∈ stream.entries, ∀ nb st e nb' st',
        onEntry sys flags d (prefixLength sys d) comp walk de nb st = some (e, nb', st') →
          OnlyAdds P st st')
    (h : inDir sys flags d comp walk st = some (e, st')) : OnlyAdds P st st' := by
  -- the directory itself
  have happend : ∀ {w : σ} {ok : Bool} {st₂ : State σ}, comp = [] → TakenForDir sys d →
      append sys d (prefixLength sys d) (prefixLength sys d ≠ 0) ⟨w, st.found⟩ = some (ok, st₂) →
        OnlyAdds P st st₂ := by
    intro w ok st₂ hcomp hdir happ
    rcases found_of_append happ with hfound | hfound
    · exact .of_eq hfound
    · simp only [decide_eq_true_eq] at hfound
      exact .of_snoc hfound (hself hcomp hdir)
  have hreport : ∀ {st₁ : State σ} {error : Errno},
      some (report sys flags d error st₁) = some (e, st') → OnlyAdds P st st₁ →
        OnlyAdds P st st' := by
    intro st₁ error hrun hst
    have hfound : (report sys flags d error st₁).2.found = st₁.found := report_found d error st₁
    rw [Option.some.inj hrun] at hfound
    exact hst.trans (.of_eq hfound)
  have hopened := hentry st.world
  have htaken : (sys.opendir (openName d) st.world).1.isSome = true → TakenForDir sys d :=
    fun hsome => ⟨st.world, Or.inl hsome⟩
  rw [inDir, ← openName] at h
  generalize sys.opendir (openName d) st.world = r at h hopened htaken
  obtain ⟨_ | stream, w₁⟩ := r
  · dsimp only at h
    split_ifs at h with hnotdir hacces hstat
    · cases h
      exact .of_eq rfl
    · obtain ⟨⟨ok, st₁⟩, happ, h⟩ := Option.bind_eq_some_iff.mp h
      cases h
      exact happend hacces.2 ⟨_, Or.inr hstat⟩ happ
    · exact hreport h (.of_eq rfl)
    · exact hreport h (.of_eq rfl)
  · dsimp only at h
    by_cases hcomp : comp = []
    · rw [if_pos hcomp] at h
      obtain ⟨⟨ok, st₁⟩, happ, h⟩ := Option.bind_eq_some_iff.mp h
      cases h
      exact happend hcomp (htaken rfl) happ
    · rw [if_neg hcomp] at h
      obtain ⟨⟨error, st₁⟩, hloop, h⟩ := Option.bind_eq_some_iff.mp h
      have hadds : OnlyAdds P ⟨w₁, st.found⟩ st₁ :=
        onlyAdds_overEntries (hopened stream rfl hcomp) hloop
      dsimp only at h
      split_ifs at h
      · cases h
        exact hadds
      · exact hreport h hadds
      · cases h
        exact hadds

/-- **What the search has found** was put on the list by one of the calls. -/
theorem onlyAdds_matchInDir {d p : Str} {st st' : State σ} {e : ℕ}
    (h : matchInDir sys flags d p st = some (e, st')) :
    OnlyAdds (fun x => ∃ d' p', Reaches sys flags d p d' p' ∧ Appends sys flags d' p' x) st st' := by
  induction hlen : p.length using Nat.strong_induction_on generalizing d p st st' e with
  | _ k ih =>
  have hself : (splitPattern p).1 = [] → TakenForDir sys d → ∃ d' p', Reaches sys flags d p d' p' ∧
      Appends sys flags d' p' (d ++ if prefixLength sys d ≠ 0 then [slash] else []) :=
    fun hcomp hdir => ⟨d, p, .refl d p, .self hcomp hdir⟩
  cases hsplit : (splitPattern p).2 with
  | none =>
    rw [matchInDir_of_none sys flags st (Prod.ext rfl hsplit)] at h
    refine onlyAdds_inDir hself (fun w stream hopen hcomp de hde nb st₁ e₁ nb' st₂ hrun => ?_) h
    rcases found_of_onEntry hrun with hfound | ⟨hpass, ⟨-, mark, hfound⟩ | ⟨f, _, hf, -⟩⟩
    · exact .of_eq hfound
    · have hacc : Accepted sys flags d p de := by
        refine ⟨hcomp, ⟨w, stream, hopen, hde⟩, ?_⟩
        rw [hsplit]
        exact hpass
      exact .of_snoc hfound ⟨d, p, .refl d p, .entry hacc hsplit mark⟩
    · cases hf
  | some rest =>
    rw [matchInDir_of_some sys flags st (Prod.ext rfl hsplit)] at h
    refine onlyAdds_inDir hself (fun w stream hopen hcomp de hde nb st₁ e₁ nb' st₂ hrun => ?_) h
    rcases found_of_onEntry hrun with hfound | ⟨hpass, ⟨hf, -⟩ | ⟨f, st₃, hf, hst, hcall⟩⟩
    · exact .of_eq hfound
    · cases hf
    · cases hf
      have hacc : Accepted sys flags d p de := by
        refine ⟨hcomp, ⟨w, stream, hopen, hde⟩, ?_⟩
        rw [hsplit]
        exact hpass
      refine OnlyAdds.trans (.of_eq hst) fun x hx => ?_
      refine (ih _ (hlen ▸ length_rest_lt hsplit) hcall rfl x hx).imp_right ?_
      rintro ⟨d', p', hreach, happ⟩
      exact ⟨d', p', .entry hacc hsplit hreach, happ⟩

/-! ## Room -/

/-- There is a buffer if it has a size. -/
def Namebuf.Ok (nb : Namebuf) : Prop := nb.size ≠ 0 → nb.valid = true

section

variable (hmalloc : ∀ size w, (sys.malloc size w).1 = true)

include hmalloc in
theorem append_eq {name : Str} {len : ℕ} (mark : Bool) (st : State σ)
    (hlen : name.length ≤ len + 7) :
    append sys name len mark st = some (true, ⟨(sys.malloc (16 + len + 1) st.world).2,
      st.found ++ [name ++ if mark then [slash] else []]⟩) := by
  rw [append]
  cases mark with
  | false => simp [hmalloc]; omega
  | true => simp [hmalloc]; omega

include hmalloc in
/-- After `grow` there is room for the name of the entry. -/
theorem room_of_grow (l : ℕ) (de : Dirent) {nb : Namebuf} (hnb : nb.Ok) (st : State σ) :
    (grow sys l de nb st).1.valid = true ∧
      l + de.dReclen.toNat + 2 ≤ (grow sys l de nb st).1.size := by
  by_cases h : l + de.dReclen.toNat + 2 > nb.size
  · simp only [grow, if_pos h, hmalloc]
    exact ⟨trivial, Nat.le_refl _⟩
  · rw [grow, if_neg h]
    exact ⟨hnb (by omega), Nat.le_of_not_lt h⟩

/-- Only the empty string can be shorter than its prefix. -/
theorem prefixLength_le {d : Str} (hd : d ≠ []) : prefixLength sys d ≤ d.length := by
  rw [prefixLength]
  split_ifs with h
  · have hpos := List.length_pos_iff.mpr hd
    by_contra hlt
    -- the second character of a string of one is the terminator
    have hone : d.length = 1 := by omega
    have hzero : charAt sys d 1 = 0 := by rw [charAt, dif_neg (by omega), if_pos hone.symm]
    rw [hzero] at h
    exact absurd h.1 (by decide)
  · exact Nat.le_refl _

theorem entryPath_eq_pathIn {d : Str} {de : Dirent} {nb : Namebuf} (hvalid : nb.valid = true)
    (hroom : prefixLength sys d + de.dReclen.toNat + 2 ≤ nb.size)
    (hlen : de.dName.length ≤ de.dReclen.toNat) :
    entryPath d (prefixLength sys d) de nb = some (pathIn sys d de) := by
  rw [entryPath, pathIn]
  by_cases hd : d = []
  · rw [if_neg (fun h => h hd), if_neg (fun h => h hd)]
  · rw [if_pos hd, if_pos hd, if_pos ⟨hvalid, prefixLength_le hd, by omega⟩]

theorem length_pathIn_le {d : Str} {de : Dirent} (hlen : de.dName.length ≤ de.dReclen.toNat) :
    (pathIn sys d de).length ≤ prefixLength sys d + de.dReclen.toNat + 1 := by
  rw [pathIn]
  split_ifs with hd
  · rw [List.length_append, List.length_take, List.length_cons]
    omega
  · omega

end

/-! ## Terminators -/

/-- From the fourth character on there is no terminator inside. -/
def Terminated (d : Str) : Prop := 0 ∉ d.drop 3

theorem Terminated.length_le {d : Str} (h : Terminated d) :
    d.length ≤ prefixLength sys d + 7 := by
  rw [prefixLength]
  split_ifs with hchar
  · by_contra hlong
    have hlt : 3 < d.length := by omega
    have hzero := hchar.2
    rw [charAt, dif_pos hlt] at hzero
    refine h (List.mem_drop_iff_getElem.mpr ⟨0, by omega, ?_⟩)
    exact hzero
  · omega

theorem Terminated.pathIn {d : Str} {de : Dirent} (h : Terminated d) (hde : 0 ∉ de.dName) :
    Terminated (pathIn sys d de) := by
  rw [Terminated, Glob.pathIn]
  split_ifs with hd
  · rw [List.drop_append, List.mem_append, not_or]
    refine ⟨fun hmem => ?_, fun hmem => ?_⟩
    · rw [List.drop_take] at hmem
      exact h (List.mem_of_mem_take hmem)
    · rcases List.mem_cons.mp (List.mem_of_mem_drop hmem) with hslash | hname
      · exact absurd hslash (by decide)
      · exact hde hname
  · exact fun hmem => hde (List.mem_of_mem_drop hmem)

theorem terminated_splitDrive (sys : System σ) (pat : Str) :
    Terminated (splitDrive sys pat).1 := by
  rw [Terminated, splitDrive]
  split_ifs <;> exact List.not_mem_nil

/-! ## What is returned -/

theorem paths_of_store {offs error ret : ℕ} {g g' : GlobT} {st : State σ} {w' : σ}
    (h : store sys flags offs g error st = (ret, g', w')) {x : Str} (hx : some x ∈ g'.glPathv) :
    some x ∈ g.glPathv ∨ x ∈ st.found := by
  have hmatched : ∀ {found : List Str} {old : List (Option Str)},
      some x ∈ old ++ found.map some ++ [none] → some x ∈ old ∨ x ∈ found := by
    intro found old hx
    simpa only [List.mem_append, List.mem_map, Option.some.injEq, exists_eq_right,
      List.mem_singleton, reduceCtorEq, or_false] using hx
  have hsorted : x ∈ (if has flags globNosort then st.found else st.found.mergeSort strcmpLe) →
      x ∈ st.found := by
    split_ifs
    · exact id
    · exact List.mem_mergeSort.mp
  rw [store] at h
  dsimp only at h
  by_cases hmalloc : (!(sys.malloc ((offs + (if has flags globAppend then g.glPathc else 0) +
      st.found.length + 1) * 8) st.world).1) = true
  · rw [if_pos hmalloc] at h
    cases h
    split_ifs at hx
    · exact Or.inl hx
    · exact absurd hx List.not_mem_nil
  · rw [if_neg hmalloc] at h
    cases h
    rcases hmatched hx with hold | hfound
    · split_ifs at hold
      · exact Or.inl (List.mem_of_mem_take hold)
      · cases List.eq_of_mem_replicate hold
    · exact Or.inr (hsorted hfound)

/-- What `glob` makes of the end of the search. -/
def conclude (sys : System σ) (flags : BitVec 32) (pat : Str) (offs : ℕ) (g : GlobT) (error : ℕ)
    (st : State σ) : Option (ℕ × GlobT × σ) :=
  if error = globNospace then some (error, g, st.world)
  else if st.found = [] then
    if has flags globNocheck then
      (append sys pat pat.length false st).bind fun r =>
        if !r.1 then some (globNospace, g, r.2.world)
        else some (store sys flags offs g error r.2)
    else some (globNomatch, g, st.world)
  else some (store sys flags offs g error st)

/-- `glob` is a search and its conclusion. -/
theorem glob_eq_conclude (sys : System σ) (flags : BitVec 32) (pat : Str) (g : GlobT) (w : σ) :
    ∃ offs g₁, g₁ = (if !has flags globAppend then ⟨0, [], offs⟩ else g) ∧
      offs = (if has flags globDooffs then g.glOffs else 0) ∧
      glob sys flags pat g w =
        if (splitDrive sys pat).2.length > pathMax then some (globNospace, g₁, w)
        else
          (if pat ≠ [] then matchInDir sys flags (splitDrive sys pat).1 (splitDrive sys pat).2 ⟨w, []⟩
            else some (0, ⟨w, []⟩)).bind fun r => conclude sys flags pat offs g₁ r.1 r.2 := by
  refine ⟨_, _, rfl, rfl, ?_⟩
  rw [glob]
  dsimp only
  rw [← apply_ite (fun r : Option (ℕ × State σ) => r >>= _)]
  rfl

/-- **What is returned in the end**: what was there before, or the pattern itself, or what was found. -/
theorem paths_of_conclude {pat : Str} {offs error ret : ℕ} {g g' : GlobT} {st : State σ} {w' : σ}
    (h : conclude sys flags pat offs g error st = some (ret, g', w')) {x : Str}
    (hx : some x ∈ g'.glPathv) :
    some x ∈ g.glPathv ∨ (has flags globNocheck = true ∧ x = pat) ∨ x ∈ st.found := by
  rw [conclude] at h
  split_ifs at h with hnospace hempty hnocheck
  · cases h
    exact Or.inl hx
  · -- the pattern itself
    obtain ⟨⟨ok, st₁⟩, happ, h⟩ := Option.bind_eq_some_iff.mp h
    dsimp only at h
    split_ifs at h
    · cases h
      exact Or.inl hx
    · rcases paths_of_store (Option.some.inj h) hx with hg | hst
      · exact Or.inl hg
      · rcases found_of_append happ with happ | happ
        · rw [happ, hempty] at hst
          exact absurd hst List.not_mem_nil
        · rw [happ, hempty, if_neg Bool.false_ne_true, List.append_nil] at hst
          exact Or.inr (Or.inl ⟨hnocheck, List.mem_singleton.mp hst⟩)
  · cases h
    exact Or.inl hx
  · exact (paths_of_store (Option.some.inj h) hx).imp_right Or.inr

/-- **What `glob` returns**: what was there before, or the pattern itself, or what one of the calls of
`match_in_dir` has appended. -/
theorem paths_of_glob {pat : Str} {g g' : GlobT} {w w' : σ} {ret : ℕ}
    (h : glob sys flags pat g w = some (ret, g', w')) {x : Str} (hx : some x ∈ g'.glPathv) :
    some x ∈ g.glPathv ∨ (has flags globNocheck = true ∧ x = pat) ∨
      ∃ d p, Called sys flags pat d p ∧ Appends sys flags d p x := by
  obtain ⟨offs, g₁, hg, -, heq⟩ := glob_eq_conclude sys flags pat g w
  rw [heq] at h
  have hold : some x ∈ g₁.glPathv → some x ∈ g.glPathv := by
    subst hg
    split_ifs
    · exact fun hx => absurd hx List.not_mem_nil
    · exact id
  by_cases hlong : (splitDrive sys pat).2.length > pathMax
  · rw [if_pos hlong] at h
    cases h
    exact Or.inl (hold hx)
  rw [if_neg hlong] at h
  obtain ⟨⟨error, st⟩, hrun, h⟩ := Option.bind_eq_some_iff.mp h
  refine (paths_of_conclude h hx).imp hold (Or.imp_right fun hst => ?_)
  dsimp only at hst
  split_ifs at hrun with hpat
  · rcases onlyAdds_matchInDir hrun x hst with hnil | ⟨d, p, hreach, happ⟩
    · exact absurd hnil List.not_mem_nil
    · exact ⟨d, p, ⟨hpat, Nat.le_of_not_lt hlong, hreach⟩, happ⟩
  · cases hrun
    exact absurd hst List.not_mem_nil

end

end Glob
end UtilWin
