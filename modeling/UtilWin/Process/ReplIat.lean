import Mathlib.Data.List.Flatten
import UtilWin.Library.Cells

/-!
# Replacing imported functions

`ReplaceIAT2` goes through the import thunks of a module, perhaps only through those of one DLL, and
replaces the functions of one array by those of another.  For each thunk it tries the functions one
after the other, and does not stop at the one it finds: what it has just written is compared with the
functions that follow.  So a thunk goes along a chain of replacements (`chain`), and the thunk is
counted once for each of them.

The three loops do to the module what `rewriteCells` does with that chain (`replaceIAT2_eq`), so each
thunk is settled by what it held at the start.  The substitution is simultaneous exactly when no thunk
holds a function whose replacement comes later in the array itself (`substitutes_iff`).
-/

namespace UtilWin
namespace ReplIat

/-! ## The function -/

/-- A `void*`. -/
abbrev Ptr := BitVec 64

/-- The thunks of a module, by address. -/
abbrev Thunks := ℕ → Ptr

/-- An `IMAGE_IMPORT_DESCRIPTOR`, with the string that `Name` leads to. -/
structure Descriptor where
  name : List UInt8
  firstThunk : ℕ

/-- What `ReplaceIAT2` finds in the headers of a module, and `sizeof(IMAGE_THUNK_DATA)`. -/
structure Directory where
  /-- The import descriptors. -/
  des : ℕ → Descriptor
  /-- The `Size` of the directory entry. -/
  size : ℕ
  sizeofThunk : ℕ

/-- `&ith[i]`, for the thunks of `des[j]`. -/
def Directory.ith (d : Directory) (j i : ℕ) : ℕ := (d.des j).firstThunk + d.sizeofThunk * i

def toLower (c : UInt8) : UInt8 := if 0x41 ≤ c ∧ c ≤ 0x5a then c + 0x20 else c

/-- The filter by name: `!dname || _stricmp(dname, dname1) == 0`. -/
def Selects (dname : Option (List UInt8)) (des : Descriptor) : Prop :=
  ∀ name ∈ dname, name.map toLower = des.name.map toLower

instance (dname : Option (List UInt8)) (des : Descriptor) : Decidable (Selects dname des) := by
  unfold Selects; infer_instance

/-- The loop over `func_from` at one thunk.  The arrays are a list of pairs, up to the null that ends
the first. -/
def replaceThunk (func : List (Ptr × Ptr)) (s : Thunks × ℕ) (oPos : ℕ) : Thunks × ℕ :=
  func.foldl (fun s p => if s.1 oPos = p.1 then (Function.update s.1 oPos p.2, s.2 + 1) else s) s

/-- The loop over the thunks of `des[j]`, from `i` on. -/
def replaceThunks (func : List (Ptr × Ptr)) (d : Directory) (j : ℕ) :
    (fuel i : ℕ) → Thunks × ℕ → Option (Thunks × ℕ)
  | 0, _, _ => none
  | fuel + 1, i, s =>
    if s.1 (d.ith j i) = 0 then some s
    else replaceThunks func d j fuel (i + 1) (replaceThunk func s (d.ith j i))

/-- The loop over the descriptors, from `j` on, with `n` to go. -/
def replaceDescriptors (func : List (Ptr × Ptr)) (d : Directory) (dname : Option (List UInt8))
    (fuel : ℕ) : (n j : ℕ) → Thunks × ℕ → Option (Thunks × ℕ)
  | 0, _, s => some s
  | n + 1, j, s =>
    if (d.des j).firstThunk = 0 then some s
    else if Selects dname (d.des j) then
      (replaceThunks func d j fuel 0 s).bind (replaceDescriptors func d dname fuel n (j + 1))
    else replaceDescriptors func d dname fuel n (j + 1) s

/-- `ReplaceIAT2`: the thunks afterwards, and what is returned. -/
def replaceIAT2 (fuel : ℕ) (mod : Option Directory) (dname : Option (List UInt8))
    (func : Option (List (Ptr × Ptr))) (thunks : Thunks) : Option (Thunks × ℕ) :=
  match mod, func with
  | some d, some func =>
    replaceDescriptors func d dname fuel (d.size / d.sizeofThunk) 0 (thunks, 0)
  | _, _ => some (thunks, 0)

/-! ## What is asked of it -/

/-- A well-formed module: its descriptors, as many as `n`, are ended by one that is zero, the thunks
of each by one that is null, no two thunks share a cell, and the size in the directory covers the
descriptors. -/
structure Image extends Directory where
  thunks : Thunks
  n : ℕ
  /-- How many thunks there are for each descriptor. -/
  count : ℕ → ℕ
  sizeof : sizeofThunk = 4 ∨ sizeofThunk = 8
  covered : (n + 1) * 20 ≤ size
  firstThunk_ne : ∀ j < n, (des j).firstThunk ≠ 0
  firstThunk_end : (des n).firstThunk = 0
  thunk_ne : ∀ j < n, ∀ i < count j, thunks (toDirectory.ith j i) ≠ 0
  thunk_end : ∀ j < n, thunks (toDirectory.ith j (count j)) = 0
  apart : ∀ j < n, ∀ j' < n, j ≠ j' → ∀ i < count j, ∀ i' < count j',
    toDirectory.ith j i ≠ toDirectory.ith j' i'

/-- The arrays `func_from` and `func_to`: no function twice, and none of them null. -/
structure Hooks where
  func : List (Ptr × Ptr)
  ne_zero : ∀ p ∈ func, p.1 ≠ 0
  nodup : (func.map Prod.fst).Nodup

namespace Image

variable (img : Image) (dname : Option (List UInt8))

/-- The thunks of `des[j]`, if it is selected. -/
def slotsOf (j : ℕ) : List ℕ :=
  if Selects dname (img.des j) then (List.range' 0 (img.count j)).map (img.ith j) else []

/-- The thunks of all selected descriptors. -/
def slots : List ℕ := (List.range' 0 img.n).flatMap (img.slotsOf dname)

end Image

/-- `thunks` and `rcnt` are what a simultaneous substitution gives. -/
structure Substituted (img : Image) (dname : Option (List UInt8)) (hooks : Hooks) (thunks : Thunks)
    (rcnt : ℕ) : Prop where
  /-- A selected thunk that held a function of the array holds its counterpart. -/
  replaced : ∀ a ∈ img.slots dname, ∀ p ∈ hooks.func, img.thunks a = p.1 → thunks a = p.2
  /-- All others hold what they held. -/
  unchanged : ∀ a, a ∉ img.slots dname ∨ img.thunks a ∉ hooks.func.map Prod.fst →
    thunks a = img.thunks a
  /-- The thunks of the first kind are counted. -/
  counted : rcnt = (img.slots dname).countP (img.thunks · ∈ hooks.func.map Prod.fst)

/-- `ReplaceIAT2` returns, and has substituted simultaneously. -/
def Substitutes (img : Image) (dname : Option (List UInt8)) (hooks : Hooks) : Prop :=
  ∃ fuel r, replaceIAT2 fuel (some img.toDirectory) dname (some hooks.func) img.thunks = some r ∧
    Substituted img dname hooks r.1 r.2

/-- No selected thunk holds a function whose counterpart is itself further down in the array. -/
def NoChain (img : Image) (dname : Option (List UInt8)) (hooks : Hooks) : Prop :=
  ∀ a ∈ img.slots dname, ∀ pre f t post, hooks.func = pre ++ (f, t) :: post →
    img.thunks a = f → t ∉ post.map Prod.fst

/-! ## One thunk -/

/-- What becomes of a thunk, and how often it is replaced. -/
def chain : List (Ptr × Ptr) → Ptr → Ptr × ℕ
  | [], x => (x, 0)
  | p :: func, x => if x = p.1 then ((chain func p.2).1, (chain func p.2).2 + 1) else chain func x

variable {func : List (Ptr × Ptr)} {x : Ptr}

/-- The loop over the arrays is a rewriting of the one cell. -/
theorem replaceThunk_eq (func : List (Ptr × Ptr)) (s : Thunks × ℕ) (a : ℕ) :
    replaceThunk func s a = rewriteCell (fun x => (chain func x).1) (fun x => (chain func x).2) s a := by
  induction func generalizing s with
  | nil => exact Prod.ext (Function.update_eq_self a s.1).symm rfl
  | cons p func ih =>
    rw [replaceThunk, List.foldl_cons, ← replaceThunk, ih]
    unfold rewriteCell
    split_ifs with hp
    · simp only [chain, if_pos hp, Function.update_self, Function.update_idem]
      refine Prod.ext rfl ?_
      show s.2 + 1 + _ = s.2 + (_ + 1)
      omega
    · simp only [chain, if_neg hp]

theorem chain_of_notMem (h : x ∉ func.map Prod.fst) : chain func x = (x, 0) := by
  induction func with
  | nil => rfl
  | cons p func ih =>
    rw [List.map_cons, List.mem_cons, not_or] at h
    rw [chain, if_neg h.1, ih h.2]

/-- Where the function stands in the array, the chain goes on with its counterpart. -/
theorem chain_of_split {pre post : List (Ptr × Ptr)} {t : Ptr} (h : x ∉ pre.map Prod.fst) :
    chain (pre ++ (x, t) :: post) x = ((chain post t).1, (chain post t).2 + 1) := by
  induction pre with
  | nil => exact if_pos rfl
  | cons p pre ih =>
    rw [List.map_cons, List.mem_cons, not_or] at h
    rw [List.cons_append, chain, if_neg h.1, ih h.2]

/-- A thunk is replaced when it holds a function of the array. -/
theorem chain_pos_iff : 1 ≤ (chain func x).2 ↔ x ∈ func.map Prod.fst := by
  constructor
  · intro h
    by_contra hnot
    rw [chain_of_notMem hnot] at h
    exact absurd h (Nat.not_succ_le_zero 0)
  · intro h
    induction func with
    | nil => exact absurd h List.not_mem_nil
    | cons p func ih =>
      rw [chain]
      split_ifs with hp
      · exact Nat.le_add_left 1 _
      · rw [List.map_cons, List.mem_cons] at h
        exact ih (h.resolve_left hp)

/-- One function of the array, and its counterpart: the chain ends there when the counterpart does
not come later. -/
theorem chain_of_mem {hooks : Hooks} {p : Ptr × Ptr} (hp : p ∈ hooks.func) :
    ∃ pre post, hooks.func = pre ++ (p.1, p.2) :: post ∧
      (chain hooks.func p.1).2 = (chain post p.2).2 + 1 ∧
      (p.2 ∉ post.map Prod.fst → (chain hooks.func p.1).1 = p.2) := by
  obtain ⟨pre, post, hsplit⟩ := List.append_of_mem hp
  have hnodup := hooks.nodup
  rw [hsplit, List.map_append, List.nodup_append] at hnodup
  have hpre : p.1 ∉ pre.map Prod.fst := fun hmem =>
    hnodup.2.2 _ hmem _ (List.mem_map_of_mem List.mem_cons_self) rfl
  have hchain : chain hooks.func p.1 = ((chain post p.2).1, (chain post p.2).2 + 1) := by
    rw [hsplit]
    exact chain_of_split hpre
  refine ⟨pre, post, hsplit, by rw [hchain], fun hnot => ?_⟩
  rw [hchain, chain_of_notMem hnot]

/-- **A thunk is replaced once at most** exactly when its counterpart does not come later. -/
theorem chain_eq_iff (hooks : Hooks) (x : Ptr) :
    (chain hooks.func x).2 = (if x ∈ hooks.func.map Prod.fst then 1 else 0) ↔
      ∀ pre f t post, hooks.func = pre ++ (f, t) :: post → x = f → t ∉ post.map Prod.fst := by
  by_cases hx : x ∈ hooks.func.map Prod.fst
  · rw [if_pos hx]
    obtain ⟨p, hp, rfl⟩ := List.mem_map.mp hx
    obtain ⟨pre, post, hsplit, hcount, -⟩ := chain_of_mem hp
    rw [hcount]
    constructor
    · rintro hone pre' f t post' hsplit' rfl ht
      -- the function stands in the array once
      have hsame : (chain hooks.func p.1).2 = (chain post' t).2 + 1 := by
        have hnodup := hooks.nodup
        rw [hsplit', List.map_append, List.nodup_append] at hnodup
        have hpre : p.1 ∉ pre'.map Prod.fst := fun hmem =>
          hnodup.2.2 _ hmem _ (List.mem_map_of_mem List.mem_cons_self) rfl
        rw [hsplit', chain_of_split hpre]
      have hpos := chain_pos_iff.mpr ht
      omega
    · intro h
      rw [chain_of_notMem (h pre p.1 p.2 post hsplit rfl)]
  · rw [if_neg hx, chain_of_notMem hx]
    refine ⟨fun _ pre f t post hsplit hf => absurd ?_ hx, fun _ => rfl⟩
    rw [hf, hsplit, List.map_append]
    exact List.mem_append_right _ List.mem_cons_self

/-! ## The loops -/

/-- All thunks of a list, one after the other. -/
def replaceAll (func : List (Ptr × Ptr)) (l : List ℕ) (s : Thunks × ℕ) : Thunks × ℕ :=
  rewriteCells (fun x => (chain func x).1) (fun x => (chain func x).2) l s

theorem replaceAll_append (func : List (Ptr × Ptr)) (l l' : List ℕ) (s : Thunks × ℕ) :
    replaceAll func (l ++ l') s = replaceAll func l' (replaceAll func l s) :=
  rewriteCells_append _ _ l l' s

namespace Image

variable (img : Image) {s : Thunks × ℕ} {fuel i j k : ℕ} {dname : Option (List UInt8)}

theorem sizeof_pos : 0 < img.sizeofThunk := by
  rcases img.sizeof with h | h <;> rw [h] <;> decide

theorem ith_ne {i' : ℕ} (h : i ≠ i') : img.ith j i ≠ img.ith j i' := by
  intro heq
  refine h (Nat.eq_of_mul_eq_mul_left img.sizeof_pos ?_)
  unfold Directory.ith at heq
  omega

/-- What the loops rely on for the descriptors from `j` on. -/
def Intact (t : Thunks) (j : ℕ) : Prop :=
  ∀ j', j ≤ j' → j' < img.n →
    (∀ i < img.count j', t (img.ith j' i) ≠ 0) ∧ t (img.ith j' (img.count j')) = 0

/-- The thunks of one descriptor. -/
theorem replaceThunks_eq (hne : ∀ i', i ≤ i' → i' < i + k → s.1 (img.ith j i') ≠ 0)
    (hend : s.1 (img.ith j (i + k)) = 0) (hfuel : k < fuel) :
    replaceThunks func img.toDirectory j fuel i s =
      some (replaceAll func ((List.range' i k).map (img.ith j)) s) := by
  induction k generalizing fuel i s with
  | zero =>
    obtain ⟨fuel, rfl⟩ : ∃ fuel', fuel = fuel' + 1 := ⟨fuel - 1, by omega⟩
    rw [Nat.add_zero] at hend
    rw [replaceThunks, if_pos hend]
    rfl
  | succ k ih =>
    obtain ⟨fuel, rfl⟩ : ∃ fuel', fuel = fuel' + 1 := ⟨fuel - 1, by omega⟩
    have hsame : ∀ i', i' ≠ i → (replaceThunk func s (img.ith j i)).1 (img.ith j i') =
        s.1 (img.ith j i') := by
      intro i' hi'
      rw [replaceThunk_eq]
      exact Function.update_of_ne (img.ith_ne hi') _ _
    rw [replaceThunks, if_neg (hne i (Nat.le_refl i) (by omega)), ih, replaceThunk_eq]
    · rfl
    · intro i' hle hlt
      rw [hsame i' (by omega)]
      exact hne i' (by omega) (by omega)
    · rw [hsame _ (by omega), Nat.add_right_comm]
      exact hend
    · omega

/-- The thunks of one descriptor leave those of the later ones intact. -/
theorem Intact.replaceAll (h : img.Intact s.1 j) (hj : j < img.n) :
    img.Intact (replaceAll func (img.slotsOf dname j) s).1 (j + 1) := by
  intro j' hle hlt
  obtain ⟨hne, hend⟩ := h j' (by omega) hlt
  -- no cell of `j'` is a thunk of `j`
  have hsame : ∀ a, (∀ i < img.count j, img.ith j i ≠ a) →
      (ReplIat.replaceAll func (img.slotsOf dname j) s).1 a = s.1 a := by
    intro a ha
    refine rewriteCells_of_notMem ?_
    rw [slotsOf]
    split_ifs
    · intro hmem
      obtain ⟨i, hi, rfl⟩ := List.mem_map.mp hmem
      rw [List.mem_range'_1] at hi
      exact ha i (by omega) rfl
    · exact List.not_mem_nil
  constructor
  · intro i hi
    rw [hsame _ fun i' hi' => img.apart j hj j' hlt (by omega) i' hi' i hi]
    exact hne i hi
  · rw [hsame _ fun i' hi' heq => (h j (Nat.le_refl j) hj).1 i' hi' (heq ▸ hend)]
    exact hend

/-- **The loop over the descriptors.** -/
theorem replaceDescriptors_eq {m : ℕ} (hk : j + k = img.n) (hm : k < m)
    (hfuel : ∀ j' < img.n, img.count j' < fuel) (h : img.Intact s.1 j) :
    replaceDescriptors func img.toDirectory dname fuel m j s =
      some (ReplIat.replaceAll func ((List.range' j k).flatMap (img.slotsOf dname)) s) := by
  induction k generalizing m j s with
  | zero =>
    obtain ⟨m, rfl⟩ : ∃ m', m = m' + 1 := ⟨m - 1, by omega⟩
    obtain rfl : j = img.n := by omega
    rw [replaceDescriptors, if_pos img.firstThunk_end]
    rfl
  | succ k ih =>
    obtain ⟨m, rfl⟩ : ∃ m', m = m' + 1 := ⟨m - 1, by omega⟩
    have hj : j < img.n := by omega
    have hrest := ih (m := m) (j := j + 1) (s := ReplIat.replaceAll func (img.slotsOf dname j) s)
      (by omega) (by omega) (Intact.replaceAll img h hj)
    rw [← replaceAll_append, ← List.flatMap_cons, ← List.range'_succ] at hrest
    rw [replaceDescriptors, if_neg (img.firstThunk_ne j hj), ← hrest]
    obtain ⟨hne, hend⟩ := h j (Nat.le_refl j) hj
    by_cases hsel : Selects dname (img.des j)
    · have hthunks : replaceThunks func img.toDirectory j fuel 0 s = some (ReplIat.replaceAll func
          ((List.range' 0 (img.count j)).map (img.ith j)) s) :=
        img.replaceThunks_eq (fun i' _ hlt => hne i' (by omega))
          (by rw [Nat.zero_add]; exact hend) (hfuel j hj)
      rw [if_pos hsel, hthunks, slotsOf, if_pos hsel]
      rfl
    · rw [if_neg hsel, slotsOf, if_neg hsel]
      rfl

theorem intact : img.Intact img.thunks 0 := fun j _ hj =>
  ⟨fun i hi => img.thunk_ne j hj i hi, img.thunk_end j hj⟩

/-- No thunk comes twice. -/
theorem nodup_slots (dname : Option (List UInt8)) : (img.slots dname).Nodup := by
  have hmem : ∀ {j a : ℕ}, a ∈ img.slotsOf dname j → ∃ i < img.count j, img.ith j i = a := by
    intro j a ha
    rw [slotsOf] at ha
    split_ifs at ha
    · obtain ⟨i, hi, rfl⟩ := List.mem_map.mp ha
      rw [List.mem_range'_1] at hi
      exact ⟨i, by omega, rfl⟩
    · exact absurd ha List.not_mem_nil
  refine List.nodup_flatMap.mpr ⟨fun j _ => ?_, ?_⟩
  · rw [slotsOf]
    split_ifs
    · refine List.Nodup.map (fun i i' heq => ?_) List.nodup_range'
      by_contra hne
      exact img.ith_ne hne heq
    · exact List.nodup_nil
  · refine List.Pairwise.imp_of_mem ?_ (List.nodup_range' (s := 0) (n := img.n))
    intro j j' hj hj' hne a ha ha'
    rw [List.mem_range'_1] at hj hj'
    obtain ⟨i, hi, rfl⟩ := hmem ha
    obtain ⟨i', hi', heq⟩ := hmem ha'
    exact img.apart j (by omega) j' (by omega) hne i hi i' hi' heq.symm

/-- There is fuel enough. -/
theorem exists_fuel : ∃ fuel, ∀ j < img.n, img.count j < fuel := by
  generalize img.n = n
  induction n with
  | zero => exact ⟨0, fun j hj => absurd hj (Nat.not_lt_zero j)⟩
  | succ n ih =>
    obtain ⟨fuel, hfuel⟩ := ih
    refine ⟨fuel + img.count n + 1, fun j hj => ?_⟩
    rcases Nat.lt_succ_iff_lt_or_eq.mp hj with hlt | rfl
    · have := hfuel j hlt
      omega
    · omega

end Image

/-- **What `ReplaceIAT2` does**: each thunk is rewritten from what it held at the start. -/
theorem replaceIAT2_eq (img : Image) (dname : Option (List UInt8)) (func : List (Ptr × Ptr))
    {fuel : ℕ} (hfuel : ∀ j < img.n, img.count j < fuel) :
    replaceIAT2 fuel (some img.toDirectory) dname (some func) img.thunks =
      some (replaceAll func (img.slots dname) (img.thunks, 0)) := by
  have hsize : img.n < img.size / img.sizeofThunk := by
    have hcovered := img.covered
    rw [Nat.lt_iff_add_one_le, Nat.le_div_iff_mul_le img.sizeof_pos]
    rcases img.sizeof with h | h <;> rw [h] <;> omega
  exact img.replaceDescriptors_eq (Nat.zero_add _) hsize hfuel img.intact

/-! ## More fuel -/

theorem replaceThunks_of_le {d : Directory} {j fuel fuel' i : ℕ} {s r : Thunks × ℕ}
    (h : replaceThunks func d j fuel i s = some r) (hle : fuel ≤ fuel') :
    replaceThunks func d j fuel' i s = some r := by
  induction fuel generalizing fuel' i s with
  | zero => cases h
  | succ fuel ih =>
    obtain ⟨fuel', rfl⟩ : ∃ n, fuel' = n + 1 := ⟨fuel' - 1, by omega⟩
    rw [replaceThunks] at h ⊢
    split_ifs at h ⊢ with hend
    · exact h
    · exact ih h (by omega)

theorem replaceDescriptors_of_le {d : Directory} {dname : Option (List UInt8)}
    {n j fuel fuel' : ℕ} {s r : Thunks × ℕ}
    (h : replaceDescriptors func d dname fuel n j s = some r) (hle : fuel ≤ fuel') :
    replaceDescriptors func d dname fuel' n j s = some r := by
  induction n generalizing j s with
  | zero => exact h
  | succ n ih =>
    rw [replaceDescriptors] at h ⊢
    split_ifs at h ⊢ with hend hsel
    · exact h
    · obtain ⟨s', hthunks, hrest⟩ := Option.bind_eq_some_iff.mp h
      exact Option.bind_eq_some_iff.mpr ⟨s', replaceThunks_of_le hthunks hle, ih hrest⟩
    · exact ih h

/-- However much fuel it takes, this is what comes out. -/
theorem eq_of_replaceIAT2 {img : Image} {dname : Option (List UInt8)} {fuel : ℕ} {r : Thunks × ℕ}
    (h : replaceIAT2 fuel (some img.toDirectory) dname (some func) img.thunks = some r) :
    r = replaceAll func (img.slots dname) (img.thunks, 0) := by
  obtain ⟨fuel', hfuel'⟩ := img.exists_fuel
  have hbig : replaceIAT2 (fuel + fuel') (some img.toDirectory) dname (some func) img.thunks =
      some (replaceAll func (img.slots dname) (img.thunks, 0)) :=
    replaceIAT2_eq img dname func fun j hj =>
      Nat.lt_of_lt_of_le (hfuel' j hj) (Nat.le_add_left _ _)
  have hmore : replaceIAT2 (fuel + fuel') (some img.toDirectory) dname (some func) img.thunks =
      some r := replaceDescriptors_of_le h (Nat.le_add_right _ _)
  exact Option.some.inj (hmore.symm.trans hbig)

/-! ## When it is a substitution -/

theorem noChain_iff (img : Image) (dname : Option (List UInt8)) (hooks : Hooks) :
    NoChain img dname hooks ↔ ∀ a ∈ img.slots dname, (chain hooks.func (img.thunks a)).2 =
      if img.thunks a ∈ hooks.func.map Prod.fst then 1 else 0 :=
  forall₂_congr fun a _ => (chain_eq_iff hooks (img.thunks a)).symm

/-- **When replacing imports is a simultaneous substitution.**  Exactly when no selected thunk holds
a function whose counterpart is itself further down in the array. -/
theorem substitutes_iff (img : Image) (dname : Option (List UInt8)) (hooks : Hooks) :
    Substitutes img dname hooks ↔ NoChain img dname hooks := by
  have hcount := rewriteCells_count (s := (img.thunks, 0)) (g := fun x => (chain hooks.func x).1)
    (w := fun x => (chain hooks.func x).2) (· ∈ hooks.func.map Prod.fst)
    (fun x hx => chain_pos_iff.mpr hx) (img.nodup_slots dname)
  rw [noChain_iff, ← hcount.2, Nat.zero_add]
  constructor
  · rintro ⟨fuel, r, hrun, hsub⟩
    have hr := eq_of_replaceIAT2 hrun
    have hcounted := hsub.counted
    rw [hr] at hcounted
    exact hcounted
  · intro h
    have hclear := hcount.2.mp (by rw [Nat.zero_add]; exact h)
    have hcell : ∀ a ∈ img.slots dname,
        (replaceAll hooks.func (img.slots dname) (img.thunks, 0)).1 a =
          (chain hooks.func (img.thunks a)).1 := fun a ha =>
      rewriteCells_of_mem (img.nodup_slots dname) ha
    obtain ⟨fuel, hfuel⟩ := img.exists_fuel
    refine ⟨fuel, _, replaceIAT2_eq img dname hooks.func hfuel, ⟨?_, ?_, h⟩⟩
    · intro a ha p hp hap
      obtain ⟨pre, post, hsplit, -, hvalue⟩ := chain_of_mem hp
      have hnot := (chain_eq_iff hooks (img.thunks a)).mp (hclear a ha) pre _ _ post hsplit hap
      rw [hcell a ha, hap, hvalue hnot]
    · rintro a (ha | ha)
      · exact rewriteCells_of_notMem ha
      · by_cases hmem : a ∈ img.slots dname
        · rw [hcell a hmem, chain_of_notMem ha]
        · exact rewriteCells_of_notMem hmem

/-- A module that imports one function, at the address `0x7000`. -/
def oneImport : Image where
  des j := if j = 0 then ⟨[0x61], 0x1000⟩ else ⟨[], 0⟩
  size := 40
  sizeofThunk := 8
  thunks a := if a = 0x1000 then 0x7000 else 0
  n := 1
  count _ := 1
  sizeof := Or.inr rfl
  covered := Nat.le_refl 40
  firstThunk_ne := by decide
  firstThunk_end := rfl
  thunk_ne := by decide
  thunk_end := by decide
  apart := by decide

/-- Two functions are to be exchanged. -/
def exchange : Hooks where
  func := [(0x7000, 0x8000), (0x8000, 0x7000)]
  ne_zero := by simp
  nodup := by simp

/-- The import is replaced by the second function, and that by the first again. -/
theorem exchange_not_substitutes : ¬ Substitutes oneImport none exchange := by
  rintro ⟨fuel, r, hrun, hsub⟩
  have hcounted := hsub.counted
  rw [eq_of_replaceIAT2 hrun] at hcounted
  revert hcounted
  decide

end ReplIat
end UtilWin
