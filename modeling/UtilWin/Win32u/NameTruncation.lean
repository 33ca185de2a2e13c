import UtilWin.Library.Terminated
import UtilWin.Library.Utf16Cut
import UtilWin.Win32u.ModuleName
import UtilWin.Win32u.ResultsKept

/-!
# Names that are cut off

A name can be cut off in two places: where the system copies it into the 400 wide characters, and where
`strlcpy` copies the bytes to the caller.  The second is seen from the result.  The first is not: what
the system returns is compared with 0 only, so a name of 400 characters or more is taken for its first
399.

Then the result can still be right, if the caller's buffer is so small that the bytes of the 399
characters do not fit either.  But if a surrogate pair is cut behind the 399th, its replacement must not
be reached (`Told`).
-/

namespace UtilWin
namespace ModuleName

open ConvBuf Utf16

/-! ## The bounded copy -/

/-- **The loop of `cb_strlcpy`**: it copies until the terminator or the end of the buffer, and what is in
the buffer then is terminated. -/
theorem copyLoop_spec {s : List UInt8} (hs : 0 ∉ s) (rest : List UInt8) {dsize ncp : ℕ}
    (hncp : ncp ≤ dsize) (hpos : 0 < dsize) (dst : ℕ → UInt8) :
    ∃ n dst', copyLoop dsize ncp (s ++ 0 :: rest) dst = some (n, dst') ∧
      (∀ j, j < s.length → ncp + j + 1 < dsize → s[j]? = some (dst' (ncp + j))) ∧
      dst' (min (ncp + s.length) (dsize - 1)) = 0 ∧
      ∀ i < ncp, i + 1 < dsize → dst' i = dst i := by
  induction s generalizing ncp dst with
  | nil =>
    rw [List.nil_append, copyLoop]
    by_cases hlt : ncp < dsize
    · rw [if_pos hlt]
      refine ⟨_, _, if_pos rfl, fun j hj => absurd hj (Nat.not_lt_zero j), ?_, fun i hi _ => ?_⟩
      · rw [List.length_nil, Nat.add_zero, Nat.min_eq_left (by omega), Function.update_self]
      · rw [Function.update_of_ne (Nat.ne_of_lt hi)]
    · rw [if_neg hlt]
      refine ⟨_, _, rfl, fun j hj => absurd hj (Nat.not_lt_zero j), ?_, fun i _ hi => ?_⟩
      · rw [Nat.min_eq_right (by omega), Function.update_self]
      · rw [Function.update_of_ne (by omega)]
  | cons c s ih =>
    rw [List.mem_cons, not_or] at hs
    rw [List.cons_append, copyLoop]
    by_cases hlt : ncp < dsize
    · rw [if_pos hlt]
      dsimp only
      rw [if_neg (Ne.symm hs.1)]
      obtain ⟨n, dst', hrun, hcopied, hend, hkept⟩ :=
        ih hs.2 (Nat.succ_le_of_lt hlt) (Function.update dst ncp c)
      refine ⟨n, dst', hrun, fun j hj hjd => ?_, ?_, fun i hi hid => ?_⟩
      · cases j with
        | zero =>
          rw [Nat.add_zero, hkept ncp (Nat.lt_succ_self ncp) hjd, Function.update_self]
          rfl
        | succ j =>
          rw [List.getElem?_cons_succ, ← Nat.add_assoc, Nat.add_right_comm]
          exact hcopied j (Nat.lt_of_succ_lt_succ hj) (by omega)
      · rw [List.length_cons, ← Nat.add_assoc, Nat.add_right_comm]
        exact hend
      · rw [hkept i (by omega) hid, Function.update_of_ne (Nat.ne_of_lt hi)]
    · rw [if_neg hlt]
      refine ⟨_, _, rfl, fun j _ hj => by omega, ?_, fun i _ hi => ?_⟩
      · rw [Nat.min_eq_right (by omega), Function.update_self]
      · rw [Function.update_of_ne (by omega)]

/-- `strlen` is the length of the string it is given. -/
theorem strlen_eq_cstr (s : List UInt8) : strlen s = (cstr 0 s).map List.length := by
  rw [strlen, cstr]
  split_ifs <;> rfl

theorem strlen_eq {s : List UInt8} (hs : 0 ∉ s) (rest : List UInt8) :
    strlen (s ++ 0 :: rest) = some s.length := by
  rw [strlen_eq_cstr, cstr_append hs, Option.map_some]

/-! ## A run -/

variable {w : World} {p : Addr} {b : Block} {malloc : ℕ → Addr × Block} {path wfn : List UInt16}
  {nSize : ℕ}

/-- What of a path gets into the wide characters. -/
def copied (path : List UInt16) : List UInt16 := path.take (wfnLength - 1)

theorem zero_notMem_toUtf8 {s : List UInt16} (hs : 0 ∉ s) : 0 ∉ toUtf8 s := by
  rw [mem_toUtf8_iff (by decide)]
  exact hs

theorem getModuleFileNameW_eq (hpath : path ≠ []) (hwfn : wfn.length = wfnLength) :
    ∃ xx rest, getModuleFileNameW path wfn = (xx, copied path ++ 0 :: rest) ∧ xx ≠ 0 := by
  have hlen : path.length ≠ 0 := fun h => hpath (List.length_eq_zero_iff.mp h)
  rw [getModuleFileNameW, if_neg hpath, hwfn, copied]
  by_cases hlt : path.length < wfnLength
  · rw [if_pos hlt, List.take_of_length_le (by omega)]
    exact ⟨_, _, rfl, hlen⟩
  · rw [if_neg hlt]
    exact ⟨_, [], rfl, by decide⟩

/-- The string that is converted. -/
theorem argument_copied (hnul : 0 ∉ path) (rest : List UInt16) :
    argument (some (copied path ++ 0 :: rest)) (-1) = some (copied path) := by
  have hall : ∀ u ∈ copied path, decide (u ≠ 0) = true := fun u hu =>
    decide_eq_true fun h => hnul (h ▸ List.mem_of_mem_take hu)
  have htake : (copied path ++ 0 :: rest).takeWhile (· ≠ 0) = copied path := by
    rw [List.takeWhile_append_of_pos hall, List.takeWhile_cons_of_neg (by simp), List.append_nil]
  have hlen : (copied path).length < 2 ^ 31 := by
    have : (copied path).length ≤ wfnLength - 1 := List.length_take_le _ _
    rw [wfnLength] at this
    omega
  have hshift : ((copied path).length : ℤ) >>> (31 : ℕ) = 0 := by
    rw [Int.shiftRight_eq_div_pow]
    omega
  simp only [argument, Option.bind_some, if_true, htake, hshift, ne_eq, not_true_eq_false, if_false,
    Int.toNat_natCast, List.take_left]

/-- **A run**, for a path that is not empty: the bytes of what has been copied are what the caller
gets. -/
theorem moduleFileName_eq (hp : w.heap p = some b) (hb : b.buf.length = defArrSz)
    (hmalloc : MallocAnswers w malloc) (hpath : path ≠ []) (hnul : 0 ∉ path)
    (hwfn : wfn.length = wfnLength) (lpFilename : ℕ → UInt8) (hpos : 0 < nSize) :
    ∃ dst w', moduleFileName malloc p wfn path lpFilename nSize w =
        some (min (toUtf8 (copied path)).length nSize, dst, w') ∧
      (∀ j, j < (toUtf8 (copied path)).length → j + 1 < nSize →
        (toUtf8 (copied path))[j]? = some (dst j)) ∧
      dst (min (toUtf8 (copied path)).length (nSize - 1)) = 0 := by
  obtain ⟨xx, rest, hcall, hxx⟩ := getModuleFileNameW_eq hpath hwfn
  obtain ⟨w₁, hinit⟩ : ∃ w₁, convbufInit p w = some w₁ := ⟨_, modify_eq hp⟩
  have hmalloc₁ : MallocAnswers w₁ malloc := by
    rw [convbufInit, modify_eq hp] at hinit
    cases hinit
    intro size hsize
    obtain ⟨hfree, hroom⟩ := hmalloc size hsize
    refine ⟨?_, hroom⟩
    rw [heap_set_of_ne fun heq => ?_]
    · exact hfree
    · rw [heq, hp] at hfree
      cases hfree
  have hsize : (toUtf8 (copied path)).length < 2 ^ 31 - 2 := by
    have hle := length_toUtf8_le (copied path)
    have : (copied path).length ≤ wfnLength - 1 := List.length_take_le _ _
    rw [wfnLength] at this
    omega
  obtain ⟨a, nodes, w₂, hconv, hkept⟩ := (Kept.of_init hp hb hinit).convert w2aKind_sound rfl hsize
    hmalloc₁ length_toUtf8_le (argument_copied hnul rest)
  obtain ⟨-, block, hblock, bytes, hbytes⟩ := hkept.result _ (List.mem_singleton.mpr rfl)
  have hbuf : block.buf = toUtf8 (copied path) ++ 0 :: bytes := by
    rw [← hbytes, Kind.terminated]
    simp [w2aKind]
  have hzero : 0 ∉ toUtf8 (copied path) :=
    zero_notMem_toUtf8 fun h => hnul (List.mem_of_mem_take h)
  obtain ⟨n, dst, hcopy, hdst, hend, -⟩ :=
    copyLoop_spec hzero bytes (Nat.zero_le nSize) hpos lpFilename
  obtain ⟨w₃, -, hclear, -⟩ := hkept.clear
  simp only [Nat.zero_add] at hdst hend
  refine ⟨dst, w₃, ?_, hdst, hend⟩
  have hmin : (if (toUtf8 (copied path)).length < nSize then (toUtf8 (copied path)).length
      else nSize) = min (toUtf8 (copied path)).length nSize := by
    split_ifs <;> omega
  simp only [moduleFileName, hcall, if_neg hxx, hinit, Option.bind_eq_bind, Option.bind_some,
    convbufW2a, hconv, hblock, cbStrlcpy, if_neg (Nat.ne_of_gt hpos), hbuf, hcopy,
    strlen_eq hzero, hclear, hmin]

/-! ## What the caller is told -/

/-- The two functions. -/
inductive Function where
  | getModuleFileNameU
  | getModuleFileNameExU

/-- A call. -/
def Function.run (f : Function) (malloc : ℕ → Addr × Block) (p : Addr) (wfn : Wfn)
    (path : List UInt16) (lpFilename : ℕ → UInt8) (nSize : ℕ) (w : World) :
    Option (ℕ × (ℕ → UInt8) × World) :=
  match f with
  | getModuleFileNameU => ModuleName.getModuleFileNameU malloc p wfn path lpFilename nSize w
  | getModuleFileNameExU => ModuleName.getModuleFileNameExU malloc p wfn path lpFilename nSize w

/-- What the caller is to find, with the result `r`. -/
structure Honest (path : List UInt16) (nSize r : ℕ) (dst : ℕ → UInt8) : Prop where
  /-- The buffer is terminated. -/
  terminated : ∃ i < nSize, dst i = 0
  /-- If the result is less than the size, the buffer holds the name, and the result is its length. -/
  complete : r < nSize → r = (toUtf8 path).length ∧ dst (toUtf8 path).length = 0 ∧
    ∀ i < (toUtf8 path).length, (toUtf8 path)[i]? = some (dst i)
  /-- If it is the size, the name does not fit, and the buffer holds the start of it. -/
  truncated : r = nSize → nSize ≤ (toUtf8 path).length ∧
    ∀ i, i + 1 < nSize → (toUtf8 path)[i]? = some (dst i)

/-- The condition. -/
inductive Told (path : List UInt16) (nSize : ℕ) (dst : ℕ → UInt8) : Prop where
  /-- There is no name, and the buffer happens to be empty. -/
  | empty : path = [] → dst 0 = 0 → Told path nSize dst
  /-- The name fits the wide characters. -/
  | fits : path ≠ [] → path.length < wfnLength → Told path nSize dst
  /-- It does not, and the caller's buffer is too small for what does; if a surrogate pair is cut, it is
  too small for the first byte of its replacement. -/
  | small : wfnLength ≤ path.length → nSize ≤ (toUtf8 (copied path)).length →
      (CutsPair (copied path) (path.drop (wfnLength - 1)) →
        nSize ≤ (toUtf8 (path.take (wfnLength - 2))).length + 1) → Told path nSize dst

theorem copied_append_drop (path : List UInt16) :
    copied path ++ path.drop (wfnLength - 1) = path := List.take_append_drop _ _

/-- Where a surrogate pair is cut. -/
theorem eq_append_of_cutsPair (hcut : CutsPair (copied path) (path.drop (wfnLength - 1))) :
    ∃ u v rest, IsHigh u ∧ IsLow v ∧ copied path = path.take (wfnLength - 2) ++ [u] ∧
      path = path.take (wfnLength - 2) ++ u :: v :: rest := by
  obtain ⟨u, v, hu, hv, hhigh, hlow⟩ := hcut
  obtain ⟨front, hfront⟩ := List.getLast?_eq_some_iff.mp hu
  obtain ⟨rest, hrest⟩ := List.head?_eq_some_iff.mp hv
  have hlen : wfnLength - 1 < path.length := by
    have h := congrArg List.length hrest
    rw [List.length_drop, List.length_cons] at h
    omega
  have hcopied : (copied path).length = wfnLength - 1 := by
    rw [copied, List.length_take]
    omega
  have htake : path.take (wfnLength - 2) = front := by
    have hfrontlen : front.length = wfnLength - 2 := by
      rw [hfront, List.length_append, List.length_singleton] at hcopied
      omega
    have htwice : (copied path).take (wfnLength - 2) = path.take (wfnLength - 2) := by
      rw [copied, List.take_take, Nat.min_eq_left (by decide)]
    rw [← htwice, hfront, List.take_append_of_le_length (Nat.le_of_eq hfrontlen.symm),
      List.take_of_length_le (Nat.le_of_eq hfrontlen)]
  refine ⟨u, v, rest, hhigh, hlow, by rw [htake, hfront], ?_⟩
  have hsplit := copied_append_drop path
  rw [hfront, hrest, List.append_assoc, List.singleton_append] at hsplit
  rw [htake, hsplit]

/-- The bytes in front of and at a pair that is cut. -/
theorem toUtf8_of_cutsPair (hcut : CutsPair (copied path) (path.drop (wfnLength - 1))) :
    ∃ x y, toUtf8 (copied path) = toUtf8 (path.take (wfnLength - 2)) ++ x ∧
      toUtf8 path = toUtf8 (path.take (wfnLength - 2)) ++ y ∧ x.head? ≠ y.head? := by
  obtain ⟨u, v, rest, hhigh, hlow, hcopied, hpath⟩ := eq_append_of_cutsPair hcut
  have hbefore : ¬ CutsPair (path.take (wfnLength - 2)) [u] :=
    not_cutsPair_cons (not_isLow_of_isHigh hhigh)
  refine ⟨toUtf8 [u], String.utf8EncodeChar (pairChar u v) ++ toUtf8 rest, ?_, ?_, ?_⟩
  · rw [hcopied, toUtf8_append hbefore]
  · exact (congrArg toUtf8 hpath).trans (toUtf8_append_pair hhigh hlow _ _)
  · rw [List.head?_append_of_ne_nil _ String.utf8EncodeChar_ne_nil]
    exact (head?_pair_ne hhigh hlow).symm

/-- The first bytes of the copied name are those of the name, up to a pair that is cut. -/
theorem getElem?_copied {i : ℕ} (hi : i < (toUtf8 (copied path)).length)
    (hbefore : CutsPair (copied path) (path.drop (wfnLength - 1)) →
      i < (toUtf8 (path.take (wfnLength - 2))).length) :
    (toUtf8 path)[i]? = (toUtf8 (copied path))[i]? := by
  by_cases hcut : CutsPair (copied path) (path.drop (wfnLength - 1))
  · obtain ⟨x, y, hx, hy, -⟩ := toUtf8_of_cutsPair hcut
    rw [hx, hy, List.getElem?_append_left (hbefore hcut), List.getElem?_append_left (hbefore hcut)]
  · have hsplit : toUtf8 path = toUtf8 (copied path) ++ toUtf8 (path.drop (wfnLength - 1)) := by
      rw [← toUtf8_append hcut, copied_append_drop]
    rw [hsplit, List.getElem?_append_left hi]

/-- At a pair that is cut they differ. -/
theorem getElem?_copied_ne (hcut : CutsPair (copied path) (path.drop (wfnLength - 1))) :
    (toUtf8 path)[(toUtf8 (path.take (wfnLength - 2))).length]? ≠
      (toUtf8 (copied path))[(toUtf8 (path.take (wfnLength - 2))).length]? := by
  obtain ⟨x, y, hx, hy, hne⟩ := toUtf8_of_cutsPair hcut
  rw [hx, hy, List.getElem?_append_right (Nat.le_refl _), List.getElem?_append_right (Nat.le_refl _),
    Nat.sub_self, ← List.head?_eq_getElem?, ← List.head?_eq_getElem?]
  exact hne.symm

/-- Behind the last wide character there is more of a long path. -/
theorem length_toUtf8_copied_lt (hlong : wfnLength ≤ path.length) :
    (toUtf8 (copied path)).length < (toUtf8 path).length := by
  have hrest : path.drop (wfnLength - 1) ≠ [] := by
    rw [ne_eq, List.drop_eq_nil_iff]
    rw [wfnLength] at *
    omega
  have h := length_toUtf8_lt (copied path) hrest
  rwa [copied_append_drop] at h

/-- **What is in the buffer is honest**, or not. -/
theorem honest_min_iff (hpath : path ≠ []) (hpos : 0 < nSize) {dst : ℕ → UInt8}
    (hdst : ∀ j, j < (toUtf8 (copied path)).length → j + 1 < nSize →
      (toUtf8 (copied path))[j]? = some (dst j))
    (hend : dst (min (toUtf8 (copied path)).length (nSize - 1)) = 0) (old : ℕ → UInt8) :
    Honest path nSize (min (toUtf8 (copied path)).length nSize) dst ↔ Told path nSize old := by
  constructor
  · intro h
    rcases Nat.lt_or_ge path.length wfnLength with hshort | hlong
    · exact .fits hpath hshort
    · have hlt := length_toUtf8_copied_lt hlong
      have hsmall : nSize ≤ (toUtf8 (copied path)).length := by
        by_contra hroom
        have := (h.complete (by omega)).1
        omega
      refine .small hlong hsmall fun hcut => ?_
      by_contra hreached
      have htruncated := (h.truncated (by omega)).2 _ (Nat.not_le.mp hreached)
      refine getElem?_copied_ne hcut ?_
      rw [htruncated, hdst _ (by omega) (Nat.not_le.mp hreached)]
  · have hterminated : ∃ i < nSize, dst i = 0 := ⟨_, by omega, hend⟩
    rintro (⟨hnil, -⟩ | ⟨-, hshort⟩ | ⟨hlong, hsmall, hcut⟩)
    · exact absurd hnil hpath
    · have hall : copied path = path := List.take_of_length_le (by omega)
      rw [hall] at hdst hend ⊢
      refine ⟨hterminated, fun hroom => ⟨by omega, ?_, fun i hi => hdst i hi (by omega)⟩,
        fun hfull => ⟨by omega, fun i hi => hdst i (by omega) hi⟩⟩
      rwa [Nat.min_eq_left (by omega)] at hend
    · have hlt := length_toUtf8_copied_lt hlong
      refine ⟨hterminated, fun hroom => absurd hroom (by omega), fun _ => ⟨by omega, fun i hi => ?_⟩⟩
      rw [getElem?_copied (by omega) fun h => by have := hcut h; omega]
      exact hdst i (by omega) hi

/-- Nothing is done for an empty path. -/
theorem moduleFileName_nil (malloc : ℕ → Addr × Block) (p : Addr) (wfn : List UInt16)
    (lpFilename : ℕ → UInt8) (nSize : ℕ) (w : World) :
    moduleFileName malloc p wfn [] lpFilename nSize w = some (0, lpFilename, w) := rfl

/-- The body that the two functions share. -/
theorem honest_moduleFileName_iff (hnul : 0 ∉ path) (hpos : 0 < nSize) (lpFilename : ℕ → UInt8)
    (hwfn : wfn.length = wfnLength) (hp : w.heap p = some b) (hb : b.buf.length = defArrSz)
    (hmalloc : MallocAnswers w malloc) :
    (∃ r dst w', moduleFileName malloc p wfn path lpFilename nSize w = some (r, dst, w') ∧
      Honest path nSize r dst) ↔ Told path nSize lpFilename := by
  by_cases hpath : path = []
  · subst hpath
    rw [moduleFileName_nil]
    constructor
    · rintro ⟨r, dst, w', hrun, h⟩
      cases hrun
      exact .empty rfl (h.complete hpos).2.1
    · rintro (⟨-, hzero⟩ | ⟨hne, -⟩ | ⟨hlong, -, -⟩)
      · refine ⟨0, lpFilename, w, rfl, ⟨0, hpos, hzero⟩, fun _ => ⟨rfl, hzero, fun i hi => ?_⟩,
          fun hfull => absurd hfull (Nat.ne_of_lt hpos)⟩
        exact absurd hi (Nat.not_lt_zero i)
      · exact absurd rfl hne
      · exact absurd hlong (by decide)
  · obtain ⟨dst, w', hrun, hdst, hend⟩ :=
      moduleFileName_eq hp hb hmalloc hpath hnul hwfn lpFilename hpos
    rw [← honest_min_iff hpath hpos hdst hend lpFilename, hrun]
    constructor
    · rintro ⟨r, dst', w'', heq, h⟩
      cases heq
      exact h
    · exact fun h => ⟨_, dst, w', rfl, h⟩

/-- **The two functions say when a name is cut off, if and only if it has less than 400 characters, or
the caller's buffer is so small that the bytes of the first 399 do not fit either** (and does not reach
the replacement of a surrogate pair that is cut; and for the empty name, which is not copied at all, if
the buffer was empty before). -/
theorem honest_iff (f : Function) {path : List UInt16} (hnul : 0 ∉ path) {nSize : ℕ} (hpos : 0 < nSize)
    (lpFilename : ℕ → UInt8) (wfn : Wfn) {w : World} {p : Addr} {b : Block}
    {malloc : ℕ → Addr × Block} (hp : w.heap p = some b) (hb : b.buf.length = defArrSz)
    (hmalloc : MallocAnswers w malloc) :
    (∃ r dst w', f.run malloc p wfn path lpFilename nSize w = some (r, dst, w') ∧
      Honest path nSize r dst) ↔ Told path nSize lpFilename := by
  cases f with
  | getModuleFileNameU =>
    have hset : (wfn.1.set 0 0).length = wfnLength := by rw [List.length_set, wfn.2]
    exact honest_moduleFileName_iff hnul hpos lpFilename hset hp hb hmalloc
  | getModuleFileNameExU =>
    exact honest_moduleFileName_iff hnul hpos lpFilename wfn.2 hp hb hmalloc

/-- An array of zeros. -/
def zeroWfn : Wfn := ⟨List.replicate 400 0, List.length_replicate⟩

/-- A short name, in a buffer of four bytes. -/
theorem honest_short : ∃ r dst w', Function.getModuleFileNameU.run (zeroedAt 2) 1 zeroWfn
    [97, 98, 99, 100] (fun _ => 1) 4 onStack = some (r, dst, w') ∧ Honest [97, 98, 99, 100] 4 r dst :=
  (honest_iff .getModuleFileNameU (by decide) (by decide) (fun _ => 1) zeroWfn (w := onStack) rfl
    List.length_replicate (mallocAnswers_zeroedAt rfl)).mpr (.fits (by decide) (by decide))

/-- A name of 400 characters is cut off, and its first 399 are given for the whole. -/
theorem not_honest_long :
    ¬ ∀ (f : Function) (path : List UInt16) (nSize : ℕ) (lpFilename : ℕ → UInt8) (wfn : Wfn) (w : World)
      (p : Addr) (b : Block) (malloc : ℕ → Addr × Block), 0 ∉ path → 0 < nSize →
      w.heap p = some b → b.buf.length = defArrSz → MallocAnswers w malloc →
      ∃ r dst w', f.run malloc p wfn path lpFilename nSize w = some (r, dst, w') ∧
        Honest path nSize r dst := by
  intro hall
  have hnul : 0 ∉ List.replicate 400 (97 : UInt16) := by
    rw [List.mem_replicate]
    exact fun h => absurd h.2 (by decide)
  have hbuf : (List.replicate 540 (0 : UInt8)).length = defArrSz := List.length_replicate
  have hfree : MallocAnswers onStack (zeroedAt 2) := mallocAnswers_zeroedAt rfl
  have hrun := hall .getModuleFileNameExU (List.replicate 400 97) 1000 (fun _ => 0) zeroWfn onStack 1 _
    (zeroedAt 2) hnul (by decide) rfl hbuf hfree
  simp only [Function.run, getModuleFileNameExU] at hrun
  rw [honest_moduleFileName_iff hnul (by decide) (fun _ => 0) zeroWfn.2 rfl hbuf hfree] at hrun
  rcases hrun with ⟨hnil, -⟩ | ⟨-, hshort⟩ | ⟨-, hsmall, -⟩
  · exact absurd (congrArg List.length hnil) (by rw [List.length_replicate]; decide)
  · rw [List.length_replicate] at hshort
    exact absurd hshort (by decide)
  · rw [copied, List.take_replicate, length_toUtf8_replicate (by decide)] at hsmall
    exact absurd hsmall (by decide)

end ModuleName
end UtilWin
