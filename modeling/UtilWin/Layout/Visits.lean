import Mathlib.Data.List.Nodup
import Mathlib.Data.List.Perm.Subperm
import UtilWin.Layout.Sizes
import UtilWin.Library.FirstReturn

/-!
# What a call of `ComputeIt` does

A call of `ComputeIt` that comes back deals with the item and with everything that the item leads to, as
far as it had not been dealt with before, and leaves the rest of the memory alone (`Progress`).  About an
item that it has dealt with this is known (`Done`): it has all its edges; the items that it refers to
have been dealt with as well; and each edge it refers to was there when the call began, if the item it
belongs to had been noted by then.

The last point is what goes wrong in a cycle.  While the edges of an item are computed one after the
other, what leads back to the item may only use those that come before the one that leads there
(`computeIt_back`).
-/

namespace UtilWin
namespace Sizes

/-! ## Looking up -/

/-- The ids of items are distinct, and neither 0 nor `0xFFFF`. -/
structure Ids (ss : List ItemSize) : Prop where
  nodup : (ss.map ItemSize.id).Nodup
  ne_zero : ∀ s ∈ ss, s.id ≠ 0
  lt : ∀ s ∈ ss, s.id.toNat < 0xffff

/-- Edge `e` of item `i` refers to an item that is found, and that is item `k`. -/
def Refers (ss : List ItemSize) (i : ℕ) (e : Fin 4) (k : ℕ) : Prop :=
  ∃ s t, ss[i]? = some s ∧ ss[k]? = some t ∧ (s.pos e).id = t.id ∧ t.id.toNat < 0x8000

variable {ss : List ItemSize} {parentrect : Rect} {i k : ℕ} {e : Fin 4} {s t : ItemSize}

/-- An id belongs to one index. -/
theorem Ids.index_unique (h : Ids ss) {t' : ItemSize} {k' : ℕ} (hk : ss[k]? = some t)
    (hk' : ss[k']? = some t') (hid : t.id = t'.id) : k = k' := by
  have hlt : k < (ss.map ItemSize.id).length := by
    rw [List.length_map]
    exact (List.getElem?_eq_some_iff.mp hk).1
  refine (List.getElem?_inj hlt h.nodup).mp ?_
  rw [List.getElem?_map, List.getElem?_map, hk, hk', Option.map_some, Option.map_some, hid]

/-- There are not too many ids for the items. -/
theorem Ids.length_lt (h : Ids ss) : ss.length < 0xffff := by
  have hnodup : (ss.map fun s => s.id.toNat).Nodup := by
    have hmap : (ss.map fun s => s.id.toNat) = (ss.map ItemSize.id).map BitVec.toNat := by
      rw [List.map_map]
      rfl
    rw [hmap]
    exact h.nodup.map fun _ _ => BitVec.eq_of_toNat_eq
  have hsubset : (ss.map fun s => s.id.toNat) ⊆ List.range' 1 0xfffe := by
    intro n hn
    obtain ⟨s, hs, rfl⟩ := List.mem_map.mp hn
    have hpos : s.id.toNat ≠ 0 := fun hzero => h.ne_zero s hs (BitVec.eq_of_toNat_eq hzero)
    have := h.lt s hs
    rw [List.mem_range'_1]
    omega
  have hlen := (List.subperm_of_subset hnodup hsubset).length_le
  rw [List.length_map, List.length_range'] at hlen
  omega

/-- An item whose id is small is found where it is. -/
theorem Ids.indexOf_eq (h : Ids ss) (hk : ss[k]? = some t) (ht : t.id.toNat < 0x8000) :
    indexOf ss t.id = BitVec.ofNat 16 k := by
  have hint : t.id.toInt = t.id.toNat := BitVec.toInt_eq_toNat_of_lt (by omega)
  have hfind : (ss.findIdx? fun s => (s.id.toNat : ℤ) = t.id.toInt) = some k := by
    obtain ⟨hlt, hget⟩ := List.getElem?_eq_some_iff.mp hk
    rw [List.findIdx?_eq_some_iff_getElem]
    refine ⟨hlt, by rw [hget, hint]; simp, fun j hj hother => ?_⟩
    have hid : ss[j].id = t.id := by
      rw [hint] at hother
      simp only [decide_eq_true_eq] at hother
      exact BitVec.eq_of_toNat_eq (Int.ofNat.inj hother)
    exact absurd (h.index_unique (List.getElem?_eq_getElem (hj.trans hlt)) hk hid) (by omega)
  rw [indexOf, hfind]

/-- What is not found: ids that no item has, and ids that are no `short`. -/
theorem indexOf_eq_neg_one {id : BitVec 16} (h : ∀ t ∈ ss, t.id = id → 0x8000 ≤ id.toNat) :
    indexOf ss id = -1 := by
  have hfind : (ss.findIdx? fun s => (s.id.toNat : ℤ) = id.toInt) = none := by
    rw [List.findIdx?_eq_none_iff]
    intro t ht
    have hid : id.toInt = if 2 * id.toNat < 2 ^ 16 then (id.toNat : ℤ) else id.toNat - 2 ^ 16 :=
      BitVec.toInt_eq_toNat_cond id
    have hne : (t.id.toNat : ℤ) ≠ id.toInt := by
      have hlt := id.isLt
      split_ifs at hid with hsmall
      · intro heq
        have hsame : t.id = id := BitVec.eq_of_toNat_eq (by omega)
        have := h t ht hsame
        omega
      · omega
    simpa using hne
  rw [indexOf, hfind]

/-- The index of an item as a `short`. -/
theorem Ids.toInt_index (h : Ids ss) (hk : ss[k]? = some t) :
    (BitVec.ofNat 16 k).toInt = if k < 0x8000 then (k : ℤ) else k - 0x10000 := by
  have hlt := (List.getElem?_eq_some_iff.mp hk).1
  have := h.length_lt
  rw [BitVec.toInt_eq_toNat_cond, BitVec.toNat_ofNat, Nat.mod_eq_of_lt (by omega)]
  split_ifs <;> omega

theorem Ids.refers_unique (h : Ids ss) {k' : ℕ} (hr : Refers ss i e k) (hr' : Refers ss i e k') :
    k = k' := by
  obtain ⟨s, t, hs, ht, hid, -⟩ := hr
  obtain ⟨s', t', hs', ht', hid', -⟩ := hr'
  rw [hs] at hs'
  cases hs'
  exact h.index_unique ht ht' (hid.symm.trans hid')

/-! ## One edge -/

section

variable {recur : ℕ → Memory → Except Fault Memory} {m : Memory}

/-- An edge that is at a distance from the parent's. -/
theorem computeEdge_of_parent (hzero : (s.pos e).id = 0) :
    computeEdge ss parentrect recur s i m e =
      .ok (m.store e i ((s.pos e).pos + parentPos parentrect e)) := by
  rw [computeEdge]
  dsimp only
  rw [if_neg (by omega), if_pos hzero]

/-- An edge whose `pos` names no item that is found. -/
theorem computeEdge_of_plain (hs : ss[i]? = some s) (hzero : (s.pos e).id ≠ 0)
    (hplain : ∀ k, ¬Refers ss i e k) :
    computeEdge ss parentrect recur s i m e = .ok (m.store e i (s.pos e).pos) := by
  have hindex : indexOf ss (s.pos e).id = -1 := by
    refine indexOf_eq_neg_one fun t ht hid => ?_
    by_contra hsmall
    obtain ⟨k, hk⟩ := List.mem_iff_getElem?.mp ht
    exact hplain k ⟨s, t, hs, hk, hid.symm, by rw [hid]; omega⟩
  rw [computeEdge]
  dsimp only
  rw [if_neg (by omega), if_neg hzero, hindex]
  exact if_pos (Or.inl rfl)

theorem Ids.computeEdge_of_refers (h : Ids ss) (hs : ss[i]? = some s) (hr : Refers ss i e k) :
    computeEdge ss parentrect recur s i m e =
      if 0x8000 ≤ k then .error .outOfBounds
      else if k = i then .ok (m.store e i (s.pos e).pos)
      else recur k m >>= fun m' => m'.load e k >>= fun v =>
        .ok (m'.store e i ((s.pos e).pos + v)) := by
  obtain ⟨s', t, hs', ht, hid, hsmall⟩ := hr
  rw [hs] at hs'
  cases hs'
  have hzero : (s.pos e).id ≠ 0 := hid ▸ h.ne_zero t (List.mem_of_getElem? ht)
  have hk := (List.getElem?_eq_some_iff.mp ht).1
  have hlen := h.length_lt
  rw [computeEdge]
  dsimp only
  rw [if_neg (by omega), if_neg hzero, hid, h.indexOf_eq ht hsmall]
  have hindex := h.toInt_index ht
  by_cases hfar : 0x8000 ≤ k
  · rw [if_neg (by omega)] at hindex
    rw [hindex, if_pos hfar, if_neg (by omega), if_neg (by omega)]
  · rw [if_pos (by omega)] at hindex
    rw [hindex, if_neg hfar]
    by_cases hself : k = i
    · rw [if_pos hself, if_pos (Or.inr (by rw [hself]))]
    · rw [if_neg hself, if_neg (by omega), if_pos (by omega), Int.toNat_natCast]

end

/-! ## What has been done -/

/-- Whether the size of the item replaces the edge. -/
def ItemSize.replaces (s : ItemSize) : Fin 4 → Bool :=
  ![s.width.toInt < 0, s.height.toInt < 0, 0 < s.width.toInt, 0 < s.height.toInt]

/-- Item `k` has been dealt with between `m` and `m'`. -/
structure Done (ss : List ItemSize) (m m' : Memory) (k : ℕ) : Prop where
  known : ∀ e, (m'.itemposs e k).isSome = true
  refs : ∀ e j, Refers ss k e j → j < 0x8000 ∧ m'.masks j = true ∧
    (m.masks j = true → (m.itemposs e j).isSome = true)
  plain : ∀ s e, ss[k]? = some s → s.replaces e = false → (s.pos e).id ≠ 0 →
    (∀ j, ¬Refers ss k e j) → m'.itemposs e k = some (s.pos e).pos

/-- Some items have been dealt with between `m` and `m'`, and nothing else has changed. -/
structure Progress (ss : List ItemSize) (m m' : Memory) : Prop where
  mono : ∀ k, m.masks k = true → m'.masks k = true
  frame : ∀ k, m.masks k = true ∨ m'.masks k = false → ∀ e, m'.itemposs e k = m.itemposs e k
  fresh : ∀ k, m'.masks k = true → m.masks k = false → Done ss m m' k

theorem Progress.refl (ss : List ItemSize) (m : Memory) : Progress ss m m where
  mono _ h := h
  frame _ _ _ := rfl
  fresh k h h' := by
    rw [h] at h'
    cases h'

/-- What has not been noted had not been noted before. -/
theorem Progress.not_noted {m m' : Memory} (h : Progress ss m m') (hk : m'.masks k = false) :
    m.masks k = false := by
  by_contra hne
  rw [h.mono k (Bool.eq_true_of_not_eq_false hne)] at hk
  cases hk

/-- An item that has been dealt with stays as it is. -/
theorem Done.progress {m m₁ m₂ : Memory} (h : Done ss m m₁ k) (hmask : m₁.masks k = true)
    (h' : Progress ss m₁ m₂) : Done ss m m₂ k where
  known e := by
    rw [h'.frame k (Or.inl hmask)]
    exact h.known e
  refs e j hr := ⟨(h.refs e j hr).1, h'.mono j (h.refs e j hr).2.1, (h.refs e j hr).2.2⟩
  plain s e hs hkeep hzero hplain := by
    rw [h'.frame k (Or.inl hmask)]
    exact h.plain s e hs hkeep hzero hplain

/-- It is enough that what had been noted before has stayed as it was. -/
theorem Done.of_later {m m₁ m₂ : Memory} (h : ∀ j, m.masks j = true → m₁.masks j = true ∧
    ∀ e, m₁.itemposs e j = m.itemposs e j) (h' : Done ss m₁ m₂ k) : Done ss m m₂ k where
  known := h'.known
  refs e j hr := by
    refine ⟨(h'.refs e j hr).1, (h'.refs e j hr).2.1, fun hmask => ?_⟩
    rw [← (h j hmask).2]
    exact (h'.refs e j hr).2.2 (h j hmask).1
  plain := h'.plain

/-- The edges of other items do not matter. -/
theorem Done.store {m m₁ : Memory} (h : Done ss m m₁ k) (hk : k ≠ i) (v : BitVec 16) :
    Done ss m (m₁.store e i v) k where
  known x := by
    rw [m₁.store_itemposs_of_item e x v hk]
    exact h.known x
  refs := h.refs
  plain s x hs hkeep hzero hplain := by
    rw [m₁.store_itemposs_of_item e x v hk]
    exact h.plain s x hs hkeep hzero hplain

theorem Progress.trans {m m₁ m₂ : Memory} (h : Progress ss m m₁) (h' : Progress ss m₁ m₂) :
    Progress ss m m₂ where
  mono k hmask := h'.mono k (h.mono k hmask)
  frame k hk e := by
    rcases hk with hmask | hmask
    · rw [h'.frame k (Or.inl (h.mono k hmask)), h.frame k (Or.inl hmask)]
    · rw [h'.frame k (Or.inr hmask), h.frame k (Or.inr (h'.not_noted hmask))]
  fresh k hk hnot := by
    cases hbetween : m₁.masks k with
    | true => exact (h.fresh k hbetween hnot).progress hbetween h'
    | false =>
      exact .of_later (fun j hj => ⟨h.mono j hj, h.frame j (Or.inl hj)⟩) (h'.fresh k hk hbetween)

/-! ## The loop over the edges -/

/-- Item `i` has been noted after `m`, its edges in `done` have been computed, and with them what they
lead to; and what leads back to the item uses its edges in `before`. -/
structure Looped (ss : List ItemSize) (s : ItemSize) (i : ℕ) (m : Memory)
    (done before : List (Fin 4)) (m' : Memory) : Prop where
  mono : ∀ k, m.masks k = true → m'.masks k = true
  self : m'.masks i = true
  frame : ∀ k, k ≠ i → m.masks k = true ∨ m'.masks k = false →
    ∀ e, m'.itemposs e k = m.itemposs e k
  fresh : ∀ k, k ≠ i → m'.masks k = true → m.masks k = false → Done ss m m' k
  known : ∀ e ∈ done, (m'.itemposs e i).isSome = true
  rest : ∀ e ∉ done, m'.itemposs e i = m.itemposs e i
  refs : ∀ e ∈ done, ∀ j, Refers ss i e j → j < 0x8000 ∧ m'.masks j = true ∧
    (m.masks j = true → (m.itemposs e j).isSome = true)
  plain : ∀ e ∈ done, (s.pos e).id ≠ 0 → (∀ j, ¬Refers ss i e j) →
    m'.itemposs e i = some (s.pos e).pos
  back : ∀ k, k ≠ i → m'.masks k = true → m.masks k = false → ∀ e, Refers ss k e i →
    (m.itemposs e i).isSome = true ∨ e ∈ before

section

variable {m m₁ m₂ : Memory} {done before : List (Fin 4)}

/-- The item is noted. -/
theorem Looped.init (ss : List ItemSize) (s : ItemSize) (i : ℕ) (m : Memory) :
    Looped ss s i m [] [] (m.mark i) := by
  have hmask : ∀ k, k ≠ i → (m.mark i).masks k = m.masks k :=
    fun k hk => m.mark_masks_of_ne hk
  have hno : ∀ {P : Prop} (k : ℕ), k ≠ i → (m.mark i).masks k = true → m.masks k = false → P := by
    intro P k hk hnew hold
    rw [hmask k hk, hold] at hnew
    cases hnew
  refine ⟨fun k hk => ?_, m.mark_masks_self i, fun _ _ _ _ => rfl, fun k hk hnew hold =>
    hno k hk hnew hold, fun e he => (absurd he List.not_mem_nil), fun _ _ => rfl,
    fun e he => (absurd he List.not_mem_nil), fun e he => (absurd he List.not_mem_nil),
    fun k hk hnew hold => hno k hk hnew hold⟩
  by_cases hi : k = i
  · rw [hi]
    exact m.mark_masks_self i
  · rw [hmask k hi, hk]

/-- **A call for another item**: what it deals with may use the edges that are there. -/
theorem Looped.call (hm : m.masks i = false) (h : Looped ss s i m done before m₁)
    (hbefore : before ⊆ done) (h' : Progress ss m₁ m₂) : Looped ss s i m done done m₂ where
  mono k hk := h'.mono k (h.mono k hk)
  self := h'.mono i h.self
  frame k hki hk e := by
    rcases hk with hmask | hmask
    · rw [h'.frame k (Or.inl (h.mono k hmask)), h.frame k hki (Or.inl hmask)]
    · rw [h'.frame k (Or.inr hmask), h.frame k hki (Or.inr (h'.not_noted hmask))]
  fresh k hki hnew hold := by
    cases hbetween : m₁.masks k with
    | true => exact (h.fresh k hki hbetween hold).progress hbetween h'
    | false =>
      refine .of_later (fun j hj => ?_) (h'.fresh k hnew hbetween)
      have hji : j ≠ i := by
        rintro rfl
        rw [hm] at hj
        cases hj
      exact ⟨h.mono j hj, h.frame j hji (Or.inl hj)⟩
  known e he := by
    rw [h'.frame i (Or.inl h.self)]
    exact h.known e he
  rest e he := by
    rw [h'.frame i (Or.inl h.self)]
    exact h.rest e he
  refs e he j hr :=
    ⟨(h.refs e he j hr).1, h'.mono j (h.refs e he j hr).2.1, (h.refs e he j hr).2.2⟩
  plain e he hzero hplain := by
    rw [h'.frame i (Or.inl h.self)]
    exact h.plain e he hzero hplain
  back k hki hnew hold e hr := by
    cases hbetween : m₁.masks k with
    | true => exact (h.back k hki hbetween hold e hr).imp_right fun he => hbefore he
    | false =>
      -- the edge was there when the call began
      have hknown := ((h'.fresh k hnew hbetween).refs e i hr).2.2 h.self
      by_cases he : e ∈ done
      · exact Or.inr he
      · rw [h.rest e he] at hknown
        exact Or.inl hknown

/-- **An edge is written.** -/
theorem Looped.store (h : Looped ss s i m done before m₁) (he : e ∉ done)
    (hrefs : ∀ j, Refers ss i e j → j < 0x8000 ∧ m₁.masks j = true ∧
      (m.masks j = true → (m.itemposs e j).isSome = true)) {v : BitVec 16}
    (hplain : (s.pos e).id ≠ 0 → (∀ j, ¬Refers ss i e j) → v = (s.pos e).pos) :
    Looped ss s i m (done ++ [e]) before (m₁.store e i v) := by
  have hne : ∀ x ∈ done, x ≠ e := fun x hx hxe => he (hxe ▸ hx)
  refine ⟨h.mono, h.self, fun k hki hk x => ?_, fun k hki hnew hold =>
    (h.fresh k hki hnew hold).store hki v, fun x hx => ?_, fun x hx => ?_, fun x hx => ?_,
    fun x hx hzero hno => ?_, h.back⟩
  · rw [m₁.store_itemposs_of_item e x v hki]
    exact h.frame k hki hk x
  · rcases List.mem_append.mp hx with hx | hx
    · rw [m₁.store_itemposs_of_edge i i v (hne x hx)]
      exact h.known x hx
    · rw [List.mem_singleton.mp hx, Memory.store_itemposs_self]
      rfl
  · rw [List.mem_append, not_or, List.mem_singleton] at hx
    rw [m₁.store_itemposs_of_edge i i v hx.2]
    exact h.rest x hx.1
  · rcases List.mem_append.mp hx with hx | hx
    · exact h.refs x hx
    · rw [List.mem_singleton.mp hx]
      exact hrefs
  · rcases List.mem_append.mp hx with hx | hx
    · rw [m₁.store_itemposs_of_edge i i v (hne x hx)]
      exact h.plain x hx hzero hno
    · rw [List.mem_singleton] at hx
      subst hx
      rw [Memory.store_itemposs_self, hplain hzero hno]

/-- An item that is given the edge 0 refers to nothing. -/
theorem Ids.not_refers_zero (h : Ids ss) (hs : ss[i]? = some s) (hzero : (s.pos e).id = 0)
    (j : ℕ) : ¬Refers ss i e j := by
  rintro ⟨s', t, hs', ht, hid, -⟩
  rw [hs] at hs'
  cases hs'
  exact h.ne_zero t (List.mem_of_getElem? ht) (hid ▸ hzero)

/-- What is asked of the recursive calls. -/
def Progresses (ss : List ItemSize) (recur : ℕ → Memory → Except Fault Memory) : Prop :=
  ∀ k m m', recur k m = .ok m' → Progress ss m m' ∧ m'.masks k = true

variable {recur : ℕ → Memory → Except Fault Memory}

/-- **One round of the loop.** -/
theorem Looped.edge (hids : Ids ss) (hs : ss[i]? = some s) (hm : m.masks i = false)
    (hrecur : Progresses ss recur) (h : Looped ss s i m done before m₁)
    (hbefore : before ⊆ done) (he : e ∉ done)
    (hrun : computeEdge ss parentrect recur s i m₁ e = .ok m₂) :
    Looped ss s i m (done ++ [e]) done m₂ := by
  have hstay : Looped ss s i m done done m₁ := h.call hm hbefore (.refl ss m₁)
  by_cases hzero : (s.pos e).id = 0
  · rw [computeEdge_of_parent hzero] at hrun
    cases hrun
    exact hstay.store he (fun j hr => absurd hr (hids.not_refers_zero hs hzero j))
      (fun hne => absurd hzero hne)
  by_cases hex : ∃ k, Refers ss i e k
  · obtain ⟨k, hk⟩ := hex
    have honly : ∀ j, Refers ss i e j → j = k := fun j hj => hids.refers_unique hj hk
    rw [hids.computeEdge_of_refers hs hk] at hrun
    split_ifs at hrun with hfar hself
    · cases hrun
      refine hstay.store he (fun j hr => ?_) (fun _ hno => absurd hk (hno k))
      rw [honly j hr, hself]
      refine ⟨by omega, h.self, fun hmask => ?_⟩
      rw [hm] at hmask
      cases hmask
    · obtain ⟨m₃, hcall, hrun⟩ := bind_eq_ok.mp hrun
      obtain ⟨v, hload, hrun⟩ := bind_eq_ok.mp hrun
      cases hrun
      obtain ⟨hprog, hmask⟩ := hrecur k m₁ m₃ hcall
      refine (h.call hm hbefore hprog).store he (fun j hr => ?_) (fun _ hno => absurd hk (hno k))
      rw [honly j hr]
      refine ⟨by omega, hmask, fun hold => ?_⟩
      rw [← h.frame k hself (Or.inl hold), ← hprog.frame k (Or.inl (h.mono k hold)),
        Memory.load_eq_ok.mp hload]
      rfl
  · have hno : ∀ k, ¬Refers ss i e k := fun k hk => hex ⟨k, hk⟩
    rw [computeEdge_of_plain hs hzero hno] at hrun
    cases hrun
    exact hstay.store he (fun j hr => absurd hr (hno j)) (fun _ _ => rfl)

/-- **The loop**, over edges that have not been computed. -/
theorem Looped.loop (hids : Ids ss) (hs : ss[i]? = some s) (hm : m.masks i = false)
    (hrecur : Progresses ss recur) {es : List (Fin 4)} (h : Looped ss s i m done before m₁)
    (hbefore : before ⊆ done) (hnodup : (done ++ es).Nodup)
    (hrun : es.foldlM (computeEdge ss parentrect recur s i) m₁ = .ok m₂) :
    ∃ before', before' ⊆ done ++ es ∧ Looped ss s i m (done ++ es) before' m₂ := by
  induction es generalizing done before m₁ with
  | nil =>
    cases hrun
    rw [List.append_nil]
    exact ⟨before, hbefore, h⟩
  | cons e es ih =>
    rw [List.foldlM_cons] at hrun
    obtain ⟨m₃, hedge, hrest⟩ := bind_eq_ok.mp hrun
    have he : e ∉ done := by
      intro hmem
      exact (List.disjoint_of_nodup_append hnodup) hmem List.mem_cons_self
    have hcons : done ++ e :: es = (done ++ [e]) ++ es := by rw [List.append_assoc]; rfl
    rw [hcons] at hnodup ⊢
    exact ih (h.edge hids hs hm hrecur hbefore he hedge)
      (fun x hx => List.mem_append_left _ hx) hnodup hrest

end

/-! ## The sizes -/

/-- Between `m` and `m'` only edges of item `i` that its size replaces have changed, and none has been
lost. -/
structure Resized (s : ItemSize) (i : ℕ) (m m' : Memory) : Prop where
  masks : m'.masks = m.masks
  frame : ∀ k, k ≠ i → ∀ e, m'.itemposs e k = m.itemposs e k
  keep : ∀ e, s.replaces e = false → m'.itemposs e i = m.itemposs e i
  known : ∀ e, (m.itemposs e i).isSome = true → (m'.itemposs e i).isSome = true

section

variable {m m₁ m₂ : Memory}

theorem Resized.refl (s : ItemSize) (i : ℕ) (m : Memory) : Resized s i m m :=
  ⟨rfl, fun _ _ _ => rfl, fun _ _ => rfl, fun _ h => h⟩

theorem Resized.trans (h : Resized s i m m₁) (h' : Resized s i m₁ m₂) : Resized s i m m₂ where
  masks := h'.masks.trans h.masks
  frame k hk e := (h'.frame k hk e).trans (h.frame k hk e)
  keep e he := (h'.keep e he).trans (h.keep e he)
  known e he := h'.known e (h.known e he)

theorem Resized.store (m : Memory) (he : s.replaces e = true) (v : BitVec 16) :
    Resized s i m (m.store e i v) where
  masks := rfl
  frame k hk x := m.store_itemposs_of_item e x v hk
  keep x hx := by
    refine m.store_itemposs_of_edge i i v ?_
    rintro rfl
    rw [he] at hx
    cases hx
  known x hx := by
    by_cases hxe : x = e
    · rw [hxe, Memory.store_itemposs_self]
      rfl
    · rw [m.store_itemposs_of_edge i i v hxe]
      exact hx

/-- The three cases of a size. -/
theorem applySize_cases {near far : Fin 4} {size : BitVec 16}
    (hrun : applySize near far size i m = .ok m₁) :
    (size.toInt = 0 ∧ m₁ = m) ∨
      (0 < size.toInt ∧ ∃ v, m.itemposs near i = some v ∧ m₁ = m.store far i (v + size)) ∨
      (size.toInt < 0 ∧ ∃ v, m.itemposs far i = some v ∧ m₁ = m.store near i (v + size)) := by
  rw [applySize] at hrun
  split_ifs at hrun with hpos hneg
  · obtain ⟨v, hload, hrun⟩ := bind_eq_ok.mp hrun
    cases hrun
    exact Or.inr (Or.inl ⟨hpos, v, Memory.load_eq_ok.mp hload, rfl⟩)
  · obtain ⟨v, hload, hrun⟩ := bind_eq_ok.mp hrun
    cases hrun
    exact Or.inr (Or.inr ⟨hneg, v, Memory.load_eq_ok.mp hload, rfl⟩)
  · cases hrun
    exact Or.inl ⟨by omega, rfl⟩

theorem resized_applySize {near far : Fin 4} {size : BitVec 16}
    (hnear : s.replaces near = decide (size.toInt < 0))
    (hfar : s.replaces far = decide (0 < size.toInt))
    (hrun : applySize near far size i m = .ok m₁) : Resized s i m m₁ := by
  rcases applySize_cases hrun with ⟨-, rfl⟩ | ⟨hpos, v, -, rfl⟩ | ⟨hneg, v, -, rfl⟩
  · exact .refl s i m₁
  · exact .store m (by rw [hfar, decide_eq_true hpos]) _
  · exact .store m (by rw [hnear, decide_eq_true hneg]) _

/-! ## A call -/

/-- The parts of a call for an item that has not been noted. -/
theorem computeIt_eq_ok {fuel : ℕ} (hs : ss[i]? = some s) (hm : m.masks i = false)
    (hrun : computeIt ss parentrect (fuel + 1) i m = .ok m₂) :
    ∃ m₁, edges.foldlM (computeEdge ss parentrect (computeIt ss parentrect fuel) s i) (m.mark i) =
      .ok m₁ ∧ Resized s i m₁ m₂ := by
  rw [computeIt, hs] at hrun
  dsimp only at hrun
  rw [if_neg (by rw [hm]; exact Bool.false_ne_true)] at hrun
  obtain ⟨m₁, hloop, hrun⟩ := bind_eq_ok.mp hrun
  obtain ⟨m₃, hwidth, hheight⟩ := bind_eq_ok.mp hrun
  exact ⟨m₁, hloop, (resized_applySize rfl rfl hwidth).trans (resized_applySize rfl rfl hheight)⟩

/-- A loop that is over, and the sizes. -/
theorem Looped.progress {done before : List (Fin 4)} (h : Looped ss s i m done before m₁)
    (hs : ss[i]? = some s) (hm : m.masks i = false) (hall : ∀ e, e ∈ done)
    (hsize : Resized s i m₁ m₂) : Progress ss m m₂ where
  mono k hk := by
    rw [hsize.masks]
    exact h.mono k hk
  frame k hk e := by
    rw [hsize.masks] at hk
    have hki : k ≠ i := by
      rintro rfl
      rw [h.self, hm] at hk
      rcases hk with hk | hk <;> cases hk
    rw [hsize.frame k hki, h.frame k hki hk]
  fresh k hnew hold := by
    rw [hsize.masks] at hnew
    by_cases hki : k = i
    · subst hki
      refine ⟨fun e => hsize.known e (h.known e (hall e)), fun e j hr => ?_,
        fun s' e hs' hkeep hzero hno => ?_⟩
      · rw [hsize.masks]
        exact h.refs e (hall e) j hr
      · rw [hs] at hs'
        cases hs'
        rw [hsize.keep e hkeep]
        exact h.plain e (hall e) hzero hno
    · have hdone := h.fresh k hki hnew hold
      refine ⟨fun e => ?_, fun e j hr => ?_, fun s' e hs' hkeep hzero hno => ?_⟩
      · rw [hsize.frame k hki]
        exact hdone.known e
      · rw [hsize.masks]
        exact hdone.refs e j hr
      · rw [hsize.frame k hki]
        exact hdone.plain s' e hs' hkeep hzero hno

/-- **What a call does.** -/
theorem progresses_computeIt (hids : Ids ss) (fuel : ℕ) :
    Progresses ss (computeIt ss parentrect fuel) := by
  induction fuel with
  | zero =>
    intro k m m' hrun
    cases hrun
  | succ fuel ih =>
    intro i m m₂ hrun
    cases hs : ss[i]? with
    | none =>
      rw [computeIt, hs] at hrun
      cases hrun
    | some s =>
      cases hm : m.masks i with
      | true =>
        rw [computeIt, hs] at hrun
        dsimp only at hrun
        rw [if_pos hm] at hrun
        cases hrun
        exact ⟨.refl ss m, hm⟩
      | false =>
        obtain ⟨m₁, hloop, hsize⟩ := computeIt_eq_ok hs hm hrun
        obtain ⟨before, -, h⟩ := (Looped.init ss s i m).loop hids hs hm ih
          (fun _ hx => hx) (by decide) hloop
        refine ⟨h.progress hs hm (by decide) hsize, ?_⟩
        rw [hsize.masks]
        exact h.self

/-- The edges come in their order. -/
theorem edges_eq (e : Fin 4) : ∃ pre post, edges = pre ++ e :: post ∧ ∀ x ∈ pre, x < e := by
  have hmem : e ∈ edges := by revert e; decide
  obtain ⟨pre, post, hsplit⟩ := List.append_of_mem hmem
  have hsorted : (pre ++ e :: post).Pairwise (· < ·) := by
    rw [← hsplit]
    decide
  exact ⟨pre, post, hsplit, fun x hx =>
    (List.pairwise_append.mp hsorted).2.2 x hx e List.mem_cons_self⟩

/-- **What leads back** to the first item uses an edge that comes before the one that leads away. -/
theorem computeIt_back (hids : Ids ss) {fuel : ℕ}
    (hrun : computeIt ss parentrect fuel i .init = .ok m₂) {j : ℕ} {e' : Fin 4}
    (hr : Refers ss i e j) (hji : j ≠ i)
    (hpath : Relation.ReflTransGen (EdgeAvoiding (Refers ss) i) j k) (hback : Refers ss k e' i) :
    e' < e := by
  obtain ⟨s, -, hs, -⟩ := id hr
  have hno : ∀ k, Memory.init.masks k = false := fun _ => rfl
  cases fuel with
  | zero => cases hrun
  | succ fuel =>
    obtain ⟨m₁, hloop, -⟩ := computeIt_eq_ok hs rfl hrun
    obtain ⟨pre, post, hsplit, hlt⟩ := edges_eq e
    have hcalls : Progresses ss (computeIt ss parentrect fuel) := progresses_computeIt hids fuel
    have hnodup : (pre ++ e :: post).Nodup := hsplit ▸ (by decide : edges.Nodup)
    -- the loop up to the edge that leads away
    rw [hsplit, List.foldlM_append] at hloop
    obtain ⟨m₃, hpre, hloop⟩ := bind_eq_ok.mp hloop
    rw [List.foldlM_cons] at hloop
    obtain ⟨m₄, hedge, -⟩ := bind_eq_ok.mp hloop
    obtain ⟨before, hbefore, h₃⟩ := (Looped.init ss s i .init).loop hids hs rfl hcalls
      (fun _ hx => hx) ((List.nodup_append.mp hnodup).1) hpre
    have he : e ∉ pre := fun hmem => (List.disjoint_of_nodup_append hnodup) hmem List.mem_cons_self
    have h₄ : Looped ss s i .init (pre ++ [e]) pre m₄ :=
      h₃.edge hids hs rfl hcalls hbefore he hedge
    have hdealt : k ≠ i ∧ m₄.masks k = true := by
      clear hback
      induction hpath with
      | refl => exact ⟨hji, (h₄.refs e (List.mem_append_right _ List.mem_cons_self) j hr).2.1⟩
      | @tail a b _ hab ih =>
        obtain ⟨⟨x, hx⟩, hb⟩ := hab
        exact ⟨hb, ((h₄.fresh a ih.1 ih.2 (hno a)).refs x b hx).2.1⟩
    rcases h₄.back k hdealt.1 hdealt.2 (hno k) e' hback with hthere | hmem
    · cases hthere
    · exact hlt e' hmem

/-! ## Fuel -/

/-- The number of items that have not been noted. -/
def unnoted (ss : List ItemSize) (m : Memory) : ℕ :=
  ((List.range ss.length).filter fun k => !m.masks k).length

/-- Noting never adds to them. -/
theorem unnoted_mono (h : ∀ k, m.masks k = true → m₁.masks k = true) :
    unnoted ss m₁ ≤ unnoted ss m := by
  refine (List.monotone_filter_right _ fun k hk => ?_).length_le
  cases hm : m.masks k with
  | true =>
    rw [h k hm] at hk
    cases hk
  | false => rfl

/-- One item less. -/
theorem unnoted_mark (hs : ss[i]? = some s) (hm : m.masks i = false) :
    unnoted ss (m.mark i) < unnoted ss m := by
  have hi : i < ss.length := (List.getElem?_eq_some_iff.mp hs).1
  have hsub : ((List.range ss.length).filter fun k => !(m.mark i).masks k).Sublist
      ((List.range ss.length).filter fun k => !m.masks k) := by
    refine List.monotone_filter_right _ fun k hk => ?_
    by_cases hki : k = i
    · rw [hki, Memory.mark_masks_self] at hk
      cases hk
    · rwa [m.mark_masks_of_ne hki] at hk
  refine lt_of_le_of_ne hsub.length_le fun heq => ?_
  have hmem : i ∈ (List.range ss.length).filter fun k => !(m.mark i).masks k := by
    rw [hsub.eq_of_length heq, List.mem_filter, hm]
    exact ⟨List.mem_range.mpr hi, rfl⟩
  rw [List.mem_filter, Memory.mark_masks_self] at hmem
  cases hmem.2

/-- What a round can do: fail, write, or call and then read and write. -/
theorem computeEdge_cases (recur : ℕ → Memory → Except Fault Memory) (s : ItemSize) (i : ℕ)
    (m : Memory) (e : Fin 4) :
    computeEdge ss parentrect recur s i m e = .error .outOfBounds ∨
      (∃ v, computeEdge ss parentrect recur s i m e = .ok (m.store e i v)) ∨
      ∃ k p, computeEdge ss parentrect recur s i m e =
        recur k m >>= fun m' => m'.load e k >>= fun v => .ok (m'.store e i (p + v)) := by
  rw [computeEdge]
  dsimp only
  rw [if_neg (by omega)]
  by_cases hzero : (s.pos e).id = 0
  · rw [if_pos hzero]
    exact Or.inr (Or.inl ⟨_, rfl⟩)
  rw [if_neg hzero]
  split_ifs
  · exact Or.inr (Or.inl ⟨_, rfl⟩)
  · exact Or.inr (Or.inr ⟨_, _, rfl⟩)
  · exact Or.inl rfl

theorem computeEdge_ne_outOfFuel {recur : ℕ → Memory → Except Fault Memory}
    (hrecur : ∀ k, recur k m ≠ .error .outOfFuel) :
    computeEdge ss parentrect recur s i m e ≠ .error .outOfFuel := by
  rcases @computeEdge_cases ss parentrect recur s i m e with heq | ⟨v, heq⟩ | ⟨k, p, heq⟩
  · rw [heq]
    exact fun h => (by cases h)
  · rw [heq]
    exact ok_ne_error _
  · rw [heq]
    exact bind_ne_error (hrecur k) fun m' _ =>
      bind_ne_error (m'.load_ne_outOfFuel _ _) fun _ _ => ok_ne_error _

theorem computeEdge_mono {recur : ℕ → Memory → Except Fault Memory}
    (hrecur : Progresses ss recur)
    (hrun : computeEdge ss parentrect recur s i m e = .ok m₁) (k : ℕ) (hk : m.masks k = true) :
    m₁.masks k = true := by
  rcases @computeEdge_cases ss parentrect recur s i m e with heq | ⟨v, heq⟩ | ⟨k', p, heq⟩
  · rw [heq] at hrun
    cases hrun
  · rw [heq] at hrun
    cases hrun
    exact hk
  · rw [heq] at hrun
    obtain ⟨m', hcall, hrun⟩ := bind_eq_ok.mp hrun
    obtain ⟨v, -, hrun⟩ := bind_eq_ok.mp hrun
    cases hrun
    exact (hrecur _ _ _ hcall).1.mono k hk

theorem applySize_ne_outOfFuel (near far : Fin 4) (size : BitVec 16) :
    applySize near far size i m ≠ .error .outOfFuel := by
  rw [applySize]
  split_ifs
  · exact bind_ne_error (m.load_ne_outOfFuel _ _) fun _ _ => ok_ne_error _
  · exact bind_ne_error (m.load_ne_outOfFuel _ _) fun _ _ => ok_ne_error _
  · exact ok_ne_error m

/-- **A call ends**: each call in a call finds one item less that has not been noted. -/
theorem computeIt_ne_outOfFuel (hids : Ids ss) {fuel : ℕ} (hfuel : unnoted ss m < fuel) :
    computeIt ss parentrect fuel i m ≠ .error .outOfFuel := by
  induction fuel generalizing i m with
  | zero => exact absurd hfuel (Nat.not_lt_zero _)
  | succ fuel ih =>
    rw [computeIt]
    cases hs : ss[i]? with
    | none => exact fun h => (by cases h)
    | some s =>
      dsimp only
      split_ifs with hm
      · exact ok_ne_error m
      have hless := unnoted_mark hs (Bool.eq_false_iff.mpr hm)
      refine bind_ne_error ?_ fun m₁ _ => bind_ne_error (applySize_ne_outOfFuel _ _ _)
        fun m₂ _ => applySize_ne_outOfFuel _ _ _
      refine @foldlM_ne_error _ _ _ _ _ (fun m => unnoted ss m < fuel) (fun m e m' hm hrun => ?_)
        (fun m e hm => computeEdge_ne_outOfFuel fun k => ih hm) edges _ (by omega)
      exact lt_of_le_of_lt
        (unnoted_mono (computeEdge_mono (progresses_computeIt hids fuel) hrun)) hm

theorem unnoted_lt (ss : List ItemSize) (m : Memory) : unnoted ss m < ss.length + 1 := by
  have hlen := List.length_filter_le (fun k => !m.masks k) (List.range ss.length)
  rw [List.length_range] at hlen
  exact Nat.lt_succ_of_le hlen

theorem outrect_ne_outOfFuel (m : Memory) (i : ℕ) : outrect m i ≠ .error .outOfFuel :=
  bind_ne_error (m.load_ne_outOfFuel _ _) fun _ _ =>
    bind_ne_error (m.load_ne_outOfFuel _ _) fun _ _ =>
      bind_ne_error (m.load_ne_outOfFuel _ _) fun _ _ =>
        bind_ne_error (m.load_ne_outOfFuel _ _) fun _ _ => ok_ne_error _

/-- **`GetSizes` ends.** -/
theorem getSizes_ne_outOfFuel (hids : Ids ss) (parentrect : Rect) :
    getSizes ss parentrect ≠ .error .outOfFuel := by
  refine bind_ne_error ?_ fun m _ => mapM_ne_error (outrect_ne_outOfFuel m) _
  exact @foldlM_ne_error _ _ _ _ _ (fun _ => True) (fun _ _ _ _ _ => trivial)
    (fun m i _ => computeIt_ne_outOfFuel hids (unnoted_lt ss m)) _ _ trivial

end

end Sizes
end UtilWin
