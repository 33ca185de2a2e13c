import UtilWin.Layout.Anchored

/-!
# Anchored layout in an orderly list

Where no item leads back to itself, an item that `ComputeIt` finds noted has its edges, or its own call
has not come back yet and then the item leads to the one that looks at it.  So what is read is what the
equation asks for, and the edges that a call computes are the true ones (`computes_computeIt`).
`laidOut_iff` puts this together with what is known of lists that are not orderly.
-/

namespace UtilWin
namespace Sizes

open Relation

variable {ss ss' : List ItemSize} {parentrect : Rect} {sol : BitVec 16 → Fin 4 → ℤ}
  {s t : ItemSize} {e : Fin 4} {m m₁ m₂ : Memory} {i k : ℕ}

/-- The edges of item `k` are the true ones. -/
def Correct (ss : List ItemSize) (sol : BitVec 16 → Fin 4 → ℤ) (m : Memory) (k : ℕ) : Prop :=
  ∀ s, ss[k]? = some s → ∀ e, m.itemposs e k = some (BitVec.ofInt 16 (sol s.id e))

/-- For item `i` there is a call of `ComputeIt` for item `k`. -/
def Calls (ss : List ItemSize) (i k : ℕ) : Prop := i ≠ k ∧ ∃ e, Refers ss i e k

theorem Correct.frame (h : Correct ss sol m k) (hframe : ∀ e, m₁.itemposs e k = m.itemposs e k) :
    Correct ss sol m₁ k := by
  intro s hs e
  rw [hframe e]
  exact h s hs e

/-- What holds of the items is said of their indices. -/
theorem Orderly.not_calls (h : Orderly ss sol) (hids : Ids ss) (k : ℕ) :
    ¬TransGen (Calls ss) k k := by
  intro hcycle
  let name : ℕ → BitVec 16 := fun j => (ss[j]?.map ItemSize.id).getD 0
  have hname : ∀ {j : ℕ} {s : ItemSize}, ss[j]? = some s → name j = s.id := by
    intro j s hs
    show (ss[j]?.map ItemSize.id).getD 0 = s.id
    rw [hs]
    rfl
  refine h.acyclic (name k) (hcycle.lift name ?_)
  rintro a b ⟨hne, e, s, t, hs, ht, hid, hsmall⟩
  show Edge (Leads ss) (name a) (name b)
  rw [hname hs, hname ht]
  exact ⟨e, fun heq => hne (hids.index_unique hs ht heq), s, List.mem_of_getElem? hs, t,
    List.mem_of_getElem? ht, rfl, rfl, hid, hsmall⟩

/-- The index of an item that is found is a `short`. -/
theorem Orderly.index_lt (h : Orderly ss sol) (hr : Refers ss i e k) : k < 0x8000 := by
  obtain ⟨s, t, hs, ht, hid, hsmall⟩ := hr
  rcases h.few with hlen | hno
  · exact lt_of_lt_of_le (List.getElem?_eq_some_iff.mp ht).1 hlen
  · have hlarge := hno s (List.mem_of_getElem? hs) e t (List.mem_of_getElem? ht) hid
    omega

/-! ## The true values, as they are computed -/

theorem not_replaces (he : s.replaces e = false) : ¬s.replaces e = true := by
  rw [he]
  exact Bool.false_ne_true

/-- At a distance from the parent. -/
theorem Solves.of_parent (hsol : Solves ss parentrect sol) (hs : s ∈ ss)
    (he : s.replaces e = false) (hzero : (s.pos e).id = 0) :
    BitVec.ofInt 16 (sol s.id e) = (s.pos e).pos + parentPos parentrect e := by
  have hparent : parentPos parentrect e = BitVec.ofInt 16 (parentrect.edge e).toInt :=
    (BitVec.signExtend_eq_setWidth_of_le (parentrect.edge e) (by decide)).symm
  rw [hsol s hs e, equation, if_neg (not_replaces he), if_pos hzero, BitVec.ofInt_add,
    BitVec.ofInt_toInt, hparent]

/-- Where nothing is found. -/
theorem Solves.of_plain (hsol : Solves ss parentrect sol) (hsigned : Orderly ss sol)
    (hs : ss[i]? = some s) (he : s.replaces e = false) (hzero : (s.pos e).id ≠ 0)
    (hplain : ∀ k, ¬Refers ss i e k) : BitVec.ofInt 16 (sol s.id e) = (s.pos e).pos := by
  have hmem := List.mem_of_getElem? hs
  have hvalue : sol s.id e = (s.pos e).pos.toInt := by
    rw [hsol s hmem e, equation, if_neg (not_replaces he), if_neg hzero]
    split_ifs with hnamed
    · obtain ⟨t, ht, hid⟩ := hnamed
      have hlarge : 0x8000 ≤ t.id.toNat := by
        by_contra hsmall
        obtain ⟨k, hk⟩ := List.mem_iff_getElem?.mp ht
        exact hplain k ⟨s, t, hs, hk, hid.symm, by omega⟩
      rw [← hid, hsigned.signed s hmem e he t ht hid.symm hlarge, add_zero]
    · rfl
  rw [hvalue, BitVec.ofInt_toInt]

/-- At a distance from another item. -/
theorem Solves.of_refers (hsol : Solves ss parentrect sol) (hids : Ids ss) (hs : ss[i]? = some s)
    (he : s.replaces e = false) (hr : Refers ss i e k) (ht : ss[k]? = some t) :
    BitVec.ofInt 16 (sol s.id e) = (s.pos e).pos + BitVec.ofInt 16 (sol t.id e) := by
  obtain ⟨s', t', hs', ht', hid, -⟩ := hr
  rw [hs] at hs'
  rw [ht] at ht'
  cases hs'
  cases ht'
  have hmem := List.mem_of_getElem? ht
  rw [hsol s (List.mem_of_getElem? hs) e, equation, if_neg (not_replaces he),
    if_neg (hid ▸ hids.ne_zero t hmem), if_pos ⟨t, hmem, hid.symm⟩, hid, BitVec.ofInt_add,
    BitVec.ofInt_toInt]

/-- A size away from the edge opposite. -/
theorem Solves.of_size (hsol : Solves ss parentrect sol) (hs : s ∈ ss)
    (he : s.replaces e = true) :
    BitVec.ofInt 16 (sol s.id e) = BitVec.ofInt 16 (sol s.id (opposite e)) + s.size e := by
  rw [hsol s hs e, equation, if_pos he, BitVec.ofInt_add, BitVec.ofInt_toInt]

/-! ## The loop over the edges -/

/-- The edges in `done` of item `i` have been computed, and whatever else has been noted is correct, if
its call has come back. -/
structure Filled (ss : List ItemSize) (sol : BitVec 16 → Fin 4 → ℤ) (s : ItemSize) (i : ℕ)
    (m : Memory) (done : List (Fin 4)) (m' : Memory) : Prop where
  mono : ∀ k, (m.mark i).masks k = true → m'.masks k = true
  others : ∀ k, k ≠ i → m'.masks k = true →
    Correct ss sol m' k ∨ m.masks k = true ∧ TransGen (Calls ss) k i
  values : ∀ e ∈ done, s.replaces e = false →
    m'.itemposs e i = some (BitVec.ofInt 16 (sol s.id e))

/-- What has been noted when there is a call for item `i`. -/
def Reached (ss : List ItemSize) (sol : BitVec 16 → Fin 4 → ℤ) (m : Memory) (i : ℕ) : Prop :=
  ∀ k, m.masks k = true → Correct ss sol m k ∨ TransGen (Calls ss) k i

/-- What is asked of the recursive calls. -/
def Computes (ss : List ItemSize) (sol : BitVec 16 → Fin 4 → ℤ) (fuel : ℕ)
    (recur : ℕ → Memory → Except Fault Memory) : Prop :=
  ∀ k m, k < ss.length → unnoted ss m < fuel → Reached ss sol m k →
    ∃ m', recur k m = .ok m' ∧ ∀ j, m'.masks j = true → m.masks j = false → Correct ss sol m' j

theorem Filled.init (h : Reached ss sol m i) : Filled ss sol s i m [] (m.mark i) where
  mono _ hk := hk
  others k hki hk := by
    rw [m.mark_masks_of_ne hki] at hk
    exact (h k hk).imp (fun hcorrect => hcorrect.frame fun _ => rfl) fun hleads => ⟨hk, hleads⟩
  values e he := absurd he List.not_mem_nil

/-- **An edge is written.** -/
theorem Filled.store {done : List (Fin 4)} (h : Filled ss sol s i m done m₁) {v : BitVec 16}
    (hv : s.replaces e = false → v = BitVec.ofInt 16 (sol s.id e)) :
    Filled ss sol s i m (done ++ [e]) (m₁.store e i v) where
  mono := h.mono
  others k hki hk := (h.others k hki hk).imp_left fun hcorrect =>
    hcorrect.frame fun x => m₁.store_itemposs_of_item e x v hki
  values x hx hkeep := by
    by_cases hxe : x = e
    · subst hxe
      rw [Memory.store_itemposs_self, hv hkeep]
    · rw [m₁.store_itemposs_of_edge i i v hxe]
      refine h.values x ?_ hkeep
      rcases List.mem_append.mp hx with hx | hx
      · exact hx
      · exact absurd (List.mem_singleton.mp hx) hxe

/-- **A call for another item**: when it comes back, that item is correct. -/
theorem Filled.call {done : List (Fin 4)} {fuel : ℕ}
    {recur : ℕ → Memory → Except Fault Memory} (horder : Orderly ss sol) (hids : Ids ss)
    (hprog : Progresses ss recur) (hrecur : Computes ss sol fuel recur)
    (hfuel : unnoted ss (m.mark i) < fuel) (h : Filled ss sol s i m done m₁)
    (hr : Refers ss i e k) (hki : k ≠ i) :
    ∃ m₂, recur k m₁ = .ok m₂ ∧ Filled ss sol s i m done m₂ ∧ Correct ss sol m₂ k := by
  have hcalls : Calls ss i k := ⟨hki.symm, e, hr⟩
  have hself : m₁.masks i = true := h.mono i (m.mark_masks_self i)
  have hreached : Reached ss sol m₁ k := by
    intro j hj
    by_cases hji : j = i
    · exact Or.inr (hji ▸ .single hcalls)
    · exact (h.others j hji hj).imp_right fun hleads => hleads.2.tail hcalls
  obtain ⟨-, t, -, ht, -⟩ := id hr
  obtain ⟨m₂, hcall, hnew⟩ := hrecur k m₁ (List.getElem?_eq_some_iff.mp ht).1
    (lt_of_le_of_lt (unnoted_mono h.mono) hfuel) hreached
  obtain ⟨hprogress, hmask⟩ := hprog k m₁ m₂ hcall
  have hfilled : Filled ss sol s i m done m₂ := by
    refine ⟨fun j hj => hprogress.mono j (h.mono j hj), fun j hji hj => ?_, fun x hx hkeep => ?_⟩
    · cases hold : m₁.masks j with
      | true => exact (h.others j hji hold).imp_left fun hcorrect =>
          hcorrect.frame (hprogress.frame j (Or.inl hold))
      | false => exact Or.inl (hnew j hj hold)
    · rw [hprogress.frame i (Or.inl hself)]
      exact h.values x hx hkeep
  refine ⟨m₂, hcall, hfilled, ?_⟩
  rcases hfilled.others k hki hmask with hcorrect | ⟨-, hback⟩
  · exact hcorrect
  · exact absurd (hback.tail hcalls) (horder.not_calls hids k)

/-- **One round of the loop.** -/
theorem Filled.edge {done : List (Fin 4)} {fuel : ℕ}
    {recur : ℕ → Memory → Except Fault Memory} (hanchored : Anchored ss)
    (hsol : Solves ss parentrect sol) (horder : Orderly ss sol) (hprog : Progresses ss recur)
    (hrecur : Computes ss sol fuel recur) (hfuel : unnoted ss (m.mark i) < fuel)
    (hs : ss[i]? = some s) (h : Filled ss sol s i m done m₁) :
    ∃ m₂, computeEdge ss parentrect recur s i m₁ e = .ok m₂ ∧
      Filled ss sol s i m (done ++ [e]) m₂ := by
  have hids := hanchored.ids
  have hmem := List.mem_of_getElem? hs
  by_cases hzero : (s.pos e).id = 0
  · exact ⟨_, computeEdge_of_parent hzero, h.store fun he => (hsol.of_parent hmem he hzero).symm⟩
  by_cases hex : ∃ k, Refers ss i e k
  · obtain ⟨k, hr⟩ := hex
    have hlt := horder.index_lt hr
    rw [hids.computeEdge_of_refers hs hr, if_neg (by omega)]
    by_cases hki : k = i
    · rw [if_pos hki]
      refine ⟨_, rfl, h.store fun he => ?_⟩
      -- an edge that is not replaced would depend on itself
      subst hki
      obtain ⟨s', t, hs', ht, hid, -⟩ := hr
      rw [hs] at hs' ht
      cases hs'
      cases ht
      exact absurd (.single (.pos hmem hmem he hid)) (hanchored.acyclic (s.id, e))
    · rw [if_neg hki]
      obtain ⟨m₂, hcall, hfilled, hcorrect⟩ :=
        h.call horder hids hprog hrecur hfuel hr hki
      obtain ⟨-, t, -, ht, -⟩ := id hr
      have hload := Memory.load_eq_ok.mpr (hcorrect t ht e)
      refine ⟨_, bind_eq_ok.mpr ⟨m₂, hcall, bind_eq_ok.mpr ⟨_, hload, rfl⟩⟩,
        hfilled.store fun he => ?_⟩
      exact (hsol.of_refers hids hs he hr ht).symm
  · have hno : ∀ k, ¬Refers ss i e k := fun k hk => hex ⟨k, hk⟩
    exact ⟨_, computeEdge_of_plain hs hzero hno,
      h.store fun he => (hsol.of_plain horder hs he hzero hno).symm⟩

/-- **The loop.** -/
theorem Filled.loop {done : List (Fin 4)} {fuel : ℕ}
    {recur : ℕ → Memory → Except Fault Memory} (hanchored : Anchored ss)
    (hsol : Solves ss parentrect sol) (horder : Orderly ss sol) (hprog : Progresses ss recur)
    (hrecur : Computes ss sol fuel recur) (hfuel : unnoted ss (m.mark i) < fuel)
    (hs : ss[i]? = some s) (es : List (Fin 4)) (h : Filled ss sol s i m done m₁) :
    ∃ m₂, es.foldlM (computeEdge ss parentrect recur s i) m₁ = .ok m₂ ∧
      Filled ss sol s i m (done ++ es) m₂ := by
  induction es generalizing done m₁ with
  | nil =>
    rw [List.append_nil]
    exact ⟨m₁, rfl, h⟩
  | cons e es ih =>
    obtain ⟨m₂, hedge, hfilled⟩ := h.edge hanchored hsol horder hprog hrecur hfuel hs
    obtain ⟨m₃, hrest, hfilled⟩ := ih hfilled
    rw [List.append_assoc] at hfilled
    rw [List.foldlM_cons]
    exact ⟨m₃, bind_eq_ok.mpr ⟨m₂, hedge, hrest⟩, hfilled⟩

/-! ## The sizes -/

@[simp] theorem opposite_opposite (e : Fin 4) : opposite (opposite e) = e := by
  revert e
  decide

theorem opposite_ne (e : Fin 4) : opposite e ≠ e := by
  revert e
  decide

theorem size_opposite (s : ItemSize) (e : Fin 4) : s.size (opposite e) = s.size e := by
  match e with
  | 0 | 1 | 2 | 3 => rfl

/-- **A size** gives both edges, with those that it does not replace. -/
theorem exists_applySize {near : Fin 4} (hsol : Solves ss parentrect sol) (hs : s ∈ ss)
    (hnear : s.replaces near = decide ((s.size near).toInt < 0))
    (hfar : s.replaces (opposite near) = decide (0 < (s.size near).toInt))
    (h : ∀ e, e = near ∨ e = opposite near → s.replaces e = false →
      m.itemposs e i = some (BitVec.ofInt 16 (sol s.id e))) :
    ∃ m₁, applySize near (opposite near) (s.size near) i m = .ok m₁ ∧
      (∀ e, e = near ∨ e = opposite near →
        m₁.itemposs e i = some (BitVec.ofInt 16 (sol s.id e))) ∧
      ∀ e, e ≠ near → e ≠ opposite near → m₁.itemposs e i = m.itemposs e i := by
  rw [applySize]
  by_cases hpos : 0 < (s.size near).toInt
  · have hkeep : s.replaces near = false := by
      rw [hnear, decide_eq_false (by omega)]
    have hreplace : s.replaces (opposite near) = true := by
      rw [hfar, decide_eq_true hpos]
    have hvalue := h near (Or.inl rfl) hkeep
    have htrue := hsol.of_size hs hreplace
    rw [opposite_opposite, size_opposite] at htrue
    rw [if_pos hpos]
    refine ⟨_, bind_eq_ok.mpr ⟨_, Memory.load_eq_ok.mpr hvalue, rfl⟩, ?_, fun e _ he =>
      m.store_itemposs_of_edge i i _ he⟩
    rintro e (rfl | rfl)
    · rw [m.store_itemposs_of_edge i i _ (opposite_ne e).symm, hvalue]
    · rw [Memory.store_itemposs_self, htrue]
  rw [if_neg hpos]
  by_cases hneg : (s.size near).toInt < 0
  · have hkeep : s.replaces (opposite near) = false := by
      rw [hfar, decide_eq_false hpos]
    have hreplace : s.replaces near = true := by
      rw [hnear, decide_eq_true hneg]
    have hvalue := h (opposite near) (Or.inr rfl) hkeep
    have htrue := hsol.of_size hs hreplace
    rw [if_pos hneg]
    refine ⟨_, bind_eq_ok.mpr ⟨_, Memory.load_eq_ok.mpr hvalue, rfl⟩, ?_, fun e he _ =>
      m.store_itemposs_of_edge i i _ he⟩
    rintro e (rfl | rfl)
    · rw [Memory.store_itemposs_self, htrue]
    · rw [m.store_itemposs_of_edge i i _ (opposite_ne near), hvalue]
  · rw [if_neg hneg]
    refine ⟨m, rfl, fun e he => h e he ?_, fun _ _ _ => rfl⟩
    rcases he with rfl | rfl
    · rw [hnear, decide_eq_false hneg]
    · rw [hfar, decide_eq_false hpos]

/-- The two sizes after the loop. -/
theorem exists_applySizes (hsol : Solves ss parentrect sol) (hs : s ∈ ss)
    (h : ∀ e, s.replaces e = false → m.itemposs e i = some (BitVec.ofInt 16 (sol s.id e))) :
    ∃ m₁ m₂, applySize 0 2 s.width i m = .ok m₁ ∧ applySize 1 3 s.height i m₁ = .ok m₂ ∧
      ∀ e, m₂.itemposs e i = some (BitVec.ofInt 16 (sol s.id e)) := by
  obtain ⟨m₁, hwidth, hacross, hkeep⟩ :=
    @exists_applySize _ _ _ s m i 0 hsol hs rfl rfl fun e _ he => h e he
  obtain ⟨m₂, hheight, hdown, hkeep'⟩ :=
    @exists_applySize _ _ _ s m₁ i 1 hsol hs rfl rfl (by
      intro e hside he
      rw [hkeep e (by rintro rfl; revert hside; decide) (by rintro rfl; revert hside; decide)]
      exact h e he)
  refine ⟨m₁, m₂, hwidth, hheight, fun e => ?_⟩
  by_cases hside : e = 1 ∨ e = opposite 1
  · exact hdown e hside
  · obtain ⟨hne, hne'⟩ := not_or.mp hside
    rw [hkeep' e hne hne']
    refine hacross e ?_
    revert e
    decide

/-! ## A call -/

/-- **A call computes true edges.** -/
theorem computes_computeIt (hanchored : Anchored ss) (hsol : Solves ss parentrect sol)
    (horder : Orderly ss sol) (fuel : ℕ) :
    Computes ss sol fuel (computeIt ss parentrect fuel) := by
  induction fuel with
  | zero => exact fun k m _ hfuel => absurd hfuel (Nat.not_lt_zero _)
  | succ fuel ih =>
    intro i m hi hfuel hreached
    have hs : ss[i]? = some ss[i] := List.getElem?_eq_getElem hi
    rw [computeIt, hs]
    dsimp only
    cases hm : m.masks i with
    | true =>
      refine ⟨m, if_pos rfl, fun j hj hold => ?_⟩
      rw [hj] at hold
      cases hold
    | false =>
      rw [if_neg Bool.false_ne_true]
      have hless : unnoted ss (m.mark i) < fuel := by
        have := unnoted_mark hs hm
        omega
      obtain ⟨m₁, hloop, hfilled⟩ := (Filled.init hreached).loop hanchored hsol horder
        (progresses_computeIt hanchored.ids fuel) ih hless hs edges
      obtain ⟨m₂, m₃, hwidth, hheight, hvalues⟩ :=
        exists_applySizes hsol (List.mem_of_getElem? hs) fun e he =>
          hfilled.values e ((by decide : ∀ e, e ∈ edges) e) he
      have hsize : Resized ss[i] i m₁ m₃ :=
        (resized_applySize rfl rfl hwidth).trans (resized_applySize rfl rfl hheight)
      refine ⟨m₃, bind_eq_ok.mpr ⟨m₁, hloop, bind_eq_ok.mpr ⟨m₂, hwidth, hheight⟩⟩,
        fun j hj hold => ?_⟩
      by_cases hji : j = i
      · subst hji
        intro s' hs' e
        rw [hs] at hs'
        cases hs'
        exact hvalues e
      · rw [hsize.masks] at hj
        rcases hfilled.others j hji hj with hcorrect | ⟨hnoted, -⟩
        · exact hcorrect.frame (hsize.frame j hji)
        · rw [hold] at hnoted
          cases hnoted

/-- The first loop of `GetSizes`. -/
theorem exists_foldlM (hanchored : Anchored ss) (hsol : Solves ss parentrect sol)
    (horder : Orderly ss sol) (l : List ℕ) (hl : ∀ i ∈ l, i < ss.length)
    (h : ∀ k, m.masks k = true → Correct ss sol m k) :
    ∃ m', l.foldlM (fun m i => computeIt ss parentrect (ss.length + 1) i m) m = .ok m' ∧
      ∀ k, m'.masks k = true → Correct ss sol m' k := by
  induction l generalizing m with
  | nil => exact ⟨m, rfl, h⟩
  | cons i l ih =>
    obtain ⟨m₁, hcall, hnew⟩ := computes_computeIt hanchored hsol horder (ss.length + 1) i m
      (hl i List.mem_cons_self) (unnoted_lt ss m) fun k hk => Or.inl (h k hk)
    have hframe := (progresses_computeIt hanchored.ids _ i m m₁ hcall).1.frame
    obtain ⟨m₂, hrest, hcorrect⟩ := @ih m₁ (fun j hj => hl j (List.mem_cons_of_mem i hj)) (by
      intro k hk
      cases hold : m.masks k with
      | true => exact (h k hold).frame (hframe k (Or.inl hold))
      | false => exact hnew k hk hold)
    rw [List.foldlM_cons]
    exact ⟨m₂, bind_eq_ok.mpr ⟨m₁, hcall, hrest⟩, hcorrect⟩

/-- The second loop of `GetSizes`. -/
theorem exists_mapM (hfits : Fits ss sol) (h : ∀ k, k < ss.length → Correct ss sol m k) :
    ∃ out, (List.range ss.length).mapM (outrect m) = .ok out ∧
      List.Forall₂ (fun s r => ∀ e, (Rect.edge r e).toInt = sol s.id e) ss out := by
  have hsome : ∀ i, ∃ r, i < ss.length → outrect m i = .ok r := by
    intro i
    by_cases hi : i < ss.length
    · obtain ⟨r, hr⟩ := @outrect_of_known m i fun e => by
        rw [h i hi _ (List.getElem?_eq_getElem hi) e]
        rfl
      exact ⟨r, fun _ => hr⟩
    · exact ⟨⟨0, 0, 0, 0⟩, fun hlt => absurd hlt hi⟩
  choose rect hrect using hsome
  refine ⟨(List.range ss.length).map rect, mapM_eq_ok.mpr ?_, ?_⟩
  · rw [List.forall₂_map_right_iff, List.forall₂_same]
    exact fun i hi => hrect i (List.mem_range.mp hi)
  · rw [List.forall₂_iff_get]
    refine ⟨by rw [List.length_map, List.length_range], fun i hi hi' e => ?_⟩
    obtain ⟨v, hv, htrue⟩ := outrect_eq_ok (hrect i hi) e
    rw [h i hi _ (List.getElem?_eq_getElem hi) e] at hv
    cases hv
    obtain ⟨hlo, hhi⟩ := hfits ss[i] (List.getElem_mem hi) e
    rw [List.get_eq_getElem, List.get_eq_getElem, List.getElem_map, List.getElem_range, htrue]
    exact BitVec.toInt_ofInt_eq_self (by decide) hlo hhi

/-- **An orderly list is laid out.** -/
theorem Orderly.getSizes_eq_ok (horder : Orderly ss sol) (hanchored : Anchored ss)
    (hsol : Solves ss parentrect sol) (hfits : Fits ss sol) :
    ∃ out, getSizes ss parentrect = .ok out ∧
      List.Forall₂ (fun s r => ∀ e, (Rect.edge r e).toInt = sol s.id e) ss out := by
  have hnone : ∀ k, Memory.init.masks k = true → Correct ss sol .init k :=
    fun k hk => absurd hk Bool.false_ne_true
  obtain ⟨m, hcompute, hcorrect⟩ := exists_foldlM hanchored hsol horder (List.range ss.length)
    (fun i hi => List.mem_range.mp hi) hnone
  obtain ⟨-, hmasks⟩ := progress_foldlM hanchored.ids hcompute
  obtain ⟨out, hread, hout⟩ := exists_mapM hfits fun k hk =>
    hcorrect k (hmasks k (List.mem_range.mpr hk))
  exact ⟨out, bind_eq_ok.mpr ⟨m, hcompute, hread⟩, hout⟩

/-! ## When it solves its equations -/

theorem Fits.perm (h : Fits ss sol) (hperm : ss'.Perm ss) : Fits ss' sol :=
  fun s hs e => h s (hperm.mem_iff.mp hs) e

/-- **When `GetSizes` gives every item the true coordinates**, in whatever order the items are: when no
item leads back to itself and the large numbers do no harm. -/
theorem laidOut_iff (h : Anchored ss) (hsol : Solves ss parentrect sol) (hfits : Fits ss sol) :
    LaidOut ss parentrect sol ↔ Orderly ss sol := by
  constructor
  · intro hlaid
    exact ⟨hlaid.acyclic h.ids, hlaid.signed h.ids hsol, hlaid.few h.ids⟩
  · intro horder ss' hperm
    exact (horder.perm hperm).getSizes_eq_ok (h.perm hperm) (hsol.perm hperm) (hfits.perm hperm)

/-- A parent to lay items out in. -/
def window : Rect := ⟨0, 0, 100, 50⟩

/-- Item 2 is two inside item 1, whose right edge is its width away from the left one. -/
def nested : List ItemSize :=
  [⟨2, 0, 0, ![⟨1, 2⟩, ⟨1, 2⟩, ⟨1, -2⟩, ⟨1, -2⟩]⟩,
    ⟨1, 10, 0, ![⟨0, 5⟩, ⟨0, 3⟩, ⟨0, 0⟩, ⟨0xffff, 20⟩]⟩]

/-- Its true coordinates. -/
def nestedEdge (id : BitVec 16) : Fin 4 → ℤ := if id = 1 then ![5, 3, 15, 20] else ![7, 5, 13, 18]

theorem laidOut_nested : LaidOut nested window nestedEdge := by
  have hanchored : Anchored nested := by
    exact .of_rank ⟨by decide, by decide, by decide⟩
      (fun x => 2 * x.1.toNat + if x = (1, 2) then 1 else 0) (by decide) (by decide)
  have hsol : Solves nested window nestedEdge := by
    rw [Solves]
    decide
  have hfits : Fits nested nestedEdge := by
    rw [Fits]
    decide
  refine (laidOut_iff hanchored hsol hfits).mpr ⟨not_transGen_self BitVec.toNat ?_, ?_,
    Or.inl (by decide)⟩
  · have hdown : ∀ s ∈ nested, ∀ t ∈ nested, ∀ e, (s.pos e).id = t.id →
        t.id.toNat < s.id.toNat := by decide
    rintro a b ⟨e, hne, s, hs, t, ht, rfl, rfl, hid, -⟩
    exact hdown s hs t ht e hid
  · decide

/-- Item 1 begins where item 2 does, and item 2 ends where item 1 does. -/
def crossed : List ItemSize :=
  [⟨1, 0, 0, ![⟨2, 5⟩, ⟨0, 0⟩, ⟨0, 0⟩, ⟨0, 0⟩]⟩,
    ⟨2, 0, 0, ![⟨0xffff, 7⟩, ⟨0, 0⟩, ⟨1, -3⟩, ⟨0, 0⟩]⟩]

/-- Its true coordinates. -/
def crossedEdge (id : BitVec 16) : Fin 4 → ℤ := if id = 1 then ![12, 0, 100, 50] else ![7, 0, 97, 50]

/-- **An edge that has not been computed** is used, although no edge depends on itself. -/
theorem not_laidOut_crossed : Anchored crossed ∧ Solves crossed window crossedEdge ∧
    Fits crossed crossedEdge ∧ getSizes crossed window = .error .uncomputed ∧
      ¬LaidOut crossed window crossedEdge := by
  have huncomputed : getSizes crossed window = .error .uncomputed := rfl
  refine ⟨?_, ?_, ?_, huncomputed, fun hlaid => ?_⟩
  · exact .of_rank ⟨by decide, by decide, by decide⟩
      (fun x => if x = (1, 0) ∨ x = (2, 2) then 1 else 0) (by decide) (by decide)
  · rw [Solves]
    decide
  · rw [Fits]
    decide
  · obtain ⟨out, hrun, -⟩ := hlaid crossed (.refl crossed)
    rw [huncomputed] at hrun
    cases hrun

end Sizes
end UtilWin
