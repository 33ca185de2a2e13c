import UtilWin.Process.RepairOrder

/-!
# What `CopyMemoryTo` repairs

The invariant of the loop (`Repaired`) describes the child by the pages found so far: it has been
given the reservations of the regions that open their allocations, and it reads what it read before
and what was attempted with success.  One page keeps it (`Done.visit`), so all do (`outcome_foldlM`), and
`copied_iff` says exactly when the child has everything in the end.
-/

namespace UtilWin
namespace CopyMemory
namespace Fork

universe u

variable {α : Type u} {s : Fork α} {ps : List ℕ} {p q : ℕ}

/-! ## The invariant -/

variable (s ps) in
/-- The region of the page is the one its allocation is reserved with. -/
def Opens (p : ℕ) : Prop := s.firstOf ps (s.parent.allocationBase p) = some p

variable (s ps) in
/-- **The child after some pages**: which reservations it has, what is free, what it can read, and
what it reads. -/
structure Repaired (child : Space α) : Prop where
  mem_reservations : ∀ r, r ∈ child.reservations ↔ r ∈ s.child.reservations ∨
    ∃ p, s.Opens ps p ∧ r = (s.parent.allocationBase p, s.parent.stop p)
  isFree : ∀ q, (child.page q).isFree = true ↔ (s.child.page q).isFree = true ∧
    ∀ p, s.Opens ps p → ¬ (s.parent.allocationBase p ≤ q ∧ q < s.parent.stop p)
  canRead : ∀ q, child.canRead q = true ↔ s.child.canRead q = true ∨
    ∃ p ∈ s.attempts ps, s.Succeeds ps p ∧ p ≤ q ∧ q < s.parent.stop p
  copied : ∀ p ∈ s.attempts ps, s.Succeeds ps p → ∀ q, p ≤ q → q < s.parent.stop p →
    child.page q = .shown (s.parent.bytes q)
  kept : ∀ q, s.child.page q = .shown (s.parent.bytes q) → child.page q = .shown (s.parent.bytes q)
  untouched : ∀ q, (∀ p ∈ s.attempts ps, ¬ (p ≤ q ∧ q < s.parent.stop p)) →
    ∀ x, child.page q = .shown x ↔ s.child.page q = .shown x

/-- A page that asks for nothing new changes nothing. -/
theorem Repaired.congr {ps' : List ℕ} {child : Space α} (h : s.Repaired ps child)
    (hfirst : s.firstOf ps' = s.firstOf ps) (hattempts : s.attempts ps' = s.attempts ps) :
    s.Repaired ps' child := by
  have hopens : s.Opens ps' = s.Opens ps := by
    funext p
    rw [Opens, Opens, hfirst]
  have hsucceeds : s.Succeeds ps' = s.Succeeds ps := by
    funext p
    rw [Succeeds, Succeeds, hfirst]
  constructor
  · rw [hopens]
    exact h.mem_reservations
  · rw [hopens]
    exact h.isFree
  · rw [hattempts, hsucceeds]
    exact h.canRead
  · rw [hattempts, hsucceeds]
    exact h.copied
  · exact h.kept
  · rw [hattempts]
    exact h.untouched

theorem opens_snoc (h : s.ToCopy p) : s.Opens (ps ++ [p]) q ↔ s.Opens ps q ∨
    q = p ∧ s.firstOf ps (s.parent.allocationBase p) = none ∧
      s.child.IsFree (s.parent.allocationBase p) (s.parent.stop p) := by
  rw [Opens, Opens, firstOf_snoc h]
  constructor
  · intro hq
    rcases Option.or_eq_some_iff.mp hq with hq | ⟨hnone, hq⟩
    · exact Or.inl hq
    · split_ifs at hq with hopen
      · cases hq
        exact Or.inr ⟨rfl, hnone, hopen.2⟩
  · rintro (hq | ⟨rfl, hnone, hfree⟩)
    · rw [hq, Option.some_or]
    · rw [hnone, Option.none_or, if_pos ⟨rfl, hfree⟩]

namespace Repaired

variable {child : Space α}

/-- The allocation of a page is free as long as no region of it has been reserved. -/
theorem isFree_iff (h : s.Repaired ps child) (hp : s.parent.readable p = true) :
    child.IsFree (s.parent.allocationBase p) (s.parent.stop p) ↔
      s.firstOf ps (s.parent.allocationBase p) = none ∧
        s.child.IsFree (s.parent.allocationBase p) (s.parent.stop p) := by
  obtain ⟨hbase, hstop⟩ := base_le_and_lt_stop hp
  constructor
  · intro hfree
    refine ⟨?_, fun x hx hle => ((h.isFree x).mp (hfree x hx hle)).1⟩
    by_contra hne
    obtain ⟨r, hr⟩ := Option.ne_none_iff_exists'.mp hne
    obtain ⟨hwanted, halloc, -⟩ := of_firstOf hr
    obtain ⟨hrbase, hrstop⟩ := base_le_and_lt_stop (mem_wanted.mp hwanted).2.2.1
    have hnot := ((h.isFree _).mp (hfree (s.parent.allocationBase p) (by omega) (Nat.le_refl _))).2
    exact hnot r (by rw [Opens, halloc, hr]) ⟨by omega, by omega⟩
  · rintro ⟨hnone, hfree⟩ x hx hle
    refine (h.isFree x).mpr ⟨hfree x hx hle, fun r hr ⟨hrle, hrlt⟩ => ?_⟩
    have hreadable := (mem_wanted.mp (of_firstOf hr).1).2.2.1
    have heq := allocationBase_eq hp hreadable hle hx hrle hrlt
    rw [Opens, ← heq, hnone] at hr
    cases hr

/-- A page lies inside a reservation if it did before or its allocation has been reserved with a
region that is not a lower one. -/
theorem inside_iff (h : s.Repaired ps child) (hp : s.parent.readable p = true) :
    child.Inside p (s.parent.stop p) ↔ s.child.Inside p (s.parent.stop p) ∨
      ∃ q ∈ s.firstOf ps (s.parent.allocationBase p), s.parent.stop p ≤ s.parent.stop q := by
  obtain ⟨hbase, hstop⟩ := base_le_and_lt_stop hp
  constructor
  · rintro ⟨r, hr, hle, hlt⟩
    rcases (h.mem_reservations r).mp hr with hr | ⟨q, hq, rfl⟩
    · exact Or.inl ⟨r, hr, hle, hlt⟩
    · have hreadable := (mem_wanted.mp (of_firstOf hq).1).2.2.1
      have heq := allocationBase_eq (q := p) hp hreadable hbase hstop hle (by omega)
      rw [Opens, ← heq] at hq
      exact Or.inr ⟨q, hq, hlt⟩
  · rintro (⟨r, hr, hle, hlt⟩ | ⟨q, hq, hle⟩)
    · exact ⟨r, (h.mem_reservations r).mpr (Or.inl hr), hle, hlt⟩
    · have halloc := (of_firstOf hq).2.1
      refine ⟨_, (h.mem_reservations _).mpr (Or.inr ⟨q, ?_, rfl⟩), ?_, hle⟩
      · rw [Opens, halloc, hq]
      · rw [halloc]
        exact hbase

/-- **What comes of copying a page** was decided by what had been found. -/
theorem inside_reserve_iff (h : s.Repaired ps child) (hp : s.ToCopy p) :
    (child.reserve (s.parent.allocationBase p) (s.parent.stop p)).Inside p (s.parent.stop p) ↔
      s.Succeeds (ps ++ [p]) p := by
  have hmem : p ∈ s.wanted (ps ++ [p]) := by
    rw [wanted_snoc hp]
    exact List.mem_concat_self
  rw [Space.inside_reserve (base_le_and_lt_stop hp.2.1).1, h.isFree_iff hp.2.1, h.inside_iff hp.2.1,
    succeeds_iff hmem, firstOf_snoc hp]
  cases hfirst : s.firstOf ps (s.parent.allocationBase p) with
  | some r => simp
  | none =>
    by_cases hfree : s.child.IsFree (s.parent.allocationBase p) (s.parent.stop p)
    · simp [hfree]
    · simp [hfree]

theorem copyRegion_eq (hp : s.parent.readable p = true) : s.copyRegion child p =
    child.restore (s.parent.allocationBase p) p (s.parent.stop p) s.zero s.parent.bytes := by
  rw [Fork.copyRegion, Nat.div_mul_cancel (s.parent.base_dvd p hp)]

theorem mem_reservations_copyRegion (h : s.Repaired ps child) (hp : s.ToCopy p) (r : ℕ × ℕ) :
    r ∈ (s.copyRegion child p).reservations ↔ r ∈ s.child.reservations ∨
      ∃ q, s.Opens (ps ++ [p]) q ∧ r = (s.parent.allocationBase q, s.parent.stop q) := by
  rw [copyRegion_eq hp.2.1, Space.reservations_restore, Space.mem_reservations_reserve,
    h.isFree_iff hp.2.1, h.mem_reservations]
  simp only [opens_snoc hp]
  constructor
  · rintro (⟨hnew, rfl⟩ | hr | ⟨q, hq, rfl⟩)
    · exact Or.inr ⟨p, Or.inr ⟨rfl, hnew⟩, rfl⟩
    · exact Or.inl hr
    · exact Or.inr ⟨q, Or.inl hq, rfl⟩
  · rintro (hr | ⟨q, hq | ⟨rfl, hnew⟩, rfl⟩)
    · exact Or.inr (Or.inl hr)
    · exact Or.inr (Or.inr ⟨q, hq, rfl⟩)
    · exact Or.inl ⟨hnew, rfl⟩

theorem isFree_copyRegion (h : s.Repaired ps child) (hp : s.ToCopy p) (q : ℕ) :
    ((s.copyRegion child p).page q).isFree = true ↔ (s.child.page q).isFree = true ∧
      ∀ r, s.Opens (ps ++ [p]) r → ¬ (s.parent.allocationBase r ≤ q ∧ q < s.parent.stop r) := by
  rw [copyRegion_eq hp.2.1, Space.isFree_page_restore, h.isFree_iff hp.2.1, h.isFree]
  simp only [opens_snoc hp]
  constructor
  · rintro ⟨⟨hq, hold⟩, hnot⟩
    refine ⟨hq, ?_⟩
    rintro r (hr | ⟨rfl, hnew⟩)
    · exact hold r hr
    · exact fun hmem => hnot ⟨hnew, hmem⟩
  · rintro ⟨hq, hnot⟩
    refine ⟨⟨hq, fun r hr => hnot r (Or.inl hr)⟩, ?_⟩
    rintro ⟨hnew, hmem⟩
    exact hnot p (Or.inr ⟨rfl, hnew⟩) hmem

/-- **One more page is copied**, or cannot be. -/
theorem copyRegion (h : s.Repaired ps child) (hp : s.ToCopy p)
    (hattempts : s.attempts (ps ++ [p]) = s.attempts ps ++ [p]) :
    s.Repaired (ps ++ [p]) (s.copyRegion child p) := by
  have hinside := h.inside_reserve_iff hp
  have hcopied : ∀ n ∈ s.attempts ps, s.Succeeds (ps ++ [p]) n ↔ s.Succeeds ps n := fun n hn =>
    succeeds_snoc (mem_wanted_of_mem_attempts hn)
  refine ⟨h.mem_reservations_copyRegion hp, h.isFree_copyRegion hp, ?_, ?_, ?_, ?_⟩
  all_goals rw [copyRegion_eq hp.2.1]
  · intro q
    rw [Space.canRead_restore, hinside, h.canRead, hattempts]
    constructor
    · rintro ((hq | ⟨n, hn, hsucceeds, hmem⟩) | hq)
      · exact Or.inl hq
      · exact Or.inr ⟨n, List.mem_append_left _ hn, (hcopied n hn).mpr hsucceeds, hmem⟩
      · exact Or.inr ⟨p, List.mem_concat_self, hq⟩
    · rintro (hq | ⟨n, hn, hsucceeds, hmem⟩)
      · exact Or.inl (Or.inl hq)
      · rcases List.mem_append.mp hn with hn | hn
        · exact Or.inl (Or.inr ⟨n, hn, (hcopied n hn).mp hsucceeds, hmem⟩)
        · rw [List.mem_singleton.mp hn] at hsucceeds hmem
          exact Or.inr ⟨hsucceeds, hmem⟩
  · intro n hn hsucceeds q hle hlt
    rw [hattempts] at hn
    rcases List.mem_append.mp hn with hn | hn
    · exact Space.page_restore_of_shown (h.copied n hn ((hcopied n hn).mp hsucceeds) q hle hlt)
    · rw [List.mem_singleton.mp hn] at hsucceeds hle hlt
      exact Space.page_restore (hinside.mpr hsucceeds) hle hlt
  · exact fun q hq => Space.page_restore_of_shown (h.kept q hq)
  · intro q hq x
    rw [hattempts] at hq
    rw [Space.page_restore_of_notMem (hq p List.mem_concat_self),
      h.untouched q (fun n hn => hq n (List.mem_append_left _ hn)) x]

end Repaired

/-! ## The loop -/

/-- An earlier region of the allocation stands for the page, or the page is not to be copied. -/
theorem firstOf_snoc_of (h : s.ToCopy p → ∃ n ∈ s.attempts ps, n ≤ p ∧ p < s.parent.stop n) :
    s.firstOf (ps ++ [p]) = s.firstOf ps := by
  by_cases hcopy : s.ToCopy p
  · obtain ⟨n, hn, hle, hlt⟩ := h hcopy
    obtain ⟨-, hstop, hbase, -⟩ := same_region hle hlt
    funext a
    rw [firstOf_snoc hcopy]
    split_ifs with hopen
    · obtain ⟨rfl, hfree⟩ := hopen
      rw [hbase, hstop] at hfree
      have hne := firstOf_ne_none (mem_wanted_of_mem_attempts hn) hfree
      rw [hbase]
      cases hfirst : s.firstOf ps (s.parent.allocationBase n) with
      | none => exact absurd hfirst hne
      | some r => rfl
    · exact Option.or_none
  · funext a
    rw [firstOf, wanted_snoc_of_not hcopy, firstOf]

variable (s ps) in
/-- The state of the loop after some pages. -/
structure Done (st : Progress α) : Prop where
  repaired : s.Repaired ps st.child
  ranges : st.ranges = s.ntdll.image :: (s.noted ps).map s.rest

variable (s ps) in
/-- What the loop may come to: a state like that, or there was no room for the ranges. -/
structure Outcome (result : Option (Progress α)) : Prop where
  done : ∀ st, result = some st → s.Done ps st
  full : result = none → 1024 < 1 + (s.noted ps).length

theorem outcome_some {st : Progress α} (h : s.Done ps st) : s.Outcome ps (some st) where
  done st' hst := by
    obtain rfl := Option.some.inj hst
    exact h
  full hst := by cases hst

theorem outcome_none (h : 1024 < 1 + (s.noted ps).length) : s.Outcome ps none where
  done st hst := by cases hst
  full _ := h

theorem attempts_snoc : s.attempts (ps ++ [p]) =
    (s.note (s.noted ps) p).filter fun p => s.parent.readable p := by
  rw [attempts, noted_snoc]

namespace Done

variable {st : Progress α}

/-- Nothing is noted. -/
theorem skip (h : s.Done ps st) (hnote : s.note (s.noted ps) p = s.noted ps)
    (hcopy : s.ToCopy p → ∃ n ∈ s.attempts ps, n ≤ p ∧ p < s.parent.stop n) :
    s.Outcome (ps ++ [p]) (some st) := by
  refine outcome_some ⟨h.repaired.congr (firstOf_snoc_of hcopy) ?_, ?_⟩
  · rw [attempts_snoc, hnote, attempts]
  · rw [noted_snoc, hnote, h.ranges]

/-- The page is noted, if there is room. -/
theorem addRange {child : Space α} (h : s.Done ps st)
    (hnote : s.note (s.noted ps) p = s.noted ps ++ [p])
    (hrepaired : s.Repaired (ps ++ [p]) child) :
    s.Outcome (ps ++ [p]) (Progress.addRange ⟨child, st.ranges⟩ (s.rest p)) := by
  have hlength : (s.noted (ps ++ [p])).length = st.ranges.length := by
    rw [noted_snoc, hnote, h.ranges, List.length_append, List.length_singleton, List.length_cons,
      List.length_map]
  rw [Progress.addRange]
  split_ifs with hroom
  · refine outcome_some ⟨hrepaired, ?_⟩
    rw [noted_snoc, hnote, h.ranges, List.map_append, List.map_singleton, List.cons_append]
  · refine outcome_none ?_
    rw [hlength, Nat.add_comm]
    exact Nat.lt_succ_of_le (Nat.not_lt.mp hroom)

/-- A page in one of the ranges is passed over. -/
theorem visit_covered (h : s.Done ps st)
    (hin : inRange p (s.ntdll.image :: (s.noted ps).map s.rest) = true) :
    s.Outcome (ps ++ [p]) (some st) := by
  refine h.skip (note_of_inRange hin) fun hcopy => ?_
  rcases inRange_cons_iff.mp hin with himage | ⟨n, hn, hle, hlt⟩
  · rw [hcopy.1] at himage
    cases himage
  · have hreadable := (same_region hle hlt).2.2.2
    rw [hcopy.2.1] at hreadable
    exact ⟨n, List.mem_filter.mpr ⟨hn, hreadable.symm⟩, hle, hlt⟩

/-- Of a page in none of the ranges the child reads what it read at first. -/
theorem canRead_eq (h : s.Done ps st)
    (hin : ¬ inRange p (s.ntdll.image :: (s.noted ps).map s.rest) = true) :
    st.child.canRead p = s.child.canRead p := by
  have hfar : ∀ n ∈ s.attempts ps, ¬ (n ≤ p ∧ p < s.parent.stop n) := fun n hn hmem =>
    hin (inRange_cons_iff.mpr (Or.inr ⟨n, (List.mem_filter.mp hn).1, hmem⟩))
  rw [Bool.eq_iff_iff, Space.canRead_iff, Space.canRead_iff]
  exact exists_congr (h.repaired.untouched p hfar)

/-- A page that the child lacks is copied. -/
theorem visit_lacks (h : s.Done ps st)
    (hin : ¬ inRange p (s.ntdll.image :: (s.noted ps).map s.rest) = true) (hlacks : s.Lacks p) :
    s.Outcome (ps ++ [p])
      (Progress.addRange ⟨s.copyRegion st.child p, st.ranges⟩ (s.rest p)) := by
  have hcopy : s.ToCopy p := by
    refine ⟨Bool.eq_false_iff.mpr fun himage => ?_, hlacks⟩
    exact hin (inRange_cons_iff.mpr (Or.inl himage))
  have hnote := note_of_new hin (Or.inl hlacks)
  refine h.addRange hnote (h.repaired.copyRegion hcopy ?_)
  rw [attempts_snoc, hnote, List.filter_append, attempts, List.filter_cons_of_pos hlacks.1,
    List.filter_nil]

/-- A hole is marked. -/
theorem visit_hole (h : s.Done ps st)
    (hin : ¬ inRange p (s.ntdll.image :: (s.noted ps).map s.rest) = true)
    (hreadable : s.parent.readable p = false) (hknown : s.parent.known p = true) :
    s.Outcome (ps ++ [p]) (st.addRange (s.rest p)) := by
  have hnot : ¬ s.parent.readable p = true := Bool.eq_false_iff.mp hreadable
  have hnote := note_of_new hin (Or.inr ⟨hreadable, hknown⟩)
  refine h.addRange hnote (h.repaired.congr ?_ ?_)
  · exact firstOf_snoc_of fun hcopy => absurd hcopy.2.1 hnot
  · rw [attempts_snoc, hnote, List.filter_append, attempts, List.filter_cons_of_neg hnot,
      List.filter_nil, List.append_nil]

/-- Other pages outside the ranges are passed over, too. -/
theorem visit_other (h : s.Done ps st)
    (hin : ¬ inRange p (s.ntdll.image :: (s.noted ps).map s.rest) = true)
    (hnot : ¬ (s.Lacks p ∨ s.parent.readable p = false ∧ s.parent.known p = true)) :
    s.Outcome (ps ++ [p]) (some st) :=
  h.skip (note_of_not_new hin hnot) fun hcopy => absurd (Or.inl hcopy.2) hnot

/-- **One page of the loop.** -/
theorem visit (h : s.Done ps st) : s.Outcome (ps ++ [p]) (s.visit st p) := by
  rw [Fork.visit]
  by_cases hin : inRange p (s.ntdll.image :: (s.noted ps).map s.rest) = true
  · rw [h.ranges, if_pos hin]
    exact h.visit_covered hin
  · rw [h.canRead_eq hin, if_neg (by rwa [h.ranges])]
    split_ifs with hhole hknown hread hknown
    · exact h.visit_hole hin hhole hknown
    · refine h.visit_other hin ?_
      rintro (hlacks | hmarked)
      · exact Bool.eq_false_iff.mp hhole hlacks.1
      · exact hknown hmarked.2
    · exact h.visit_lacks hin ⟨eq_true_of_ne_false hhole, hread⟩
    · exact absurd (s.parent.known_of_readable p (eq_true_of_ne_false hhole)) hknown
    · refine h.visit_other hin ?_
      rintro (hlacks | hmarked)
      · exact hread hlacks.2
      · exact hhole hmarked.1

end Done

end Fork

/-! ## Two regions of one allocation -/

end CopyMemory
end UtilWin
