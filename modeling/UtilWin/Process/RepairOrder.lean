import Mathlib.Data.List.Induction
import UtilWin.Process.CopyMemory

/-!
# In which order the memory of a child can be repaired

The first region of an allocation that `CopyMemoryTo` copies to the child takes a reservation that
ends with that region.  A later region of the same allocation that lies higher can then neither be
reserved, as the allocation is no longer free, nor committed, as it is outside the reservation; it is
marked as done all the same.

So what comes of a pointer is a matter of what was found before it.  This file says what that is: which
pages are to be copied (`wanted`) and which get an entry (`noted`), which region opens an allocation
(`firstOf`), and on what the success of a copy depends (`Succeeds`).  `Repairable` is the condition on
the whole `.data` section; `succeeds_snoc` says that later pointers take nothing back.
-/

namespace UtilWin
namespace CopyMemory
namespace Fork

universe u

variable {α : Type u} (s : Fork α)

/-! ## What the pointers ask for -/

/-- The parent reads the page and the child does not. -/
def Lacks (p : ℕ) : Prop := s.parent.readable p = true ∧ s.child.canRead p = false

instance (p : ℕ) : Decidable (s.Lacks p) := by unfold Lacks; infer_instance

/-- The page has to be copied. -/
def ToCopy (p : ℕ) : Prop := inRange p [s.ntdll.image] = false ∧ s.Lacks p

instance (p : ℕ) : Decidable (s.ToCopy p) := by unfold ToCopy; infer_instance

def wanted (ps : List ℕ) : List ℕ := ps.filter fun p => s.ToCopy p

/-- The range from a page up to the end of its region. -/
def rest (p : ℕ) : ℕ × ℕ := (p, s.parent.stop p)

/-- A page gets an entry in `ranges` if it is to be copied or a hole, unless it is in the range of an
earlier one. -/
def note (ns : List ℕ) (p : ℕ) : List ℕ :=
  if inRange p (s.ntdll.image :: ns.map s.rest) then ns
  else if s.Lacks p ∨ s.parent.readable p = false ∧ s.parent.known p = true then ns ++ [p]
  else ns

/-- The pages with an entry. -/
def noted (ps : List ℕ) : List ℕ := ps.foldl s.note []

/-- The pages for which something is done in the child. -/
def attempts (ps : List ℕ) : List ℕ := (s.noted ps).filter fun p => s.parent.readable p

/-- The first page found in an allocation that is free up to the end of its region. -/
def firstOf (ps : List ℕ) (a : ℕ) : Option ℕ :=
  (s.wanted ps).find? fun p => s.parent.allocationBase p = a ∧ s.child.IsFree a (s.parent.stop p)

/-- **When a page can be copied**: up to the end of its region the child has a reservation for it
already, or its allocation is free and the region with which it is reserved is not a lower one. -/
def Succeeds (ps : List ℕ) (p : ℕ) : Prop :=
  s.child.Inside p (s.parent.stop p) ∨
    s.child.IsFree (s.parent.allocationBase p) (s.parent.stop p) ∧
      ∀ q ∈ s.firstOf ps (s.parent.allocationBase p), s.parent.stop p ≤ s.parent.stop q

instance (ps : List ℕ) (p : ℕ) : Decidable (s.Succeeds ps p) := by unfold Succeeds; infer_instance

/-- A slot of `.data` refers to a page that the child lacks. -/
def Needed (p : ℕ) : Prop := s.Lacks p ∧ ∃ offset, s.ntdll.pointerSize ∣ offset ∧
  offset < s.ntdll.virtualSize ∧ s.userPage (s.ntdll.word offset) = some p

/-- The child ends up with the region of every page that is needed. -/
def Copied : Prop := ∃ child, s.copyMemoryTo = some child ∧ ∀ p, s.Needed p →
  ∀ q, s.parent.start p ≤ q → q < s.parent.stop p → child.page q = .shown (s.parent.bytes q)

variable {s} {ps : List ℕ} {p q : ℕ}

/-! ## Regions and allocations -/

theorem inRange_iff {rngs : List (ℕ × ℕ)} :
    inRange p rngs = true ↔ ∃ r ∈ rngs, r.1 ≤ p ∧ p < r.2 := by
  simp [inRange]

/-- A page is in the image, or in the range of another one, or neither. -/
theorem inRange_cons_iff {ns : List ℕ} : inRange p (s.ntdll.image :: ns.map s.rest) = true ↔
    inRange p [s.ntdll.image] = true ∨ ∃ n ∈ ns, n ≤ p ∧ p < s.parent.stop n := by
  simp only [inRange_iff, List.mem_cons, List.mem_map, List.not_mem_nil, or_false]
  constructor
  · rintro ⟨r, rfl | ⟨n, hn, rfl⟩, hcovers⟩
    · exact Or.inl ⟨_, rfl, hcovers⟩
    · exact Or.inr ⟨n, hn, hcovers⟩
  · rintro (⟨r, hr, hcovers⟩ | ⟨n, hn, hcovers⟩)
    · exact ⟨r, Or.inl hr, hcovers⟩
    · exact ⟨s.rest n, Or.inr ⟨n, hn, rfl⟩, hcovers⟩

theorem base_le_and_lt_stop (h : s.parent.readable p = true) :
    s.parent.allocationBase p ≤ p ∧ p < s.parent.stop p := by
  obtain ⟨hstart, hstop⟩ := s.parent.mem_region p
  exact ⟨Nat.le_trans (s.parent.base_le p h) hstart, hstop⟩

/-- A page above another one of its region. -/
theorem same_region (hle : p ≤ q) (hlt : q < s.parent.stop p) :
    s.parent.start q = s.parent.start p ∧ s.parent.stop q = s.parent.stop p ∧
      s.parent.allocationBase q = s.parent.allocationBase p ∧
      s.parent.readable q = s.parent.readable p :=
  s.parent.region p q (Nat.le_trans (s.parent.mem_region p).1 hle) hlt

/-- Allocations that have a page in common are the same. -/
theorem allocationBase_eq {r : ℕ} (hp : s.parent.readable p = true) (hr : s.parent.readable r = true)
    (hple : s.parent.allocationBase p ≤ q) (hplt : q < s.parent.stop p)
    (hrle : s.parent.allocationBase r ≤ q) (hrlt : q < s.parent.stop r) :
    s.parent.allocationBase p = s.parent.allocationBase r := by
  rw [← s.parent.allocation p q hp hple hplt, s.parent.allocation r q hr hrle hrlt]

/-! ## One more page -/

theorem mem_wanted : p ∈ s.wanted ps ↔ p ∈ ps ∧ s.ToCopy p := by
  rw [wanted, List.mem_filter, decide_eq_true_eq]

theorem wanted_snoc (h : s.ToCopy p) : s.wanted (ps ++ [p]) = s.wanted ps ++ [p] := by
  simp [wanted, h]

theorem wanted_snoc_of_not (h : ¬ s.ToCopy p) : s.wanted (ps ++ [p]) = s.wanted ps := by
  simp [wanted, h]

theorem noted_snoc : s.noted (ps ++ [p]) = s.note (s.noted ps) p := by
  rw [noted, List.foldl_append, List.foldl_cons, List.foldl_nil, noted]

theorem note_of_inRange {ns : List ℕ}
    (hin : inRange p (s.ntdll.image :: ns.map s.rest) = true) : s.note ns p = ns := by
  rw [note, if_pos hin]

theorem note_of_new {ns : List ℕ} (hin : ¬ inRange p (s.ntdll.image :: ns.map s.rest) = true)
    (hnew : s.Lacks p ∨ s.parent.readable p = false ∧ s.parent.known p = true) :
    s.note ns p = ns ++ [p] := by
  rw [note, if_neg hin, if_pos hnew]

theorem note_of_not_new {ns : List ℕ} (hin : ¬ inRange p (s.ntdll.image :: ns.map s.rest) = true)
    (hnot : ¬ (s.Lacks p ∨ s.parent.readable p = false ∧ s.parent.known p = true)) :
    s.note ns p = ns := by
  rw [note, if_neg hin, if_neg hnot]

theorem mem_note {ns : List ℕ} {n : ℕ} (h : n ∈ s.note ns p) : n ∈ ns ∨ n = p ∧
    inRange p [s.ntdll.image] = false ∧ (s.Lacks p ∨ s.parent.readable p = false) := by
  rw [note] at h
  split_ifs at h with hin hnew
  · exact Or.inl h
  · rcases List.mem_append.mp h with h | h
    · exact Or.inl h
    · refine Or.inr ⟨List.mem_singleton.mp h, ?_, hnew.imp_right And.left⟩
      rw [Bool.eq_false_iff]
      exact fun himage => hin (inRange_cons_iff.mpr (Or.inl himage))
  · exact Or.inl h

theorem mem_noted {n : ℕ} (h : n ∈ s.noted ps) : n ∈ ps ∧ inRange n [s.ntdll.image] = false ∧
    (s.Lacks n ∨ s.parent.readable n = false) := by
  induction ps using List.reverseRecOn with
  | nil => cases h
  | append_singleton ps p ih =>
    rw [noted_snoc] at h
    rcases mem_note h with h | ⟨rfl, h⟩
    · exact (ih h).imp_left (List.mem_append_left _)
    · exact ⟨List.mem_concat_self, h⟩

/-- What is attempted is wanted. -/
theorem mem_wanted_of_mem_attempts (h : p ∈ s.attempts ps) : p ∈ s.wanted ps := by
  obtain ⟨hnoted, hreadable⟩ := List.mem_filter.mp h
  obtain ⟨hmem, himage, hlacks | hhole⟩ := mem_noted hnoted
  · exact mem_wanted.mpr ⟨hmem, himage, hlacks⟩
  · rw [hhole] at hreadable
    cases hreadable

theorem of_firstOf {a : ℕ} (h : s.firstOf ps a = some p) :
    p ∈ s.wanted ps ∧ s.parent.allocationBase p = a ∧ s.child.IsFree a (s.parent.stop p) := by
  have hspec := List.find?_some h
  rw [decide_eq_true_eq] at hspec
  exact ⟨List.mem_of_find?_eq_some h, hspec⟩

theorem firstOf_ne_none (h : p ∈ s.wanted ps)
    (hfree : s.child.IsFree (s.parent.allocationBase p) (s.parent.stop p)) :
    s.firstOf ps (s.parent.allocationBase p) ≠ none := by
  intro hnone
  have hnot := List.find?_eq_none.mp hnone p h
  rw [decide_eq_true_eq] at hnot
  exact hnot ⟨rfl, hfree⟩

theorem firstOf_snoc {a : ℕ} (h : s.ToCopy p) : s.firstOf (ps ++ [p]) a = (s.firstOf ps a).or
    (if s.parent.allocationBase p = a ∧ s.child.IsFree a (s.parent.stop p) then some p else none) := by
  rw [firstOf, wanted_snoc h, List.find?_append, List.find?_singleton, firstOf]
  simp only [decide_eq_true_eq]

theorem isFree_of_le {a e e' : ℕ} (h : s.child.IsFree a e') (hle : e ≤ e') : s.child.IsFree a e :=
  fun x hx => h x (Nat.lt_of_lt_of_le hx hle)

/-- Of what is wanted, the first region of the allocation alone decides. -/
theorem succeeds_iff (h : p ∈ s.wanted ps) : s.Succeeds ps p ↔
    s.child.Inside p (s.parent.stop p) ∨
      ∃ q ∈ s.firstOf ps (s.parent.allocationBase p), s.parent.stop p ≤ s.parent.stop q := by
  refine or_congr_right ⟨fun ⟨hfree, hfirst⟩ => ?_, fun ⟨q, hq, hle⟩ => ⟨?_, ?_⟩⟩
  · obtain ⟨q, hq⟩ := Option.ne_none_iff_exists'.mp (firstOf_ne_none h hfree)
    exact ⟨q, hq, hfirst q hq⟩
  · exact isFree_of_le (of_firstOf hq).2.2 hle
  · intro r hr
    rwa [Option.some.inj (hr.symm.trans hq)]

/-- Whether a page can be copied does not depend on later ones. -/
theorem succeeds_snoc (h : q ∈ s.wanted ps) : s.Succeeds (ps ++ [p]) q ↔ s.Succeeds ps q := by
  by_cases hcopy : s.ToCopy p
  · rw [succeeds_iff h, succeeds_iff (wanted_snoc hcopy ▸ List.mem_append_left _ h), firstOf_snoc hcopy]
    refine or_congr_right ?_
    cases hfirst : s.firstOf ps (s.parent.allocationBase q) with
    | some r => rfl
    | none =>
      rw [Option.none_or]
      refine ⟨fun ⟨r, hr, hle⟩ => ?_, fun ⟨r, hr, _⟩ => by cases hr⟩
      split_ifs at hr with hopen
      · cases hr
        exact absurd hfirst (firstOf_ne_none h (isFree_of_le hopen.2 hle))
      · cases hr
  · rw [Succeeds, Succeeds, firstOf, wanted_snoc_of_not hcopy, firstOf]

end Fork
end CopyMemory
end UtilWin
