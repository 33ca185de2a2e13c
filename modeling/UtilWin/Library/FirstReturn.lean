import Mathlib.Logic.Relation
import Mathlib.Order.WellFounded
import Mathlib.Order.RelClasses

/-!
# Ways back in a labelled graph

`R a e b` says that an edge with the label `e` leads from `a` to `b`.  Where there is a cycle and the
labels are well ordered, some node is left by an edge and come back to, for the first time, by an edge
whose label is not smaller: take an edge with the smallest label that lies on a cycle.  There is no
cycle where every edge leads down (`not_transGen_self`).
-/

namespace UtilWin

universe u v

variable {N : Type u} {L : Type v} {R : N → L → N → Prop}

open Relation

/-- Some edge. -/
def Edge (R : N → L → N → Prop) (a b : N) : Prop := ∃ e, R a e b

/-- Some edge that does not lead to `i`. -/
def EdgeAvoiding (R : N → L → N → Prop) (i a b : N) : Prop := Edge R a b ∧ b ≠ i

/-- A way to another node is a way that avoids it, and one more edge. -/
theorem exists_last_edge {i j : N} (h : ReflTransGen (Edge R) j i) (hne : j ≠ i) :
    ∃ k, ReflTransGen (EdgeAvoiding R i) j k ∧ Edge R k i := by
  induction h using ReflTransGen.head_induction_on with
  | refl => exact absurd rfl hne
  | @head a c hac hci ih =>
    by_cases hc : c = i
    · subst hc
      exact ⟨a, .refl, hac⟩
    · obtain ⟨k, hpath, hlast⟩ := ih hc
      exact ⟨k, .head ⟨hac, hc⟩ hpath, hlast⟩

theorem reflTransGen_of_avoiding {i j k : N} (h : ReflTransGen (EdgeAvoiding R i) j k) :
    ReflTransGen (Edge R) j k := h.lift id fun _ _ hstep => hstep.1

/-- **The way back**: on a cycle there is a node that is left by `e` and first come back to by `e'`,
and `e'` is not smaller than `e`. -/
theorem exists_return [LinearOrder L] [WellFoundedLT L] (hloop : ∀ a e, ¬R a e a) {a : N}
    (h : TransGen (Edge R) a a) :
    ∃ i e j k e', R i e j ∧ ReflTransGen (EdgeAvoiding R i) j k ∧ R k e' i ∧ e ≤ e' := by
  have hcyclic : ∃ e i j, R i e j ∧ ReflTransGen (Edge R) j i := by
    obtain ⟨b, ⟨e, hab⟩, hba⟩ := TransGen.head'_iff.mp h
    exact ⟨e, a, b, hab, hba⟩
  -- an edge on a cycle with the smallest label
  obtain ⟨e, ⟨i, j, hij, hji⟩, hmin⟩ := WellFounded.has_min (wellFounded_lt (α := L))
    {e | ∃ i j, R i e j ∧ ReflTransGen (Edge R) j i} hcyclic
  have hne : j ≠ i := by
    rintro rfl
    exact hloop j e hij
  obtain ⟨k, hpath, e', hki⟩ := exists_last_edge hji hne
  refine ⟨i, e, j, k, e', hij, hpath, hki, ?_⟩
  -- the last edge of the way back lies on the same cycle
  exact le_of_not_gt (hmin e' ⟨k, i, hki, .head ⟨e, hij⟩ (reflTransGen_of_avoiding hpath)⟩)

/-- Where every step leads down there is no way back. -/
theorem not_transGen_self {S : N → N → Prop} (f : N → ℕ) (h : ∀ a b, S a b → f b < f a) (a : N) :
    ¬TransGen S a a := by
  intro hcycle
  have hlt : TransGen (fun m n : ℕ => m > n) (f a) (f a) := hcycle.lift f h
  rw [transGen_eq_self] at hlt
  exact lt_irrefl _ hlt

end UtilWin
