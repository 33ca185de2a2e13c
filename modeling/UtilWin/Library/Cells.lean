import Mathlib.Data.List.Nodup
import Mathlib.Logic.Function.Basic

/-!
# Rewriting cells one at a time

A memory is a function from addresses to contents.  `rewriteCells g w l` goes through the addresses of
`l`, replaces what each cell holds by `g` of it, and adds up the weights `w` of what was there.  When
no address comes twice the cells do not see each other:

* `rewriteCells_of_mem`, `rewriteCells_of_notMem`: each cell of the list is rewritten from what it
  held at the start, and no other cell changes;
* `rewriteCells_count`: if `w` is at least `1` where `p` holds, the total is at least the number of
  cells where `p` holds, and it is that number exactly when no cell weighs more than it must.
-/

namespace UtilWin

universe u v

variable {α : Type u} {β : Type v} [DecidableEq α]

/-- One cell. -/
def rewriteCell (g : β → β) (w : β → ℕ) (s : (α → β) × ℕ) (a : α) : (α → β) × ℕ :=
  (Function.update s.1 a (g (s.1 a)), s.2 + w (s.1 a))

/-- The cells of a list. -/
def rewriteCells (g : β → β) (w : β → ℕ) (l : List α) (s : (α → β) × ℕ) : (α → β) × ℕ :=
  l.foldl (rewriteCell g w) s

variable {g : β → β} {w : β → ℕ} {l : List α} {s : (α → β) × ℕ} {a : α}

theorem rewriteCells_cons (g : β → β) (w : β → ℕ) (a : α) (l : List α) (s : (α → β) × ℕ) :
    rewriteCells g w (a :: l) s = rewriteCells g w l (rewriteCell g w s a) := rfl

theorem rewriteCells_append (g : β → β) (w : β → ℕ) (l l' : List α) (s : (α → β) × ℕ) :
    rewriteCells g w (l ++ l') s = rewriteCells g w l' (rewriteCells g w l s) :=
  List.foldl_append

/-- A cell that is not in the list keeps what it holds. -/
theorem rewriteCells_of_notMem (h : a ∉ l) : (rewriteCells g w l s).1 a = s.1 a := by
  induction l generalizing s with
  | nil => rfl
  | cons b l ih =>
    rw [List.mem_cons, not_or] at h
    rw [rewriteCells_cons, ih h.2, rewriteCell]
    exact Function.update_of_ne h.1 _ _

/-- **A cell of the list is rewritten from what it held at the start.** -/
theorem rewriteCells_of_mem (hnodup : l.Nodup) (h : a ∈ l) :
    (rewriteCells g w l s).1 a = g (s.1 a) := by
  induction l generalizing s with
  | nil => exact absurd h List.not_mem_nil
  | cons b l ih =>
    rw [List.nodup_cons] at hnodup
    rw [rewriteCells_cons]
    rcases List.mem_cons.mp h with rfl | hmem
    · rw [rewriteCells_of_notMem hnodup.1, rewriteCell]
      exact Function.update_self _ _ _
    · rw [ih hnodup.2 hmem, rewriteCell]
      have hne : a ≠ b := by
        rintro rfl
        exact hnodup.1 hmem
      exact congrArg g (Function.update_of_ne hne _ _)

/-- **The total against a count.** -/
theorem rewriteCells_count (p : β → Prop) [DecidablePred p] (hw : ∀ x, p x → 1 ≤ w x)
    (hnodup : l.Nodup) :
    s.2 + l.countP (p <| s.1 ·) ≤ (rewriteCells g w l s).2 ∧
      ((rewriteCells g w l s).2 = s.2 + l.countP (p <| s.1 ·) ↔
        ∀ a ∈ l, w (s.1 a) = if p (s.1 a) then 1 else 0) := by
  induction l generalizing s with
  | nil =>
    refine ⟨Nat.le_refl _, ?_⟩
    simp only [rewriteCells, List.foldl_nil, List.countP_nil, Nat.add_zero, List.not_mem_nil,
      false_imp_iff, implies_true]
  | cons b l ih =>
    rw [List.nodup_cons] at hnodup
    obtain ⟨hle, hiff⟩ := ih (s := rewriteCell g w s b) hnodup.2
    -- the other cells still hold what they held
    have hsame : ∀ a ∈ l, (rewriteCell g w s b).1 a = s.1 a := by
      intro a ha
      refine Function.update_of_ne ?_ _ _
      rintro rfl
      exact hnodup.1 ha
    have hcount : l.countP (p <| (rewriteCell g w s b).1 ·) = l.countP (p <| s.1 ·) := by
      refine List.countP_congr fun a ha => ?_
      rw [hsame a ha]
    have hrest : (∀ a ∈ l, w ((rewriteCell g w s b).1 a) =
        if p ((rewriteCell g w s b).1 a) then 1 else 0) ↔
        ∀ a ∈ l, w (s.1 a) = if p (s.1 a) then 1 else 0 := by
      refine forall₂_congr fun a ha => ?_
      rw [hsame a ha]
    have hsnd : (rewriteCell g w s b).2 = s.2 + w (s.1 b) := rfl
    rw [hcount, hsnd] at hle hiff
    rw [hrest] at hiff
    have hb : (if p (s.1 b) then 1 else 0) ≤ w (s.1 b) := by
      split_ifs with hp
      · exact hw _ hp
      · exact Nat.zero_le _
    rw [rewriteCells_cons, List.countP_cons, List.forall_mem_cons, ← hiff]
    simp only [decide_eq_true_eq]
    constructor
    · omega
    · constructor
      · intro h
        constructor <;> omega
      · rintro ⟨h1, h2⟩
        omega

end UtilWin
