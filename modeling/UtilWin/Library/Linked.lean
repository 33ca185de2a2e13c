import Mathlib.Data.List.Basic
import Mathlib.Data.List.Nodup

/-!
# Linked lists in a heap

A heap of cells is seen here only through its links: `next a` is `none` where there is no cell,
`some none` at a cell that links to nothing, and `some (some b)` at a cell that links to `b`.
`Linked next p l` says that following the links from the pointer `p` meets exactly the cells `l` and
then ends.

* `Linked.walk_eq`: the loop that goes to the last cell finds it.
* `Linked.snoc`: hanging a new cell behind the last one makes the list one longer.
* `Linked.congr`: only the links of the cells of the list matter.
-/

namespace UtilWin

universe u

variable {A : Type u} {next next' : A → Option (Option A)} {p : Option A} {l : List A}

/-- From the pointer `p` the links lead through exactly the cells `l`. -/
def Linked (next : A → Option (Option A)) : Option A → List A → Prop
  | p, [] => p = none
  | p, a :: l => p = some a ∧ ∃ q, next a = some q ∧ Linked next q l

/-- `while (p->next) p = p->next`, in at most `fuel` turns: `none` if it leaves the heap or does not
end. -/
def walk (next : A → Option (Option A)) : ℕ → A → Option A
  | 0, a =>
    match next a with
    | some none => some a
    | _ => none
  | fuel + 1, a =>
    match next a with
    | none => none
    | some none => some a
    | some (some b) => walk next fuel b

/-- **The last cell is found.** -/
theorem Linked.walk_eq {a z : A} {fuel : ℕ} (h : Linked next (some a) l)
    (hz : l.getLast? = some z) (hfuel : l.length ≤ fuel + 1) : walk next fuel a = some z := by
  induction l generalizing a fuel with
  | nil => cases hz
  | cons b l ih =>
    obtain ⟨hb, q, hq, hl⟩ := h
    cases hb
    cases l with
    | nil =>
      cases hl
      cases hz
      cases fuel <;> (simp only [walk, hq]; rfl)
    | cons c l =>
      have hc : q = some c := hl.1
      subst hc
      cases fuel with
      | zero => simp only [List.length_cons] at hfuel; omega
      | succ fuel =>
        simp only [walk, hq]
        refine ih hl (by rwa [List.getLast?_cons_cons] at hz) ?_
        simp only [List.length_cons] at hfuel ⊢
        omega

theorem Linked.congr (h : Linked next p l) (heq : ∀ a ∈ l, next' a = next a) :
    Linked next' p l := by
  induction l generalizing p with
  | nil => exact h
  | cons a l ih =>
    obtain ⟨ha, q, hq, hl⟩ := h
    refine ⟨ha, q, ?_, ih hl fun b hb => heq b (List.mem_cons_of_mem _ hb)⟩
    rw [heq a (List.mem_cons_self ..), hq]

/-- **A new last cell.** -/
theorem Linked.snoc {z c : A} (h : Linked next p l) (hnodup : l.Nodup)
    (hz : l.getLast? = some z) (hlink : next' z = some (some c)) (hc : next' c = some none)
    (heq : ∀ a ∈ l, a ≠ z → next' a = next a) : Linked next' p (l ++ [c]) := by
  induction l generalizing p with
  | nil => cases hz
  | cons a l ih =>
    obtain ⟨ha, q, hq, hl⟩ := h
    cases l with
    | nil =>
      cases hz
      exact ⟨ha, some c, hlink, rfl, none, hc, rfl⟩
    | cons b l =>
      rw [List.getLast?_cons_cons] at hz
      have hne : a ≠ z := by
        rintro rfl
        exact (List.nodup_cons.mp hnodup).1 (List.mem_of_getLast? hz)
      refine ⟨ha, q, ?_, ?_⟩
      · rw [heq a (List.mem_cons_self ..) hne, hq]
      · exact ih hl (List.nodup_cons.mp hnodup).2 hz fun x hx => heq x (List.mem_cons_of_mem _ hx)

/-- Every cell of the list is in the heap. -/
theorem Linked.isSome (h : Linked next p l) {a : A} (ha : a ∈ l) : ∃ q, next a = some q := by
  induction l generalizing p with
  | nil => cases ha
  | cons b l ih =>
    obtain ⟨-, q, hq, hl⟩ := h
    rcases List.mem_cons.mp ha with rfl | ha
    · exact ⟨q, hq⟩
    · exact ih hl ha

end UtilWin
