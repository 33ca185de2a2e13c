import Mathlib.Data.Nat.Notation

/-!
# Binary search

`lowerBound p first count` looks for the end of the cells that satisfy `p` among `count` cells from
`first` on, by halving.  If these cells come first (`Partitioned`), then that is what it finds
(`lowerBound_spec`).
-/

namespace UtilWin

/-- The loop of `std::lower_bound`, over the cells from `first` up to `first + count`. -/
def lowerBound (p : ℕ → Bool) (first count : ℕ) : ℕ :=
  if _h : 0 < count then
    let half := count / 2
    if p (first + half) then lowerBound p (first + half + 1) (count - (half + 1))
    else lowerBound p first half
  else first
termination_by count
decreasing_by all_goals omega

/-- In front of a cell that satisfies `p` are only cells that do. -/
def Partitioned (p : ℕ → Bool) (n : ℕ) : Prop :=
  ∀ i j, i ≤ j → j < n → p j = true → p i = true

/-- **What a binary search finds**: everything in front satisfies `p`, and nothing from there on. -/
theorem lowerBound_spec {p : ℕ → Bool} {n : ℕ} (hp : Partitioned p n) (first count : ℕ)
    (hn : first + count ≤ n) (hfront : ∀ i < first, p i = true)
    (hback : ∀ i, first + count ≤ i → i < n → p i = false) :
    lowerBound p first count ≤ n ∧ (∀ i < lowerBound p first count, p i = true) ∧
      ∀ i, lowerBound p first count ≤ i → i < n → p i = false := by
  fun_induction lowerBound p first count with
  | case1 first count hpos half hhalf ih =>
    refine ih (by omega) (fun i hi => ?_) (fun i hi => hback i (by omega))
    exact hp i (first + half) (by omega) (by omega) hhalf
  | case2 first count hpos half hhalf ih =>
    refine ih (by omega) hfront fun i hi hin => Bool.eq_false_iff.mpr fun hi' => ?_
    exact hhalf (hp (first + half) i hi hin hi')
  | case3 first count hzero =>
    obtain rfl : count = 0 := by omega
    exact ⟨hn, hfront, hback⟩

end UtilWin
