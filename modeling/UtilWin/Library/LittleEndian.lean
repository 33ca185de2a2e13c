import Mathlib.Algebra.Group.Nat.Defs
import Mathlib.Data.UInt

/-!
# Little-endian words

A memory is a function from addresses to bytes.  `leWord b off k` is the number in the `k` bytes from
`off` on, the lowest byte first, and `leByte w j` is the byte `j` of a number.

* `leByte_leWord`: the bytes of a word are those it was read from;
* `leWord_of_leByte`: a word read from the bytes of a number is that number;
* `leStore`: a memory with a word written into it.
-/

namespace UtilWin

variable {b b' : ℕ → UInt8} {off off' k : ℕ}

/-- The word in `k` bytes. -/
def leWord (b : ℕ → UInt8) (off : ℕ) : ℕ → ℕ
  | 0 => 0
  | k + 1 => (b off).toNat + 256 * leWord b (off + 1) k

/-- The byte `j` of a number. -/
def leByte (w j : ℕ) : UInt8 := UInt8.ofNat (w / 256 ^ j)

/-- A memory with a word written into it. -/
def leStore (b : ℕ → UInt8) (off k w : ℕ) : ℕ → UInt8 := fun p =>
  if off ≤ p ∧ p < off + k then leByte w (p - off) else b p

theorem leWord_lt (b : ℕ → UInt8) (off k : ℕ) : leWord b off k < 256 ^ k := by
  induction k generalizing off with
  | zero => exact Nat.one_pos
  | succ k ih =>
    have hb := (b off).toNat_lt
    have htail := ih (off + 1)
    rw [leWord, Nat.pow_succ]
    omega

/-- A word depends on its bytes only. -/
theorem leWord_congr (h : ∀ j < k, b (off + j) = b' (off' + j)) : leWord b off k = leWord b' off' k := by
  induction k generalizing off off' with
  | zero => rfl
  | succ k ih =>
    rw [leWord, leWord, ih fun j hj => ?_]
    · rw [show b off = b' off' from h 0 (Nat.succ_pos k)]
    · rw [Nat.add_assoc, Nat.add_assoc, Nat.add_comm 1 j]
      exact h (j + 1) (Nat.succ_lt_succ hj)

/-- The bytes of a word. -/
theorem leByte_leWord {j : ℕ} (hj : j < k) : leByte (leWord b off k) j = b (off + j) := by
  induction k generalizing off j with
  | zero => exact absurd hj (Nat.not_lt_zero j)
  | succ k ih =>
    have hb := (b off).toNat_lt
    cases j with
    | zero =>
      rw [leByte, leWord, Nat.pow_zero, Nat.div_one, Nat.add_zero off]
      apply UInt8.toNat_inj.mp
      rw [UInt8.toNat_ofNat']
      omega
    | succ j =>
      have htail : leWord b off (k + 1) / 256 ^ (j + 1) = leWord b (off + 1) k / 256 ^ j := by
        rw [Nat.pow_succ', ← Nat.div_div_eq_div_mul, leWord]
        congr 1
        omega
      rw [leByte, htail, ← Nat.add_assoc, Nat.add_right_comm]
      exact ih (Nat.lt_of_succ_lt_succ hj)

/-- A word read from the bytes of a number is that number. -/
theorem leWord_of_leByte {w : ℕ} (hw : w < 256 ^ k) (h : ∀ j < k, b (off + j) = leByte w j) :
    leWord b off k = w := by
  induction k generalizing off w with
  | zero =>
    rw [leWord]
    omega
  | succ k ih =>
    have hdiv : w / 256 < 256 ^ k := by
      rw [Nat.pow_succ] at hw
      omega
    have htail : leWord b (off + 1) k = w / 256 := by
      refine ih hdiv fun j hj => ?_
      rw [Nat.add_assoc, Nat.add_comm 1 j, h (j + 1) (Nat.succ_lt_succ hj), leByte, leByte,
        Nat.pow_succ', Nat.div_div_eq_div_mul]
    have hhead := h 0 (Nat.succ_pos k)
    rw [Nat.add_zero, leByte, Nat.pow_zero, Nat.div_one] at hhead
    rw [leWord, htail, hhead, UInt8.toNat_ofNat']
    omega

/-- Writing a word that was read copies its bytes. -/
theorem leStore_leWord (b src : ℕ → UInt8) (off k p : ℕ) :
    leStore b off k (leWord src off k) p = if off ≤ p ∧ p < off + k then src p else b p := by
  by_cases hp : off ≤ p ∧ p < off + k
  · rw [leStore, if_pos hp, if_pos hp, leByte_leWord (by omega), Nat.add_sub_cancel' hp.1]
  · rw [leStore, if_neg hp, if_neg hp]

end UtilWin
