import UtilWin.Library.Utf16Cut
import Mathlib.Algebra.Group.Nat.Defs
import Mathlib.Data.Int.Notation

/-!
# `WideCharToMultiByte`

The conversion to UTF-8 as the system offers it: lengths are `int`s, and what cannot be done gives 0.
-/

namespace UtilWin

/-- The conversion to `int`. -/
def int32 (x : ℤ) : ℤ := (BitVec.ofInt 32 x).toInt

theorem int32_of_lt {n : ℕ} (h : n < 2 ^ 31) : int32 n = n := by
  rw [int32, BitVec.toInt_ofInt, Int.bmod]
  split <;> omega

/-- `WideCharToMultiByte(CP_UTF8, 0, s, cch, out, cb, 0, 0)`, for the memory `s`: the return value and the
bytes written.  Length 0 is refused, and `-1` is a terminated string with its terminator; a size of 0
asks for the length, which has to be an `int`. -/
def wideCharToMultiByte (s : List UInt16) (cch cb : ℤ) : ℤ × List UInt8 :=
  if cch = 0 ∨ cch < -1 then (0, [])
  else
    let text := if cch = -1 then s.takeWhile (· ≠ 0) ++ [0] else s.take cch.toNat
    let out := Utf16.toUtf8 text
    if 2 ^ 31 ≤ out.length then (0, [])
    else if cb = 0 then (out.length, [])
    else if out.length ≤ cb then (out.length, out)
    else (0, [])

variable {s text rest : List UInt16}

/-- A text has at least as many bytes as units. -/
theorem Utf16.length_le_toUtf8 (s : List UInt16) : s.length ≤ (toUtf8 s).length := by
  have hpos : ∀ c : Char, 0 < (String.utf8EncodeChar c).length := fun c =>
    List.length_pos_iff.mpr String.utf8EncodeChar_ne_nil
  fun_induction decode s with
  | case1 => exact Nat.le_refl 0
  | case2 u =>
    rw [toUtf8_singleton]
    exact hpos _
  | case3 u v s hpair ih =>
    rw [toUtf8_cons_cons, if_pos hpair, List.length_append, length_utf8_pairChar hpair.1 hpair.2]
    simp only [List.length_cons]
    omega
  | case4 u v s hpair ih =>
    have := hpos (unitChar u)
    rw [toUtf8_cons_cons, if_neg hpair, List.length_append]
    simp only [List.length_cons] at ih ⊢
    omega

/-- **A conversion that is measured first.** -/
theorem wideCharToMultiByte_eq (hs : s = text ++ rest) (hne : text ≠ [])
    (hlen : (Utf16.toUtf8 text).length < 2 ^ 31) :
    wideCharToMultiByte s text.length 0 = (((Utf16.toUtf8 text).length : ℤ), []) ∧
      wideCharToMultiByte s text.length (Utf16.toUtf8 text).length =
        (((Utf16.toUtf8 text).length : ℤ), Utf16.toUtf8 text) := by
  have hpos : 0 < text.length := List.length_pos_iff.mpr hne
  have hout := Utf16.length_toUtf8_pos hne
  have hcch : ¬ ((text.length : ℤ) = 0 ∨ (text.length : ℤ) < -1) := by omega
  have hminus : ¬ (text.length : ℤ) = -1 := by omega
  have htake : s.take (text.length : ℤ).toNat = text := by rw [Int.toNat_natCast, hs, List.take_left]
  have hfit : ¬ 2 ^ 31 ≤ (Utf16.toUtf8 text).length := Nat.not_le.mpr hlen
  have hcb : ¬ ((Utf16.toUtf8 text).length : ℤ) = 0 := by omega
  constructor
  · simp only [wideCharToMultiByte, if_neg hcch, if_neg hminus, htake, if_neg hfit, if_true]
  · simp only [wideCharToMultiByte, if_neg hcch, if_neg hminus, htake, if_neg hfit, if_neg hcb,
      if_pos (Int.le_refl _)]

end UtilWin
