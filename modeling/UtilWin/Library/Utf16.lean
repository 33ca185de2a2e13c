import Mathlib.Data.List.Basic

/-!
# UTF-16 to UTF-8

The standard conversion: a high surrogate directly followed by a low one is one scalar value, every
other surrogate stands for `U+FFFD`, and every other code unit is its own scalar value.  The bytes
are those of `String.utf8EncodeChar`.

What callers use of it is how much room it takes: at most three bytes for a code unit
(`length_toUtf8_le`), a pair taking four for its two, and at least one byte for anything
(`length_toUtf8_pos`).

The other way a scalar value is one unit that is no surrogate, or a pair (`encode`, `encode_spec`).
-/

namespace UtilWin
namespace Utf16

/-- A high surrogate, the first half of a pair. -/
def IsHigh (u : UInt16) : Prop := 0xd800 ≤ u ∧ u < 0xdc00

/-- A low surrogate, the second half of a pair. -/
def IsLow (u : UInt16) : Prop := 0xdc00 ≤ u ∧ u ≤ 0xdfff

instance (u : UInt16) : Decidable (IsHigh u) := by unfold IsHigh; infer_instance

instance (u : UInt16) : Decidable (IsLow u) := by unfold IsLow; infer_instance

/-- The replacement character, which stands for a surrogate without its other half. -/
def replacement : Char := Char.ofNat 0xfffd

/-- The scalar value of a code unit that is not part of a pair. -/
def unitChar (u : UInt16) : Char :=
  if IsHigh u ∨ IsLow u then replacement else Char.ofNat u.toNat

/-- The scalar value of a surrogate pair. -/
def pairChar (u v : UInt16) : Char :=
  Char.ofNat (0x10000 + (u.toNat - 0xd800) * 0x400 + (v.toNat - 0xdc00))

/-- The scalar values of a string of code units. -/
def decode : List UInt16 → List Char
  | [] => []
  | [u] => [unitChar u]
  | u :: v :: s =>
    if IsHigh u ∧ IsLow v then pairChar u v :: decode s else unitChar u :: decode (v :: s)

/-- The UTF-8 bytes of a string of code units. -/
def toUtf8 (s : List UInt16) : List UInt8 := (decode s).flatMap String.utf8EncodeChar

@[simp] theorem toUtf8_nil : toUtf8 [] = [] := rfl

theorem toUtf8_singleton (u : UInt16) : toUtf8 [u] = String.utf8EncodeChar (unitChar u) := by
  rw [toUtf8, decode, List.flatMap_cons, List.flatMap_nil, List.append_nil]

theorem toUtf8_cons_cons (u v : UInt16) (s : List UInt16) :
    toUtf8 (u :: v :: s) =
      if IsHigh u ∧ IsLow v then String.utf8EncodeChar (pairChar u v) ++ toUtf8 s
      else String.utf8EncodeChar (unitChar u) ++ toUtf8 (v :: s) := by
  rw [toUtf8, decode]
  split_ifs <;> rw [List.flatMap_cons, toUtf8]

/-- The code units of a scalar value. -/
def encode (c : Char) : List UInt16 :=
  if c.toNat < 0x10000 then [UInt16.ofNat c.toNat]
  else [UInt16.ofNat (0xd800 + (c.toNat - 0x10000) / 0x400),
    UInt16.ofNat (0xdc00 + (c.toNat - 0x10000) % 0x400)]

theorem isHigh_iff (u : UInt16) : IsHigh u ↔ 0xd800 ≤ u.toNat ∧ u.toNat < 0xdc00 := by
  rw [IsHigh, UInt16.le_iff_toNat_le, UInt16.lt_iff_toNat_lt]
  rfl

theorem isLow_iff (u : UInt16) : IsLow u ↔ 0xdc00 ≤ u.toNat ∧ u.toNat ≤ 0xdfff := by
  rw [IsLow, UInt16.le_iff_toNat_le, UInt16.le_iff_toNat_le]
  rfl

theorem toNat_charOfNat {n : ℕ} (hvalid : n.isValidChar) : (Char.ofNat n).toNat = n := by
  rw [Char.ofNat, dif_pos hvalid]
  rfl

/-- The value of the character of a unit that is no surrogate. -/
theorem toNat_unitChar {u : UInt16} (hhigh : ¬ IsHigh u) (hlow : ¬ IsLow u) :
    (unitChar u).toNat = u.toNat := by
  have hlt := u.toNat_lt
  rw [isHigh_iff] at hhigh
  rw [isLow_iff] at hlow
  have hvalid : u.toNat.isValidChar := by
    rw [Nat.isValidChar]
    omega
  rw [unitChar, if_neg (by rw [isHigh_iff, isLow_iff]; exact not_or.mpr ⟨hhigh, hlow⟩),
    toNat_charOfNat hvalid]

/-- The value of the character of a pair. -/
theorem toNat_pairChar {u v : UInt16} (hu : IsHigh u) (hv : IsLow v) :
    (pairChar u v).toNat = 0x10000 + (u.toNat - 0xd800) * 0x400 + (v.toNat - 0xdc00) := by
  rw [isHigh_iff] at hu
  rw [isLow_iff] at hv
  have hvalid : (0x10000 + (u.toNat - 0xd800) * 0x400 + (v.toNat - 0xdc00)).isValidChar := by
    rw [Nat.isValidChar]
    omega
  rw [pairChar, toNat_charOfNat hvalid]

/-- **A scalar value is one unit that is no surrogate, or a surrogate pair.** -/
theorem encode_spec (c : Char) :
    (∃ u, encode c = [u] ∧ ¬ IsHigh u ∧ ¬ IsLow u ∧ unitChar u = c) ∨
      ∃ u v, encode c = [u, v] ∧ IsHigh u ∧ IsLow v ∧ pairChar u v = c := by
  have hvalid : c.toNat.isValidChar := c.valid
  rw [Nat.isValidChar] at hvalid
  rw [encode]
  split_ifs with hplane
  · have hnat : (UInt16.ofNat c.toNat).toNat = c.toNat := UInt16.toNat_ofNat_of_lt' hplane
    have hhigh : ¬ IsHigh (UInt16.ofNat c.toNat) := by
      rw [isHigh_iff, hnat]
      omega
    have hlow : ¬ IsLow (UInt16.ofNat c.toNat) := by
      rw [isLow_iff, hnat]
      omega
    refine Or.inl ⟨_, rfl, hhigh, hlow, Char.toNat_inj.mp ?_⟩
    rw [toNat_unitChar hhigh hlow, hnat]
  · have hle : c.toNat - 0x10000 < 0x100000 := by omega
    generalize hn : c.toNat - 0x10000 = n at hle
    have hu : (UInt16.ofNat (0xd800 + n / 0x400)).toNat = 0xd800 + n / 0x400 :=
      UInt16.toNat_ofNat_of_lt' (by rw [UInt16.size]; omega)
    have hv : (UInt16.ofNat (0xdc00 + n % 0x400)).toNat = 0xdc00 + n % 0x400 :=
      UInt16.toNat_ofNat_of_lt' (by rw [UInt16.size]; omega)
    have hhigh : IsHigh (UInt16.ofNat (0xd800 + n / 0x400)) := by
      rw [isHigh_iff, hu]
      omega
    have hlow : IsLow (UInt16.ofNat (0xdc00 + n % 0x400)) := by
      rw [isLow_iff, hv]
      omega
    refine Or.inr ⟨_, _, rfl, hhigh, hlow, Char.toNat_inj.mp ?_⟩
    rw [toNat_pairChar hhigh hlow, hu, hv]
    omega

/-- A code unit by itself is a scalar value of the basic plane. -/
theorem val_unitChar_le (u : UInt16) : (unitChar u).val ≤ 0xffff := by
  have hle : ∀ n < 0x10000, (Char.ofNat n).val ≤ 0xffff := by
    intro n hn
    rw [UInt32.le_iff_toNat_le, Char.ofNat]
    by_cases hvalid : n.isValidChar
    · rw [dif_pos hvalid]
      exact Nat.le_of_lt_succ hn
    · rw [dif_neg hvalid]
      decide
  rw [unitChar]
  split_ifs
  · exact hle _ (by decide)
  · exact hle _ u.toNat_lt

/-- A code unit by itself takes at most three bytes. -/
theorem length_utf8_unitChar_le (u : UInt16) :
    (String.utf8EncodeChar (unitChar u)).length ≤ 3 := by
  have hle := val_unitChar_le u
  have h4 := Char.utf8Size_le_four (unitChar u)
  rw [String.length_utf8EncodeChar]
  by_contra h
  have h4' : (unitChar u).utf8Size = 4 := by omega
  rw [Char.utf8Size_eq_four_iff] at h4'
  exact absurd hle (by rw [UInt32.not_le]; exact h4')

/-- **At most three bytes for a code unit.** -/
theorem length_toUtf8_le (s : List UInt16) : (toUtf8 s).length ≤ 3 * s.length := by
  fun_induction decode s with
  | case1 => exact Nat.le_refl 0
  | case2 u =>
    rw [toUtf8_singleton]
    exact length_utf8_unitChar_le u
  | case3 u v s hpair ih =>
    have hle := Char.utf8Size_le_four (pairChar u v)
    rw [toUtf8_cons_cons, if_pos hpair, List.length_append, String.length_utf8EncodeChar]
    simp only [List.length_cons]
    omega
  | case4 u v s hpair ih =>
    have hle := length_utf8_unitChar_le u
    rw [toUtf8_cons_cons, if_neg hpair, List.length_append]
    simp only [List.length_cons] at ih ⊢
    omega

/-- Something takes at least one byte. -/
theorem length_toUtf8_pos {s : List UInt16} (hs : s ≠ []) : 0 < (toUtf8 s).length := by
  have hpos : ∀ c : Char, 0 < (String.utf8EncodeChar c).length := by
    intro c
    rw [String.length_utf8EncodeChar]
    exact Char.utf8Size_pos c
  match s with
  | [] => exact absurd rfl hs
  | [u] =>
    rw [toUtf8_singleton]
    exact hpos _
  | u :: v :: s =>
    rw [toUtf8_cons_cons]
    split_ifs <;> rw [List.length_append] <;> exact Nat.add_pos_left (hpos _) _

/-- Repeating a code unit that is not a surrogate repeats its bytes. -/
theorem length_toUtf8_replicate {u : UInt16} (hu : ¬ IsHigh u) (n : ℕ) :
    (toUtf8 (List.replicate n u)).length = n * (toUtf8 [u]).length := by
  induction n with
  | zero => rw [List.replicate_zero, toUtf8_nil, Nat.zero_mul, List.length_nil]
  | succ n ih =>
    cases n with
    | zero => rw [Nat.zero_add, List.replicate_one, Nat.one_mul]
    | succ n =>
      rw [List.replicate_succ, List.replicate_succ, toUtf8_cons_cons, if_neg fun h => hu h.1,
        ← List.replicate_succ, List.length_append, ih, ← toUtf8_singleton, Nat.succ_mul (n + 1),
        Nat.add_comm]

end Utf16
end UtilWin
