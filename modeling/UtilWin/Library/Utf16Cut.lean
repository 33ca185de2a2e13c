import UtilWin.Library.Utf16
import Mathlib.Tactic.SplitIfs

/-!
# Cutting UTF-16 text

Text that is cut into pieces can be converted piece by piece, unless a surrogate pair is cut
(`toUtf8_append`).  In particular nothing is lost at a `NUL`, which is no surrogate
(`toUtf8_append_zero`).  Where a pair is cut, its first half becomes a replacement character, which
differs from the character of the pair in its first byte (`toUtf8_append_pair`, `head?_pair_ne`).

ASCII characters can be recognised in the bytes: a byte below `0x80` stands for itself and is not part of
anything else (`mem_toUtf8_iff`, `head?_toUtf8_iff`).
-/

namespace UtilWin
namespace Utf16

variable {a b s : List UInt16} {u v : UInt16}

/-! ## Pieces -/

/-- Between the two pieces a surrogate pair is cut. -/
def CutsPair (a b : List UInt16) : Prop :=
  ∃ u v, a.getLast? = some u ∧ b.head? = some v ∧ IsHigh u ∧ IsLow v

theorem CutsPair.of_cons (h : CutsPair s b) (u : UInt16) : CutsPair (u :: s) b := by
  obtain ⟨x, v, hx, hv, hpair⟩ := h
  refine ⟨x, v, ?_, hv, hpair⟩
  cases s with
  | nil => cases hx
  | cons y s => rwa [List.getLast?_cons_cons]

/-- **Pieces can be converted one by one.** -/
theorem toUtf8_append (h : ¬ CutsPair a b) : toUtf8 (a ++ b) = toUtf8 a ++ toUtf8 b := by
  fun_induction decode a with
  | case1 => rfl
  | case2 u =>
    cases b with
    | nil => rw [List.append_nil, toUtf8_nil, List.append_nil]
    | cons v b =>
      rw [List.singleton_append, toUtf8_cons_cons, if_neg fun hpair => h ⟨u, v, rfl, rfl, hpair⟩,
        toUtf8_singleton]
  | case3 u v s hpair ih =>
    rw [List.cons_append, List.cons_append, toUtf8_cons_cons, toUtf8_cons_cons, if_pos hpair,
      if_pos hpair, ih fun hcut => h ((hcut.of_cons v).of_cons u), List.append_assoc]
  | case4 u v s hpair ih =>
    rw [List.cons_append, List.cons_append, toUtf8_cons_cons, toUtf8_cons_cons, if_neg hpair,
      if_neg hpair, ← List.cons_append, ih fun hcut => h (hcut.of_cons u), List.append_assoc]

theorem not_isLow_of_isHigh (h : IsHigh u) : ¬ IsLow u := by
  rw [isHigh_iff] at h
  rw [isLow_iff]
  omega

/-- In front of something that is not the second half of a pair nothing is cut. -/
theorem not_cutsPair_cons (h : ¬ IsLow v) : ¬ CutsPair a (v :: b) := by
  rintro ⟨u, x, -, hx, -, hlow⟩
  rw [List.head?_cons] at hx
  cases hx
  exact h hlow

theorem toUtf8_zero : toUtf8 [0] = [0] := by decide

/-- **At a `NUL`.** -/
theorem toUtf8_append_zero (a b : List UInt16) : toUtf8 (a ++ 0 :: b) = toUtf8 a ++ 0 :: toUtf8 b := by
  have hzero : ¬ CutsPair [0] b := by
    rintro ⟨u, v, hu, -, hhigh, -⟩
    cases hu
    exact absurd hhigh (by decide)
  rw [toUtf8_append (not_cutsPair_cons (by decide)), ← List.singleton_append, toUtf8_append hzero,
    toUtf8_zero]
  rfl

/-- At a pair. -/
theorem toUtf8_append_pair (hu : IsHigh u) (hv : IsLow v) (a b : List UInt16) :
    toUtf8 (a ++ u :: v :: b) =
      toUtf8 a ++ (String.utf8EncodeChar (pairChar u v) ++ toUtf8 b) := by
  rw [toUtf8_append (not_cutsPair_cons (not_isLow_of_isHigh hu)), toUtf8_cons_cons,
    if_pos ⟨hu, hv⟩]

/-- A pair takes four bytes. -/
theorem length_utf8_pairChar (hu : IsHigh u) (hv : IsLow v) :
    (String.utf8EncodeChar (pairChar u v)).length = 4 := by
  rw [String.length_utf8EncodeChar, Char.utf8Size_eq_four_iff, UInt32.lt_iff_toNat_lt]
  have hval : (pairChar u v).val.toNat = _ := toNat_pairChar hu hv
  rw [hval]
  show 0xffff < _
  omega

/-- Whole text takes more bytes than a proper piece of it from the start. -/
theorem length_toUtf8_lt (a : List UInt16) (hb : b ≠ []) :
    (toUtf8 a).length < (toUtf8 (a ++ b)).length := by
  by_cases hcut : CutsPair a b
  · obtain ⟨u, v, hu, hv, hhigh, hlow⟩ := hcut
    obtain ⟨a', rfl⟩ := List.getLast?_eq_some_iff.mp hu
    obtain ⟨b', rfl⟩ : ∃ b', b = v :: b' := List.head?_eq_some_iff.mp hv
    rw [List.append_assoc, List.singleton_append, toUtf8_append_pair hhigh hlow,
      toUtf8_append (not_cutsPair_cons (not_isLow_of_isHigh hhigh)), toUtf8_singleton,
      List.length_append, List.length_append, List.length_append]
    have hunit := length_utf8_unitChar_le u
    have hpair := length_utf8_pairChar hhigh hlow
    omega
  · rw [toUtf8_append hcut, List.length_append]
    exact Nat.lt_add_of_pos_right (length_toUtf8_pos hb)

/-! ## Bytes -/

/-- A character of the ASCII range is its byte. -/
theorem utf8EncodeChar_of_lt {c : Char} (h : c.toNat < 0x80) :
    String.utf8EncodeChar c = [UInt8.ofNat c.toNat] :=
  if_pos (Nat.le_of_lt_succ h)

/-- The bytes of any other character are above that range. -/
theorem le_of_mem_utf8EncodeChar {c : Char} (h : 0x80 ≤ c.toNat) {x : UInt8}
    (hx : x ∈ String.utf8EncodeChar c) : 0x80 ≤ x.toNat := by
  have hnot : ¬ c.val.toNat ≤ 0x7f := Nat.not_le.mpr h
  have hcont : ∀ n m : ℕ, 0x80 ≤ m → m + n % 0x40 < 0x100 →
      0x80 ≤ (UInt8.ofNat (n % 0x40 + m)).toNat := by
    intro n m hm hlt
    rw [UInt8.toNat_ofNat']
    omega
  simp only [String.utf8EncodeChar, if_neg hnot] at hx
  split_ifs at hx <;> simp only [List.mem_cons, List.not_mem_nil, or_false] at hx
  · rcases hx with rfl | rfl <;> rw [UInt8.toNat_ofNat'] <;> omega
  · rcases hx with rfl | rfl | rfl <;> rw [UInt8.toNat_ofNat'] <;> omega
  · rcases hx with rfl | rfl | rfl | rfl <;> rw [UInt8.toNat_ofNat'] <;> omega

section

variable {x : UInt8} (hx : x.toNat < 0x80)

include hx

/-- A byte of the ASCII range is in the bytes of its own character only. -/
theorem mem_utf8EncodeChar_iff {c : Char} :
    x ∈ String.utf8EncodeChar c ↔ c.toNat = x.toNat := by
  rcases Nat.lt_or_ge c.toNat 0x80 with hc | hc
  · have hnat : (UInt8.ofNat c.toNat).toNat = c.toNat := by
      rw [UInt8.toNat_ofNat']
      omega
    rw [utf8EncodeChar_of_lt hc, List.mem_singleton, ← UInt8.toNat_inj, hnat, eq_comm]
  · refine iff_of_false (fun hmem => ?_) (by omega)
    have := le_of_mem_utf8EncodeChar hc hmem
    omega

theorem toNat_unitChar_eq_iff : (unitChar u).toNat = x.toNat ↔ x.toUInt16 = u := by
  rw [← UInt16.toNat_inj, UInt8.toNat_toUInt16]
  by_cases hsurr : IsHigh u ∨ IsLow u
  · have hle : 0xd800 ≤ u.toNat := by
      rcases hsurr with h | h
      · exact ((isHigh_iff u).mp h).1
      · have := ((isLow_iff u).mp h).1
        omega
    have hval : (unitChar u).toNat = 0xfffd := by
      rw [unitChar, if_pos hsurr]
      rfl
    rw [hval]
    omega
  · rw [not_or] at hsurr
    rw [toNat_unitChar hsurr.1 hsurr.2, eq_comm]

/-- **A byte of the ASCII range stands for itself.** -/
theorem mem_toUtf8_iff : x ∈ toUtf8 s ↔ x.toUInt16 ∈ s := by
  fun_induction decode s with
  | case1 => simp
  | case2 u =>
    rw [toUtf8_singleton, mem_utf8EncodeChar_iff hx, toNat_unitChar_eq_iff hx, List.mem_singleton]
  | case3 u v s hpair ih =>
    have hu := (isHigh_iff u).mp hpair.1
    have hv := (isLow_iff v).mp hpair.2
    have hne : ¬ (pairChar u v).toNat = x.toNat := by
      rw [toNat_pairChar hpair.1 hpair.2]
      omega
    have hxu : x.toUInt16 ≠ u := by
      rw [← UInt16.toNat_inj.ne, UInt8.toNat_toUInt16]
      omega
    have hxv : x.toUInt16 ≠ v := by
      rw [← UInt16.toNat_inj.ne, UInt8.toNat_toUInt16]
      omega
    rw [toUtf8_cons_cons, if_pos hpair, List.mem_append, mem_utf8EncodeChar_iff hx, ih,
      List.mem_cons, List.mem_cons, or_iff_right hne, or_iff_right hxu, or_iff_right hxv]
  | case4 u v s hpair ih =>
    rw [toUtf8_cons_cons, if_neg hpair, List.mem_append, mem_utf8EncodeChar_iff hx,
      toNat_unitChar_eq_iff hx, ih]
    exact List.mem_cons.symm

theorem head?_utf8EncodeChar_iff {c : Char} :
    (String.utf8EncodeChar c).head? = some x ↔ c.toNat = x.toNat := by
  constructor
  · exact fun h => (mem_utf8EncodeChar_iff hx).mp (List.mem_of_head? h)
  · intro h
    rw [utf8EncodeChar_of_lt (by omega), h, UInt8.ofNat_toNat]
    rfl

/-- **What starts with a character of the ASCII range is seen from the first byte.** -/
theorem head?_toUtf8_iff : (toUtf8 s).head? = some x ↔ s.head? = some x.toUInt16 := by
  have hunit : ∀ u (rest : List UInt8),
      (String.utf8EncodeChar (unitChar u) ++ rest).head? = some x ↔ some u = some x.toUInt16 := by
    intro u rest
    rw [List.head?_append_of_ne_nil _ String.utf8EncodeChar_ne_nil, head?_utf8EncodeChar_iff hx,
      toNat_unitChar_eq_iff hx, Option.some.injEq, eq_comm]
  match s with
  | [] => exact iff_of_false nofun nofun
  | [u] =>
    rw [toUtf8_singleton, ← List.append_nil (String.utf8EncodeChar _)]
    exact hunit u []
  | u :: v :: s =>
    rw [toUtf8_cons_cons, List.head?_cons]
    split_ifs with hpair
    · have hu := (isHigh_iff u).mp hpair.1
      rw [List.head?_append_of_ne_nil _ String.utf8EncodeChar_ne_nil, head?_utf8EncodeChar_iff hx,
        toNat_pairChar hpair.1 hpair.2, Option.some.injEq, ← UInt16.toNat_inj,
        UInt8.toNat_toUInt16]
      omega
    · exact hunit u _

end

/-- The first byte of a pair is not that of the replacement character. -/
theorem head?_pair_ne (hu : IsHigh u) (hv : IsLow v) :
    (String.utf8EncodeChar (pairChar u v)).head? ≠ (toUtf8 [u]).head? := by
  have hfirst : toUtf8 [u] = [0xef, 0xbf, 0xbd] := by
    rw [toUtf8_singleton, unitChar, if_pos (Or.inl hu)]
    decide
  have hval : (pairChar u v).val.toNat = _ := toNat_pairChar hu hv
  have hnot : ∀ n ≤ 0xffff, ¬ (pairChar u v).val.toNat ≤ n := by
    intro n hn
    rw [hval]
    omega
  have hpair : (String.utf8EncodeChar (pairChar u v)).head? =
      some (UInt8.ofNat ((pairChar u v).val.toNat / 262144 % 8 + 0xf0)) := by
    simp only [String.utf8EncodeChar, if_neg (hnot 0x7f (by decide)),
      if_neg (hnot 0x7ff (by decide)), if_neg (hnot 0xffff (by decide)), List.head?_cons]
  rw [hpair, hfirst]
  intro h
  have hbyte := congrArg UInt8.toNat (Option.some.inj h)
  rw [UInt8.toNat_ofNat'] at hbyte
  have hef : UInt8.toNat 0xef = 0xef := rfl
  omega

end Utf16
end UtilWin
