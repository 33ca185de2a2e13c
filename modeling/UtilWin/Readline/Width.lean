import UtilWin.Library.LowerBound
import Mathlib.Data.List.GetD
import Mathlib.Data.UInt
import Mathlib.Tactic.SplitIfs

/-!
# The width of a character

`wrl_wcwidth` looks a code point up in a table of intervals of wide characters.  A binary search on
the starts finds the first interval that does not start below the code point; the code point is in the
one before, or it is the start of the one found, or it is in none.

That is all there is to look at because the intervals are in order (`Ordered`): the ones further in
front end before the last one that starts below the code point does, and the ones behind start
above it.
-/

namespace UtilWin
namespace Readline

/-- `urange_t`. -/
structure URange where
  start : UInt32
  end_ : UInt32
  deriving DecidableEq

/-- The code point is in the interval. -/
def URange.Contains (r : URange) (wch : UInt32) : Prop := r.start ≤ wch ∧ wch ≤ r.end_

instance (r : URange) (wch : UInt32) : Decidable (r.Contains wch) := by
  unfold URange.Contains
  infer_instance

/-! ## The table -/

/-- `w_chars`. -/
def wChars : List URange :=
  [⟨0x1100, 0x115F⟩, ⟨0x231A, 0x231B⟩, ⟨0x2329, 0x232A⟩, ⟨0x23E9, 0x23EC⟩, ⟨0x23F0, 0x23F0⟩,
    ⟨0x23F3, 0x23F3⟩, ⟨0x25FD, 0x25FE⟩, ⟨0x2614, 0x2615⟩, ⟨0x2648, 0x2653⟩, ⟨0x267F, 0x267F⟩,
    ⟨0x2693, 0x2693⟩, ⟨0x26A1, 0x26A1⟩, ⟨0x26AA, 0x26AB⟩, ⟨0x26BD, 0x26BE⟩, ⟨0x26C4, 0x26C5⟩,
    ⟨0x26CE, 0x26CE⟩, ⟨0x26D4, 0x26D4⟩, ⟨0x26EA, 0x26EA⟩, ⟨0x26F2, 0x26F3⟩, ⟨0x26F5, 0x26F5⟩,
    ⟨0x26FA, 0x26FA⟩, ⟨0x26FD, 0x26FD⟩, ⟨0x2705, 0x2705⟩, ⟨0x270A, 0x270B⟩, ⟨0x2728, 0x2728⟩,
    ⟨0x274C, 0x274C⟩, ⟨0x274E, 0x274E⟩, ⟨0x2753, 0x2755⟩, ⟨0x2757, 0x2757⟩, ⟨0x2795, 0x2797⟩,
    ⟨0x27B0, 0x27B0⟩, ⟨0x27BF, 0x27BF⟩, ⟨0x2B1B, 0x2B1C⟩, ⟨0x2B50, 0x2B50⟩, ⟨0x2B55, 0x2B55⟩,
    ⟨0x2E80, 0x2E99⟩, ⟨0x2E9B, 0x2EF3⟩, ⟨0x2F00, 0x2FD5⟩, ⟨0x2FF0, 0x303E⟩, ⟨0x3041, 0x3096⟩,
    ⟨0x3099, 0x30FF⟩, ⟨0x3105, 0x312F⟩, ⟨0x3131, 0x318E⟩, ⟨0x3190, 0x31E3⟩, ⟨0x31EF, 0x321E⟩,
    ⟨0x3220, 0x3247⟩, ⟨0x3250, 0x4DBF⟩, ⟨0x4E00, 0xA48C⟩, ⟨0xA490, 0xA4C6⟩, ⟨0xA960, 0xA97C⟩,
    ⟨0xAC00, 0xD7A3⟩, ⟨0xF900, 0xFAFF⟩, ⟨0xFE10, 0xFE19⟩, ⟨0xFE30, 0xFE52⟩, ⟨0xFE54, 0xFE66⟩,
    ⟨0xFE68, 0xFE6B⟩, ⟨0xFF01, 0xFF60⟩, ⟨0xFFE0, 0xFFE6⟩, ⟨0x16FE0, 0x16FE4⟩, ⟨0x16FF0, 0x16FF1⟩,
    ⟨0x17000, 0x187F7⟩, ⟨0x18800, 0x18CD5⟩, ⟨0x18D00, 0x18D08⟩, ⟨0x1AFF0, 0x1AFF3⟩,
    ⟨0x1AFF5, 0x1AFFB⟩, ⟨0x1AFFD, 0x1AFFE⟩, ⟨0x1B000, 0x1B122⟩, ⟨0x1B132, 0x1B132⟩,
    ⟨0x1B150, 0x1B152⟩, ⟨0x1B155, 0x1B155⟩, ⟨0x1B164, 0x1B167⟩, ⟨0x1B170, 0x1B2FB⟩,
    ⟨0x1F004, 0x1F004⟩, ⟨0x1F0CF, 0x1F0CF⟩, ⟨0x1F18E, 0x1F18E⟩, ⟨0x1F191, 0x1F19A⟩,
    ⟨0x1F200, 0x1F202⟩, ⟨0x1F210, 0x1F23B⟩, ⟨0x1F240, 0x1F248⟩, ⟨0x1F250, 0x1F251⟩,
    ⟨0x1F260, 0x1F265⟩, ⟨0x1F300, 0x1F320⟩, ⟨0x1F32D, 0x1F335⟩, ⟨0x1F337, 0x1F37C⟩,
    ⟨0x1F37E, 0x1F393⟩, ⟨0x1F3A0, 0x1F3CA⟩, ⟨0x1F3CF, 0x1F3D3⟩, ⟨0x1F3E0, 0x1F3F0⟩,
    ⟨0x1F3F4, 0x1F3F4⟩, ⟨0x1F3F8, 0x1F43E⟩, ⟨0x1F440, 0x1F440⟩, ⟨0x1F442, 0x1F4FC⟩,
    ⟨0x1F4FF, 0x1F53D⟩, ⟨0x1F54B, 0x1F54E⟩, ⟨0x1F550, 0x1F567⟩, ⟨0x1F57A, 0x1F57A⟩,
    ⟨0x1F595, 0x1F596⟩, ⟨0x1F5A4, 0x1F5A4⟩, ⟨0x1F5FB, 0x1F64F⟩, ⟨0x1F680, 0x1F6C5⟩,
    ⟨0x1F6CC, 0x1F6CC⟩, ⟨0x1F6D0, 0x1F6D2⟩, ⟨0x1F6D5, 0x1F6D7⟩, ⟨0x1F6DC, 0x1F6DF⟩,
    ⟨0x1F6EB, 0x1F6EC⟩, ⟨0x1F6F4, 0x1F6FC⟩, ⟨0x1F7E0, 0x1F7EB⟩, ⟨0x1F7F0, 0x1F7F0⟩,
    ⟨0x1F90C, 0x1F93A⟩, ⟨0x1F93C, 0x1F945⟩, ⟨0x1F947, 0x1F9FF⟩, ⟨0x1FA70, 0x1FA7C⟩,
    ⟨0x1FA80, 0x1FA88⟩, ⟨0x1FA90, 0x1FABD⟩, ⟨0x1FABF, 0x1FAC5⟩, ⟨0x1FACE, 0x1FADB⟩,
    ⟨0x1FAE0, 0x1FAE8⟩, ⟨0x1FAF0, 0x1FAF8⟩, ⟨0x20000, 0x2FFFD⟩, ⟨0x30000, 0x3FFFD⟩]

/-- `w_chars_len`. -/
def wCharsLen : ℕ := 120

/-! ## The lookup -/

section

variable (table : List URange) (past : URange)

/-- `w_chars[k]`, which is `past` if it is behind the table. -/
def entry (k : ℕ) : URange := table.getD k past

/-- `wrl_wcwidth`, for a table and what is behind it in memory. -/
def wrlWcwidth (wch : UInt32) : ℕ :=
  if wch < (entry table past 0).start ∧ wch ≥ 0x20 then 1
  else if wch < 0x20 then 0
  else
    let p := lowerBound (fun k => (entry table past k).start < wch) 0 table.length
    if p > 0 ∧ (entry table past (p - 1)).start ≤ wch ∧ wch ≤ (entry table past (p - 1)).end_ then 2
    else if p ≠ table.length ∧ (entry table past p).start = wch then 2
    else 1

end

/-! ## Order -/

/-- The starts increase, and the intervals are disjoint and not empty. -/
structure Ordered (table : List URange) : Prop where
  starts : table.Pairwise fun r r' => r.start < r'.start
  disjoint : table.Pairwise fun r r' => ∀ wch, ¬ (r.Contains wch ∧ r'.Contains wch)
  nonempty : ∀ r ∈ table, r.start ≤ r.end_

variable {table : List URange} {past : URange} {wch : UInt32}

/-- Each interval ends before the later ones start. -/
theorem Ordered.gaps (h : Ordered table) :
    table.Pairwise fun r r' => r.start < r'.start ∧ r.end_ < r'.start := by
  refine (h.starts.and h.disjoint).imp_of_mem fun {r r'} _ hr' ⟨hstart, hdisj⟩ => ⟨hstart, ?_⟩
  -- otherwise the later start is in both intervals
  refine UInt32.not_le.mp fun hle => hdisj r'.start ⟨⟨?_, hle⟩, UInt32.le_refl _, ?_⟩
  · exact UInt32.le_of_lt hstart
  · exact h.nonempty r' hr'

theorem entry_eq_getElem {k : ℕ} (hk : k < table.length) : entry table past k = table[k] :=
  List.getD_eq_getElem table past hk

theorem Ordered.gap (h : Ordered table) {i j : ℕ} (hij : i < j) (hj : j < table.length) :
    (entry table past i).start < (entry table past j).start ∧
      (entry table past i).end_ < (entry table past j).start := by
  rw [entry_eq_getElem (Nat.lt_trans hij hj), entry_eq_getElem hj]
  exact List.pairwise_iff_getElem.mp h.gaps i j (Nat.lt_trans hij hj) hj hij

theorem Ordered.start_le_end (h : Ordered table) {k : ℕ} (hk : k < table.length) :
    (entry table past k).start ≤ (entry table past k).end_ := by
  rw [entry_eq_getElem hk]
  exact h.nonempty _ (List.getElem_mem hk)

/-- The intervals that start below a code point come first. -/
theorem Ordered.partitioned (h : Ordered table) (past : URange) (wch : UInt32) :
    Partitioned (fun k => (entry table past k).start < wch) table.length := by
  intro i j hij hj hp
  rcases Nat.lt_or_eq_of_le hij with hlt | rfl
  · exact decide_eq_true (UInt32.lt_trans (h.gap hlt hj).1 (of_decide_eq_true hp))
  · exact hp

/-- Membership in the table, by position. -/
theorem exists_contains_iff :
    (∃ r ∈ table, r.Contains wch) ↔ ∃ k < table.length, (entry table past k).Contains wch := by
  constructor
  · rintro ⟨r, hr, hwch⟩
    obtain ⟨k, hk, rfl⟩ := List.getElem_of_mem hr
    exact ⟨k, hk, by rwa [entry_eq_getElem hk]⟩
  · rintro ⟨k, hk, hwch⟩
    rw [entry_eq_getElem hk] at hwch
    exact ⟨table[k], List.getElem_mem hk, hwch⟩

/-- With `p` the first interval that does not start below the code point, only the one before it and
`p` itself can contain it. -/
theorem Ordered.contains_iff (h : Ordered table) {p : ℕ} (hp : p ≤ table.length)
    (hfront : ∀ i < p, (entry table past i).start < wch)
    (hback : ∀ i, p ≤ i → i < table.length → wch ≤ (entry table past i).start) :
    (∃ k < table.length, (entry table past k).Contains wch) ↔
      (p > 0 ∧ (entry table past (p - 1)).start ≤ wch ∧ wch ≤ (entry table past (p - 1)).end_) ∨
        (p ≠ table.length ∧ (entry table past p).start = wch) := by
  constructor
  · rintro ⟨k, hk, hle, hend⟩
    rcases Nat.lt_or_ge k p with hkp | hpk
    · -- in front of `p - 1` the intervals end before `p - 1` starts
      have hlast : k = p - 1 := by
        by_contra hne
        have hgap : (entry table past k).end_ < (entry table past (p - 1)).start :=
          (h.gap (by omega) (by omega)).2
        have hstart := hfront (p - 1) (by omega)
        exact UInt32.not_le.mpr (UInt32.lt_trans hgap hstart) hend
      subst hlast
      exact Or.inl ⟨by omega, hle, hend⟩
    · -- from `p` on they start at the code point or above it, and those behind `p` above it
      have hkey : k = p := by
        by_contra hne
        have hgap : (entry table past p).start < (entry table past k).start :=
          (h.gap (by omega) hk).1
        exact UInt32.not_le.mpr (UInt32.lt_of_le_of_lt (hback p (Nat.le_refl p) (by omega)) hgap) hle
      subst hkey
      exact Or.inr ⟨by omega, UInt32.le_antisymm hle (hback k hpk hk)⟩
  · rintro (⟨hpos, hle, hend⟩ | ⟨hne, heq⟩)
    · exact ⟨p - 1, by omega, hle, hend⟩
    · refine ⟨p, by omega, UInt32.le_of_eq heq, ?_⟩
      rw [← heq]
      exact h.start_le_end (by omega)

/-! ## The answer -/

/-- The shortcut answers for code points no interval contains. -/
theorem Ordered.not_contains_of_lt (h : Ordered table) (hlt : wch < (entry table past 0).start) :
    ¬ ∃ k < table.length, (entry table past k).Contains wch := by
  rintro ⟨k, hk, hle, -⟩
  rcases Nat.eq_zero_or_pos k with rfl | hpos
  · exact UInt32.not_le.mpr hlt hle
  · exact UInt32.not_le.mpr (UInt32.lt_trans hlt (h.gap hpos hk).1) hle

/-- The width is 2 for the code points in the table and 1 for the others. -/
theorem wrlWcwidth_eq (h : Ordered table) (past : URange) {wch : UInt32} (hwch : 0x20 ≤ wch) :
    wrlWcwidth table past wch = if ∃ r ∈ table, r.Contains wch then 2 else 1 := by
  have hctl : ¬ wch < 0x20 := UInt32.not_lt.mpr hwch
  simp only [@exists_contains_iff table past wch, wrlWcwidth, if_neg hctl]
  by_cases hfirst : wch < (entry table past 0).start
  · rw [if_pos ⟨hfirst, hwch⟩, if_neg (h.not_contains_of_lt hfirst)]
  · rw [if_neg fun hshort => hfirst hshort.1]
    obtain ⟨hp, hfront, hback⟩ := lowerBound_spec (h.partitioned past wch) 0 table.length
      (by omega) (fun i hi => absurd hi (Nat.not_lt_zero i)) (fun i hi hi' => by omega)
    have hiff := h.contains_iff hp (fun i hi => of_decide_eq_true (hfront i hi))
      fun i hi hi' => UInt32.not_lt.mp (of_decide_eq_false (hback i hi hi'))
    rw [if_congr hiff rfl rfl]
    split_ifs <;> first | rfl | tauto

/-! ## The shipped table -/

/-- One interval lies before the other. -/
def URange.Before (r r' : URange) : Prop :=
  r.start ≤ r.end_ ∧ r.end_ < r'.start ∧ r'.start ≤ r'.end_

instance : DecidableRel URange.Before := fun r r' => by
  unfold URange.Before
  infer_instance

instance : Trans URange.Before URange.Before URange.Before where
  trans h h' := ⟨h.1, UInt32.lt_of_lt_of_le h.2.1 (UInt32.le_trans h.2.2
    (UInt32.le_of_lt h'.2.1)), h'.2.2⟩

/-- It is enough that each interval lies before the next one. -/
theorem ordered_of_isChain {table : List URange} (hnonempty : ∀ r ∈ table, r.start ≤ r.end_)
    (hchain : table.IsChain URange.Before) : Ordered table := by
  have hall : table.Pairwise URange.Before := List.isChain_iff_pairwise.mp hchain
  refine ⟨hall.imp fun h => UInt32.lt_of_le_of_lt h.1 h.2.1, hall.imp fun h wch hwch => ?_,
    hnonempty⟩
  exact UInt32.not_le.mpr (UInt32.lt_of_lt_of_le h.2.1 hwch.2.1) hwch.1.2

theorem ordered_wChars : Ordered wChars :=
  ordered_of_isChain (by decide +kernel) (by decide +kernel)

/-- **`wrl_wcwidth` answers 2 exactly for the code points from 0x20 on that an interval of the table
contains and 1 for the others**, for every table in order and whatever lies behind it in memory; and
`w_chars`, with its length, is in order. -/
theorem wrlWcwidth_spec (table : List URange) (past : URange) (wch : UInt32) (h : Ordered table)
    (hwch : 0x20 ≤ wch) :
    (wrlWcwidth table past wch = 2 ↔ ∃ r ∈ table, r.Contains wch) ∧
      (wrlWcwidth table past wch = 1 ↔ ¬ ∃ r ∈ table, r.Contains wch) ∧
      Ordered wChars ∧ wChars.length = wCharsLen := by
  refine ⟨?_, ?_, ordered_wChars, rfl⟩
  all_goals
    rw [wrlWcwidth_eq h past hwch]
    split_ifs with hin <;> simp [hin]

/-- U+303F is behind the interval up to U+303E and in front of the next one. -/
theorem wrlWcwidth_spec_wChars :
    Ordered wChars ∧ wrlWcwidth wChars ⟨0, 0⟩ 0x303E = 2 ∧ wrlWcwidth wChars ⟨0, 0⟩ 0x303F = 1 := by
  have hin : ∃ r ∈ wChars, r.Contains 0x303E := by decide +kernel
  have hout : ¬ ∃ r ∈ wChars, r.Contains 0x303F := by decide +kernel
  exact ⟨ordered_wChars,
    (wrlWcwidth_spec wChars ⟨0, 0⟩ 0x303E ordered_wChars (by decide)).1.mpr hin,
    (wrlWcwidth_spec wChars ⟨0, 0⟩ 0x303F ordered_wChars (by decide)).2.1.mpr hout⟩

end Readline
end UtilWin
