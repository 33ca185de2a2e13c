import Mathlib.Data.List.Induction
import UtilWin.Readline.Encoding

/-!
# Surrogates that have no other half

A low surrogate is combined with whatever `m_chtmp` holds.  That is the right high surrogate when the
last unit before it, zeros apart, was one (`mChtmp_of_lastUnit`).  Otherwise it is a high surrogate
from further back, since ASCII does not clear `m_chtmp`, or zero, or what was in the memory that the
constructor was given: four bytes come out that are no encoding of anything, or an encoding of a
character that is not in the input.
-/

namespace UtilWin
namespace Console

/-- The keys after these units, since a construction that found `mChtmp` in its memory. -/
def keysAfter (mChtmp : UInt16) (units : List UInt16) : Keys :=
  (addWchs ⟨mChtmp, false, false⟩ [] units).1

/-- The last unit that is not zero. -/
def lastUnit (units : List UInt16) : Option UInt16 := (units.filter (· ≠ 0)).getLast?

/-- What may be made of the low surrogate `v` with `previous` before it: nothing, the replacement
character, or the character of the pair. -/
def Combined (previous : Option UInt16) (v : UInt16) (bytes : List UInt8) : Prop :=
  bytes = [] ∨ bytes = String.utf8EncodeChar Utf16.replacement ∨
    ∃ h, previous = some h ∧ Utf16.IsHigh h ∧
      bytes = String.utf8EncodeChar (Utf16.pairChar h v)

/-- What `units` add when `earlier` has been there is UTF-8, and each low surrogate is combined only
with a high one right before it. -/
structure EmitsUtf8 (mChtmp : UInt16) (earlier units : List UInt16) : Prop where
  /-- The bytes are encodings of scalar values, one after the other. -/
  valid : (addWchs (keysAfter mChtmp earlier) [] units).2.toByteArray.IsValidUTF8
  /-- Low surrogates. -/
  combined : ∀ pre v post, units = pre ++ v :: post → Utf16.IsLow v →
    Combined (lastUnit (earlier ++ pre)) v (addWch (keysAfter mChtmp (earlier ++ pre)) [] v).2

/-- Each low surrogate of `units` has a high one right before it, zeros apart. -/
def Paired (earlier units : List UInt16) : Prop :=
  ∀ pre v post, units = pre ++ v :: post → Utf16.IsLow v →
    ∃ h, lastUnit (earlier ++ pre) = some h ∧ Utf16.IsHigh h

theorem keysAfter_append (mChtmp : UInt16) (units units' : List UInt16) :
    keysAfter mChtmp (units ++ units') = (addWchs (keysAfter mChtmp units) [] units').1 := by
  rw [keysAfter, addWchs_append, addWchs_frame]
  rfl

theorem keysAfter_snoc (mChtmp : UInt16) (units : List UInt16) (wch : UInt16) :
    keysAfter mChtmp (units ++ [wch]) = (addWch (keysAfter mChtmp units) [] wch).1 :=
  keysAfter_append mChtmp units [wch]

theorem lastUnit_snoc (units : List UInt16) (wch : UInt16) :
    lastUnit (units ++ [wch]) = if wch = 0 then lastUnit units else some wch := by
  rw [lastUnit, List.filter_append]
  split_ifs with hzero
  · rw [hzero]
    exact congrArg List.getLast? (List.append_nil _)
  · rw [List.filter_cons_of_pos (by simpa using hzero)]
    exact List.getLast?_concat

/-- A high surrogate right before is in `m_chtmp`. -/
theorem mChtmp_of_lastUnit (mChtmp : UInt16) {units : List UInt16} {h : UInt16}
    (hlast : lastUnit units = some h) (hhigh : Utf16.IsHigh h) :
    (keysAfter mChtmp units).mChtmp = h := by
  induction units using List.reverseRecOn with
  | nil => cases hlast
  | append_singleton units wch ih =>
    rw [lastUnit_snoc] at hlast
    rw [keysAfter_snoc]
    split_ifs at hlast with hzero
    · rw [hzero]
      exact ih hlast
    · obtain rfl : wch = h := Option.some.inj hlast
      rw [addWch_high _ _ hhigh]

/-- So the pair is what is encoded. -/
theorem addWch_after_high (mChtmp : UInt16) {earlier : List UInt16} {h v : UInt16}
    (hlast : lastUnit earlier = some h) (hhigh : Utf16.IsHigh h) (hlow : Utf16.IsLow v) :
    (addWch (keysAfter mChtmp earlier) [] v).2 = String.utf8EncodeChar (Utf16.pairChar h v) := by
  have hchtmp := mChtmp_of_lastUnit mChtmp hlast hhigh
  have hpair := addWch_pair (t := keysAfter mChtmp earlier) [] (by rw [hchtmp]; exact hhigh) hlow
  rwa [hchtmp, List.nil_append] at hpair

/-- One unit adds nothing or a character, unless it is a low surrogate. -/
theorem addWch_valid (t : Keys) {wch : UInt16} (hlow : ¬ Utf16.IsLow wch) :
    (addWch t [] wch).2.toByteArray.IsValidUTF8 := by
  by_cases hzero : wch = 0
  · rw [addWch, if_pos hzero]
    exact ByteArray.isValidUTF8_empty
  by_cases hhigh : Utf16.IsHigh wch
  · rw [addWch_high t [] hhigh]
    exact ByteArray.isValidUTF8_empty
  · rw [addWch_unit t [] hzero hhigh hlow]
    exact Char.isValidUTF8_toByteArray_utf8EncodeChar

/-- Bytes after bytes. -/
theorem isValidUTF8_append {l l' : List UInt8} (h : l.toByteArray.IsValidUTF8)
    (h' : l'.toByteArray.IsValidUTF8) : (l ++ l').toByteArray.IsValidUTF8 := by
  rw [List.toByteArray_append]
  exact h.append h'

theorem Paired.tail {earlier units : List UInt16} {wch : UInt16}
    (h : Paired earlier (wch :: units)) : Paired (earlier ++ [wch]) units := by
  intro pre v post heq hlow
  rw [List.append_assoc]
  exact h (wch :: pre) v post (congrArg (wch :: ·) heq) hlow

theorem Paired.valid (mChtmp : UInt16) {earlier units : List UInt16} (h : Paired earlier units) :
    (addWchs (keysAfter mChtmp earlier) [] units).2.toByteArray.IsValidUTF8 := by
  induction units generalizing earlier with
  | nil => exact ByteArray.isValidUTF8_empty
  | cons wch units ih =>
    rw [addWchs_cons, addWchs_frame, ← keysAfter_snoc]
    refine isValidUTF8_append ?_ (ih h.tail)
    by_cases hlow : Utf16.IsLow wch
    · obtain ⟨h', hlast, hhigh⟩ := h [] wch units rfl hlow
      rw [List.append_nil] at hlast
      rw [addWch_after_high mChtmp hlast hhigh hlow]
      exact Char.isValidUTF8_toByteArray_utf8EncodeChar
    · exact addWch_valid _ hlow

/-- A low surrogate is never dropped or replaced. -/
theorem length_addWch_low (t : Keys) {v : UInt16} (hlow : Utf16.IsLow v) :
    (addWch t [] v).2.length = 4 := by
  rw [addWch_low t [] hlow]
  rfl

/-- **When the console reader emits UTF-8.**  Whatever the constructor found in `m_chtmp` and
whatever came earlier, exactly when each low surrogate has a high one right before it. -/
theorem emitsUtf8_iff (mChtmp : UInt16) (earlier units : List UInt16) :
    EmitsUtf8 mChtmp earlier units ↔ Paired earlier units := by
  constructor
  · intro h pre v post heq hlow
    have hlength := length_addWch_low (keysAfter mChtmp (earlier ++ pre)) hlow
    rcases h.combined pre v post heq hlow with hnil | hrepl | ⟨h', hlast, hhigh, -⟩
    · rw [hnil] at hlength
      cases hlength
    · rw [hrepl] at hlength
      cases hlength
    · exact ⟨h', hlast, hhigh⟩
  · intro h
    refine ⟨h.valid mChtmp, fun pre v post heq hlow => ?_⟩
    obtain ⟨h', hlast, hhigh⟩ := h pre v post heq hlow
    exact Or.inr (Or.inr ⟨h', hlast, hhigh, addWch_after_high mChtmp hlast hhigh hlow⟩)

/-- A low surrogate is the first thing that comes, and `m_chtmp` was zero.  The first byte is `F8`,
which begins no character. -/
theorem emitsUtf8_false_low_first : ¬ EmitsUtf8 0 [] [0xdc00] := by
  intro h
  have hfirst := h.valid.isUTF8FirstByte_getElem_zero (by decide)
  revert hfirst
  decide

/-- ASCII leaves `m_chtmp` alone, so a low surrogate after `A` goes with the high one before it. -/
example : (addWchs ⟨0, false, false⟩ [] [0xd83d, 0x41, 0xde00]).2 =
    0x41 :: String.utf8EncodeChar '😀' := by decide

end Console
end UtilWin
