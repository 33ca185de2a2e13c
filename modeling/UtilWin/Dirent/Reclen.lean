import UtilWin.Dirent.Stream

/-!
# The length of an entry

`readdir` builds its entry in the 1024 bytes of `abuf`, and `readdir_r` copies `d_reclen` bytes of it
into the `struct dirent` of its caller, which has 272.  Three sizes meet here that were chosen apart
from each other: `abuf`, the array `d_name`, and `d_reclen`, which is the length of the name in UTF-8
and what is before it, rounded up to eight.

A name of 255 code units may take 765 bytes.  That always fits `abuf`, but it fits a `struct dirent`
exactly when it fits `d_name` (`staysInside_iff`).
-/

namespace UtilWin
namespace Directory

/-- The offsets that `memcpy(buf, de, de->d_reclen)` reads in `abuf` and writes in the caller's
`struct dirent`. -/
def memcpyOffsets (de : Dirent) : List ℕ := List.range de.dReclen.toNat

/-- What a caller of `readdir_r` relies on when the entry is `fdi`. -/
structure StaysInside (fdi : FileInfo) : Prop where
  /-- `d_reclen` covers the name and its terminator. -/
  covers : offsetofDName + (Utf16.toUtf8 fdi.fileName).length + 1 ≤ (direntOf fdi).dReclen.toNat
  /-- The name is whole, and its terminator, the last byte that `readdir` writes, is in `abuf`. -/
  built : (direntOf fdi).dName = Utf16.toUtf8 fdi.fileName ∧
    offsetofDName + (direntOf fdi).dName.length < sizeofAbuf
  /-- The copy is read from inside `abuf`. -/
  copied : ∀ i ∈ memcpyOffsets (direntOf fdi), i < sizeofAbuf
  /-- The copy is written inside the caller's `struct dirent`. -/
  stored : ∀ i ∈ memcpyOffsets (direntOf fdi), i < sizeofDirent

theorem le_alignUp (n : ℕ) : n ≤ alignUp n := by
  rw [alignUp]
  omega

/-- Rounding up to eight does not pass a multiple of eight. -/
theorem alignUp_le_iff {n m : ℕ} (hm : 8 ∣ m) : alignUp n ≤ m ↔ n ≤ m := by
  rw [alignUp]
  omega

theorem forall_mem_memcpyOffsets_lt {de : Dirent} {n : ℕ} :
    (∀ i ∈ memcpyOffsets de, i < n) ↔ de.dReclen.toNat ≤ n := by
  constructor
  · intro h
    by_contra hlt
    exact absurd (h n (List.mem_range.mpr (by omega))) (by omega)
  · intro h i hi
    exact Nat.lt_of_lt_of_le (List.mem_range.mp hi) h

variable (fdi : FileInfo)

/-- A name takes at most 765 bytes. -/
theorem length_name_le : (Utf16.toUtf8 fdi.fileName).length ≤ 765 := by
  have h := Utf16.length_toUtf8_le fdi.fileName
  have := fdi.fileName_le
  omega

/-- There is always room for the name. -/
theorem wideCharToMultiByte_name :
    wideCharToMultiByte fdi.fileName nameRoom =
      ((Utf16.toUtf8 fdi.fileName).length, Utf16.toUtf8 fdi.fileName) := by
  have h := length_name_le fdi
  have hroom : nameRoom = 1012 := rfl
  rw [wideCharToMultiByte, if_pos (by omega)]

/-- `assert(q > 0)` in `readdir`: an entry has a name. -/
theorem wideCharToMultiByte_pos : 0 < (wideCharToMultiByte fdi.fileName nameRoom).1 := by
  rw [wideCharToMultiByte_name]
  exact Utf16.length_toUtf8_pos fdi.fileName_ne

@[simp] theorem dName_direntOf : (direntOf fdi).dName = Utf16.toUtf8 fdi.fileName := by
  rw [direntOf, wideCharToMultiByte_name]

/-- **The length of an entry**, with nothing cut off by its sixteen bits. -/
theorem dReclen_direntOf : (direntOf fdi).dReclen.toNat =
    alignUp (offsetofDName + (Utf16.toUtf8 fdi.fileName).length + 1) := by
  have h := length_name_le fdi
  have hoff : sizeofDirent - sizeofDName = 11 := rfl
  have hoff' : offsetofDName = 11 := rfl
  rw [direntOf, wideCharToMultiByte_name, hoff, hoff']
  simp only [BitVec.toNat_ofNat, alignUp]
  omega

/-- **An entry stays inside the caller's `struct dirent` exactly when its name fits `d_name`.** -/
theorem staysInside_iff :
    StaysInside fdi ↔ (Utf16.toUtf8 fdi.fileName).length + 1 ≤ sizeofDName := by
  have hname := length_name_le fdi
  have habuf : sizeofAbuf = 1024 := rfl
  have hoff : offsetofDName = 11 := rfl
  have hsize : sizeofDirent = 272 := rfl
  have hfield : sizeofDName = 261 := rfl
  constructor
  · intro h
    have hstored := forall_mem_memcpyOffsets_lt.mp h.stored
    rw [dReclen_direntOf, hsize, alignUp_le_iff (by decide)] at hstored
    omega
  · intro h
    refine ⟨?_, ⟨dName_direntOf fdi, ?_⟩, ?_, ?_⟩
    · rw [dReclen_direntOf]
      exact le_alignUp _
    · rw [dName_direntOf]
      omega
    · rw [forall_mem_memcpyOffsets_lt, dReclen_direntOf, habuf, alignUp_le_iff (by decide)]
      omega
    · rw [forall_mem_memcpyOffsets_lt, dReclen_direntOf, hsize, alignUp_le_iff (by decide)]
      omega

/-- A file with a name of 87 characters that take three bytes each. -/
def longNamed : FileInfo where
  fileId := 7
  fileAttributes := 0x20
  fileName := List.replicate 87 0x4e00
  fileName_ne := List.cons_ne_nil _ _
  fileName_le := by rw [List.length_replicate]; decide

/-- Its entry has 280 bytes, eight more than a `struct dirent`. -/
theorem longNamed_not_staysInside : ¬ StaysInside longNamed := by
  intro h
  have hlen : (Utf16.toUtf8 longNamed.fileName).length = 261 := by
    rw [longNamed, Utf16.length_toUtf8_replicate (by decide)]
    rfl
  have hstored := forall_mem_memcpyOffsets_lt.mp h.stored
  rw [dReclen_direntOf, hlen] at hstored
  exact absurd hstored (by decide)

end Directory
end UtilWin
