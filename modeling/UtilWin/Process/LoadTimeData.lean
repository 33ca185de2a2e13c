import UtilWin.Process.PrepareDll
import Mathlib.Logic.Basic

/-!
# What `prepare_dll` recovers

The loader adds a multiple of 64 KiB to the relocated words of a section, and the program then writes
what it likes.  `prepare_dll` takes a word from memory if it has the low 16 bits of the word in the file.
So a relocated word is recovered as long as nothing has been written to it, unless it is zero in the file;
and a word that is not relocated is lost if something else with the same low 16 bits has been written to
it.  The loop takes whole words, and the last one may end behind the buffer (`Recoverable`).

Where a call fails, the buffer is freed if it is one of those that are looked at (`Caught`).
-/

namespace UtilWin
namespace PrepareDll

/-! ## The loop -/

section

variable {k : PointerSize} {mem : ℕ → UInt8} {toRead off p i : ℕ} {op : Buffer}

theorem PointerSize.pos (k : PointerSize) : 0 < k.1 := by
  rcases k.2 with h | h <;> rw [h] <;> decide

/-- The byte of a position in its word. -/
theorem word_add_byte (k p : ℕ) : p / k * k + p % k = p := by
  rw [Nat.mul_comm]
  exact Nat.div_add_mod p k

/-- What the loop makes of a word. -/
def repaired (data mem : ℕ → UInt8) (k i : ℕ) : ℕ :=
  if leWord data (i * k) k = 0 ∨ leWord data (i * k) k % 0x10000 ≠ leWord mem (i * k) k % 0x10000 then
    leWord data (i * k) k
  else leWord mem (i * k) k

/-- One word is repaired, and the bytes outside it are kept. -/
theorem repair_data (k : ℕ) (mem : ℕ → UInt8) (i : ℕ) (op : Buffer) :
    leWord (repair k mem (i * k) op).data (i * k) k = repaired op.data mem k i ∧
      ∀ p, p < i * k ∨ i * k + k ≤ p → (repair k mem (i * k) op).data p = op.data p := by
  dsimp only [repair, repaired]
  by_cases hzero : leWord op.data (i * k) k = 0
  · rw [if_pos hzero, if_pos (Or.inl hzero)]
    exact ⟨rfl, fun p _ => rfl⟩
  · rw [if_neg hzero]
    by_cases hlow : leWord op.data (i * k) k % 0x10000 = leWord mem (i * k) k % 0x10000
    · rw [if_pos hlow, if_neg (by rw [not_or, not_not]; exact ⟨hzero, hlow⟩)]
      refine ⟨leWord_congr fun j hj => ?_, fun p hp => ?_⟩
      · exact (leStore_leWord ..).trans (if_pos (by omega))
      · exact (leStore_leWord ..).trans (if_neg (by omega))
    · rw [if_neg hlow, if_pos (Or.inr hlow)]
      exact ⟨rfl, fun p _ => rfl⟩

theorem repair_touched (k : ℕ) (mem : ℕ → UInt8) (off : ℕ) (op : Buffer) (t : ℕ × ℕ) :
    t ∈ (repair k mem off op).touched ↔ t ∈ op.touched ∨ t = (off, k) := by
  dsimp only [repair]
  split_ifs <;> simp

/-- Words do not overlap. -/
theorem word_ne {k i j : ℕ} (hij : i < j) : i * k + k ≤ j * k := by
  rw [← Nat.succ_mul]
  exact Nat.mul_le_mul_right k hij

/-- **The whole loop**, from a word on. -/
theorem sweep_spec (k : PointerSize) (mem : ℕ → UInt8) (toRead n : ℕ) (op : Buffer) :
    (∀ i, n ≤ i → i * k < toRead →
      leWord (sweep k mem toRead (n * k) op).data (i * k) k = repaired op.data mem k i) ∧
    (∀ p, (∀ i, n ≤ i → i * k < toRead → p < i * k ∨ i * k + k ≤ p) →
      (sweep k mem toRead (n * k) op).data p = op.data p) ∧
    ∀ t, t ∈ (sweep k mem toRead (n * k) op).touched ↔
      t ∈ op.touched ∨ ∃ i, n ≤ i ∧ i * k < toRead ∧ t = (i * k, k.1) := by
  have hk := PointerSize.pos k
  by_cases hlt : n * k < toRead
  · have hstep : sweep k mem toRead (n * k) op =
        sweep k mem toRead ((n + 1) * k) (repair k mem (n * k) op) := by
      rw [sweep, if_pos hlt, Nat.succ_mul]
    obtain ⟨hwords, hrest, htouched⟩ := sweep_spec k mem toRead (n + 1) (repair k mem (n * k) op)
    obtain ⟨hword, hkept⟩ := repair_data k.1 mem n op
    rw [hstep]
    refine ⟨fun i hi hir => ?_, fun p hp => ?_, fun t => ?_⟩
    · rcases Nat.lt_or_eq_of_le hi with hlt' | rfl
      · -- a later word is not changed by this step
        have hsame : ∀ j < k.1, (repair k mem (n * k) op).data (i * k + j) = op.data (i * k + j) :=
          fun j _ => hkept _ (Or.inr (Nat.le_trans (word_ne hlt') (Nat.le_add_right _ _)))
        rw [hwords i hlt' hir, repaired, repaired, leWord_congr hsame]
      · -- this word is not changed by later steps
        rw [← hword]
        refine leWord_congr fun j hj => hrest _ fun i hi _ => Or.inl ?_
        have := word_ne (k := k.1) hi
        omega
    · rw [hrest p fun i hi hir => hp i (Nat.le_of_succ_le hi) hir]
      exact hkept p (hp n (Nat.le_refl n) hlt)
    · rw [htouched, repair_touched, or_assoc]
      refine or_congr_right ?_
      constructor
      · rintro (rfl | ⟨i, hi, hir, rfl⟩)
        · exact ⟨n, Nat.le_refl n, hlt, rfl⟩
        · exact ⟨i, Nat.le_of_succ_le hi, hir, rfl⟩
      · rintro ⟨i, hi, hir, rfl⟩
        rcases Nat.lt_or_eq_of_le hi with hlt' | rfl
        · exact Or.inr ⟨i, hlt', hir, rfl⟩
        · exact Or.inl rfl
  · have hstop : sweep k mem toRead (n * k) op = op := by rw [sweep, if_neg hlt]
    have hnone : ∀ i, n ≤ i → ¬ i * k < toRead := fun i hi hir =>
      hlt (Nat.lt_of_le_of_lt (Nat.mul_le_mul_right k.1 hi) hir)
    rw [hstop]
    refine ⟨fun i hi hir => absurd hir (hnone i hi), fun p _ => rfl, fun t => ?_⟩
    constructor
    · exact Or.inl
    · rintro (ht | ⟨i, hi, hir, -⟩)
      · exact ht
      · exact absurd hir (hnone i hi)
termination_by toRead - n * k
decreasing_by
  rw [Nat.succ_mul]
  omega

end

/-! ## What is to be recovered -/

/-- `min(datah->SizeOfRawData, datah->Misc.VirtualSize)`. -/
def SectionHeader.toRead (datah : SectionHeader) : ℕ := min datah.sizeOfRawData datah.virtualSize

section

variable (k : PointerSize) (dll : Dll) (datah : SectionHeader)

/-- The section in the file, which is zero behind the raw data. -/
def fileByte (p : ℕ) : UInt8 :=
  if p < datah.sizeOfRawData then dll.file.getD (datah.pointerToRawData + p) 0 else 0

/-- A word of the section in the file. -/
def fileWord (i : ℕ) : ℕ := leWord (fileByte dll datah) (i * k) k

/-- A word of the section in memory, as it is now. -/
def liveWord (i : ℕ) : ℕ := leWord (fun p => dll.memory (datah.virtualAddress + p)) (i * k) k

end

/-- What the loader has done: the distance the DLL has been moved, a multiple of 64 KiB, and the words of
`.data` it has added that to.  The raw data is in the file, or it had not been loaded. -/
structure Loading (k : PointerSize) (dll : Dll) where
  delta : ℕ
  relocated : ℕ → Bool
  dvd : 0x10000 ∣ delta
  lt : delta < 256 ^ k.1
  raw_le : ∀ datah, dll.datah = some datah →
    datah.pointerToRawData + datah.sizeOfRawData ≤ dll.file.length
  relocated_lt : ∀ datah, dll.datah = some datah →
    ∀ i, relocated i = true → i * k < datah.sizeOfRawData

variable {k : PointerSize} {dll : Dll}

/-- A word of the section as the loader left it. -/
def Loading.loadWord (ld : Loading k dll) (datah : SectionHeader) (i : ℕ) : ℕ :=
  (fileWord k dll datah i + if ld.relocated i then ld.delta else 0) % 256 ^ k.1

/-- All calls succeed. -/
structure Answers.AllOk (a : Answers) : Prop where
  getModuleHandle : a.getModuleHandle = true
  getModuleFileName : a.getModuleFileName = true
  heapAlloc : a.heapAlloc = true
  createFile : a.createFile = true
  setFilePointer : a.setFilePointer = true
  readFile : a.readFile = true

/-- The ranges of the buffer that have been read or written. -/
def Outcome.touched : Outcome → List (ℕ × ℕ)
  | crash => []
  | returned _ _ _ touched => touched

/-- What `prepare_dll` is to do. -/
structure Reconstructs (ld : Loading k dll) (a : Answers) : Prop where
  /-- The buffer holds the section as the loader left it, which is zero behind the raw data. -/
  built : a.AllOk → ∀ datah, dll.datah = some datah → ∃ op touched,
    prepareDll k dll a none = .returned 0 (some op) true touched ∧
      op.modbase = dll.base ∧ op.offset = datah.virtualAddress ∧ op.size = datah.virtualSize ∧
      (∀ p < datah.virtualSize, op.data p = leByte (ld.loadWord datah (p / k)) (p % k)) ∧
      ∀ p < datah.virtualSize, datah.sizeOfRawData ≤ p / k * k → op.data p = 0
  /-- Nothing behind the buffer is read or written. -/
  inside : ∀ datah, dll.datah = some datah → ∀ t ∈ (prepareDll k dll a none).touched,
    t.1 + t.2 ≤ datah.virtualSize
  /-- If a call fails, `*optr` is `NULL` and there is no buffer left. -/
  failing : ¬ a.AllOk → ∃ ret touched,
    prepareDll k dll a none = .returned ret none false touched

/-- The condition on the section. -/
structure Recoverable (ld : Loading k dll) (datah : SectionHeader) : Prop where
  /-- The last word that is looked at ends in the buffer. -/
  whole : ∀ i, i * k < datah.toRead → i * k + k ≤ datah.virtualSize
  /-- A word that the loader has not changed is zero in the file, or it still holds what it held, or
  something that differs in the low 16 bits. -/
  kept : ∀ i, i * k < datah.toRead → ld.relocated i = false ∨ ld.delta = 0 →
    fileWord k dll datah i = 0 ∨
      liveWord k dll datah i % 0x10000 ≠ fileWord k dll datah i % 0x10000 ∨
      liveWord k dll datah i = fileWord k dll datah i
  /-- A word that the loader has changed is not zero in the file, and it still holds what the loader has
  put there. -/
  relocated : ∀ i, i * k < datah.toRead → ld.relocated i = true → ld.delta ≠ 0 →
    fileWord k dll datah i ≠ 0 ∧ liveWord k dll datah i = ld.loadWord datah i

/-- The condition on the calls that fail: `prepare_dll` looks at the result of one of them, or it has
nothing to do. -/
def Caught (dll : Dll) (a : Answers) : Prop :=
  a.getModuleHandle = true ∧
    (dll.datah = none ∨ a.heapAlloc = false ∨ a.createFile = false ∨ a.readFile = false)

/-! ## Word by word -/

variable {ld : Loading k dll} {a : Answers} {datah : SectionHeader} {i : ℕ}

theorem loadWord_of_not (h : ld.relocated i = false ∨ ld.delta = 0) :
    ld.loadWord datah i = fileWord k dll datah i := by
  have hlt : fileWord k dll datah i < 256 ^ k.1 := leWord_lt _ _ _
  rw [Loading.loadWord]
  rcases h with h | h
  · rw [h, if_neg Bool.false_ne_true, Nat.add_zero, Nat.mod_eq_of_lt hlt]
  · rw [h, ite_self, Nat.add_zero, Nat.mod_eq_of_lt hlt]

/-- A relocation does change a word, -/
theorem loadWord_ne (h : ld.relocated i = true) (hdelta : ld.delta ≠ 0) :
    ld.loadWord datah i ≠ fileWord k dll datah i := by
  have hlt : fileWord k dll datah i < 256 ^ k.1 := leWord_lt _ _ _
  have hd := ld.lt
  rw [Loading.loadWord, if_pos h]
  intro heq
  rcases Nat.lt_or_ge (fileWord k dll datah i + ld.delta) (256 ^ k.1) with hno | hcarry
  · rw [Nat.mod_eq_of_lt hno] at heq
    omega
  · rw [Nat.mod_eq_sub_mod hcarry, Nat.mod_eq_of_lt (by omega)] at heq
    omega

/-- but not its low 16 bits. -/
theorem loadWord_mod : ld.loadWord datah i % 0x10000 = fileWord k dll datah i % 0x10000 := by
  have hpow : 0x10000 ∣ 256 ^ k.1 := by rcases k.2 with h | h <;> rw [h] <;> decide
  obtain ⟨c, hc⟩ := ld.dvd
  rw [Loading.loadWord, Nat.mod_mod_of_dvd _ hpow]
  split_ifs
  · rw [hc, Nat.add_mul_mod_self_left]
  · rfl

/-- **When the loop leaves the right word.** -/
theorem repaired_iff :
    (if fileWord k dll datah i = 0 ∨
        fileWord k dll datah i % 0x10000 ≠ liveWord k dll datah i % 0x10000 then
      fileWord k dll datah i else liveWord k dll datah i) = ld.loadWord datah i ↔
    (ld.relocated i = false ∨ ld.delta = 0 → fileWord k dll datah i = 0 ∨
      liveWord k dll datah i % 0x10000 ≠ fileWord k dll datah i % 0x10000 ∨
      liveWord k dll datah i = fileWord k dll datah i) ∧
    (ld.relocated i = true → ld.delta ≠ 0 →
      fileWord k dll datah i ≠ 0 ∧ liveWord k dll datah i = ld.loadWord datah i) := by
  by_cases hsame : ld.relocated i = false ∨ ld.delta = 0
  · have hload : ld.loadWord datah i = fileWord k dll datah i := loadWord_of_not hsame
    have hvacuous : ld.relocated i = true → ¬ ld.delta ≠ 0 := by
      rintro hr hd
      rcases hsame with h | h
      · rw [hr] at h
        cases h
      · exact hd h
    rw [hload, and_iff_left fun hr hd => absurd hd (hvacuous hr)]
    split_ifs with hkeep
    · refine iff_of_true rfl fun _ => ?_
      rcases hkeep with h | h
      · exact Or.inl h
      · exact Or.inr (Or.inl fun heq => h heq.symm)
    · rw [not_or, not_not] at hkeep
      constructor
      · exact fun h _ => Or.inr (Or.inr h)
      · intro h
        rcases h hsame with h | h | h
        · exact absurd h hkeep.1
        · exact absurd hkeep.2.symm h
        · exact h
  · rw [not_or, Bool.not_eq_false] at hsame
    obtain ⟨hr, hd⟩ := hsame
    have hne : ld.loadWord datah i ≠ fileWord k dll datah i := loadWord_ne hr hd
    have hlow : ld.loadWord datah i % 0x10000 = fileWord k dll datah i % 0x10000 := loadWord_mod
    have hnot : ¬ (ld.relocated i = false ∨ ld.delta = 0) := by
      rw [hr, not_or]
      exact ⟨fun h => Bool.noConfusion h, hd⟩
    rw [and_iff_right fun h => absurd h hnot]
    split_ifs with hkeep
    · refine iff_of_false (fun h => hne h.symm) fun h => ?_
      obtain ⟨hzero, hlive⟩ := h hr hd
      rcases hkeep with hkeep | hkeep
      · exact hzero hkeep
      · rw [hlive, hlow] at hkeep
        exact hkeep rfl
    · rw [not_or] at hkeep
      constructor
      · exact fun h _ _ => ⟨hkeep.1, h⟩
      · exact fun h => (h hr hd).2

/-! ## The run -/

/-- The buffer in front of the loop. -/
def filled (dll : Dll) (datah : SectionHeader) (a : Answers) (p : ℕ) : UInt8 :=
  if p < datah.virtualSize then fileByte dll datah p else a.fresh p

/-- If all calls succeed. -/
theorem prepareDll_of_allOk (ld : Loading k dll) (ha : a.AllOk) (hdatah : dll.datah = some datah) :
    ∃ op : Buffer, prepareDll k dll a none = .returned 0
        (some ⟨dll.base, datah.virtualAddress, datah.virtualSize, op.data⟩) true op.touched ∧
      (∀ i, i * k < datah.toRead → leWord op.data (i * k) k =
        repaired (filled dll datah a) (fun p => dll.memory (datah.virtualAddress + p)) k i) ∧
      (∀ p < datah.virtualSize, datah.toRead ≤ p / k * k → op.data p = 0) ∧
      ∀ t, t ∈ op.touched ↔ t = (0, datah.virtualSize) ∨ t = (0, datah.toRead) ∨
        ∃ i, i * k < datah.toRead ∧ t = (i * k, k.1) := by
  have hraw := ld.raw_le datah hdatah
  have hrlen : min datah.toRead (dll.file.length - datah.pointerToRawData) = datah.toRead := by
    rw [SectionHeader.toRead]
    omega
  obtain ⟨hwords, hrest, htouched⟩ := sweep_spec k
    (fun p => dll.memory (datah.virtualAddress + p)) datah.toRead 0
    (Buffer.fill datah.toRead (fun p => dll.file.getD (datah.pointerToRawData + p) 0)
      (Buffer.fill datah.virtualSize (fun _ => 0) ⟨a.fresh, []⟩))
  have hfilled : (Buffer.fill datah.toRead (fun p => dll.file.getD (datah.pointerToRawData + p) 0)
      (Buffer.fill datah.virtualSize (fun _ => 0) ⟨a.fresh, []⟩)).data = filled dll datah a := by
    funext p
    simp only [Buffer.fill, filled, fileByte, SectionHeader.toRead]
    split_ifs <;> first | rfl | omega
  rw [hfilled] at hwords hrest
  rw [Nat.zero_mul] at hwords hrest htouched
  refine ⟨_, ?_, fun i hi => hwords i (Nat.zero_le i) hi, fun p hp hread => ?_, fun t => ?_⟩
  · rw [prepareDll, ha.getModuleHandle, hdatah, ha.heapAlloc]
    simp only [not_true_eq_false, if_false, readSection, ha.createFile, ha.readFile,
      ha.getModuleFileName, ha.setFilePointer, if_true]
    rw [← SectionHeader.toRead, hrlen]
  · -- no word of the loop reaches this far
    have hword := word_add_byte k p
    have hbehind : datah.sizeOfRawData ≤ p := by
      rw [SectionHeader.toRead] at hread
      omega
    rw [hrest p fun i _ hi => Or.inr ?_, filled, if_pos hp, fileByte, if_neg (by omega)]
    have hik : i < p / k := by
      by_contra hle
      have := Nat.mul_le_mul_right k.1 (Nat.not_lt.mp hle)
      omega
    have := word_ne (k := k.1) hik
    omega
  · rw [htouched]
    simp only [Buffer.fill, List.nil_append, List.singleton_append, List.mem_cons,
      List.not_mem_nil, or_false, or_assoc, Nat.zero_le, true_and]

/-- The loop finds the words of the file, if the buffer has room for them. -/
theorem leWord_filled (hwhole : i * k + k ≤ datah.virtualSize) :
    leWord (filled dll datah a) (i * k) k = fileWord k dll datah i :=
  leWord_congr fun _ hj => if_pos (by omega)

/-- The word the loop leaves. -/
theorem repaired_filled (hwhole : i * k + k ≤ datah.virtualSize) :
    repaired (filled dll datah a) (fun p => dll.memory (datah.virtualAddress + p)) k i =
      if fileWord k dll datah i = 0 ∨
          fileWord k dll datah i % 0x10000 ≠ liveWord k dll datah i % 0x10000 then
        fileWord k dll datah i else liveWord k dll datah i := by
  rw [repaired, leWord_filled hwhole]
  rfl

theorem loadWord_lt : ld.loadWord datah i < 256 ^ k.1 :=
  Nat.mod_lt _ (Nat.pow_pos (by decide))

/-- Behind the raw data a section is zero. -/
theorem loadWord_of_raw_le (hdatah : dll.datah = some datah) (hi : datah.sizeOfRawData ≤ i * k) :
    ld.loadWord datah i = 0 := by
  have hr : ld.relocated i = false := by
    rw [Bool.eq_false_iff]
    intro hr
    exact absurd (ld.relocated_lt datah hdatah i hr) (Nat.not_lt.mpr hi)
  rw [loadWord_of_not (Or.inl hr)]
  refine leWord_of_leByte (Nat.pow_pos (by decide)) fun j _ => ?_
  rw [fileByte, if_neg (by omega), leByte, Nat.zero_div]
  rfl

/-- Where `prepare_dll` looks at the result of a call that fails, it has only zeroed the buffer. -/
theorem Caught.run (h : Caught dll a) : ∃ ret touched,
    prepareDll k dll a none = .returned ret none false touched ∧
      ∀ datah, dll.datah = some datah → ∀ t ∈ touched, t = (0, datah.virtualSize) := by
  obtain ⟨hmod, hcaught⟩ := h
  simp only [prepareDll, hmod, not_true_eq_false, if_false]
  cases hdatah : dll.datah with
  | none => exact ⟨-1, [], rfl, fun _ h => nomatch h⟩
  | some datah =>
    dsimp only
    by_cases halloc : a.heapAlloc = true
    · have hlater : a.createFile = false ∨ a.readFile = false := by
        rcases hcaught with h | h | h
        · rw [hdatah] at h
          cases h
        · rw [halloc] at h
          cases h
        · exact h
      rw [if_neg (not_not.mpr halloc)]
      refine ⟨-1, [(0, datah.virtualSize)], ?_, fun _ h t ht => ?_⟩
      · simp only [readSection]
        by_cases hopen : a.createFile = true
        · have hread : a.readFile = false := by
            rcases hlater with h | h
            · rw [hopen] at h
              cases h
            · exact h
          rw [if_neg (not_not.mpr hopen), if_pos (by rw [hread]; exact Bool.false_ne_true)]
          rfl
        · rw [if_pos hopen]
          rfl
      · cases h
        exact List.mem_singleton.mp ht
    · rw [if_pos halloc]
      exact ⟨-1, [], rfl, fun _ _ t ht => absurd ht List.not_mem_nil⟩

/-- Where it looks at none, it crashes or has a buffer in the end. -/
theorem not_caught_run (h : ¬ Caught dll a) (ret : ℤ) (touched : List (ℕ × ℕ)) :
    prepareDll k dll a none ≠ .returned ret none false touched := by
  rw [prepareDll]
  by_cases hmod : a.getModuleHandle = true
  · rw [Caught, not_and] at h
    simp only [not_or, Bool.not_eq_false] at h
    obtain ⟨hdatah, halloc, hopen, hread⟩ := h hmod
    obtain ⟨datah, hdatah⟩ := Option.ne_none_iff_exists'.mp hdatah
    rw [if_neg (not_not.mpr hmod), hdatah]
    dsimp only
    rw [if_neg (not_not.mpr halloc), readSection]
    dsimp only
    rw [if_neg (not_not.mpr hopen), if_neg (not_not.mpr hread)]
    exact fun heq => nomatch heq
  · rw [if_pos hmod]
    exact fun heq => nomatch heq

/-! ## When the section is recovered -/

theorem Recoverable.reconstructs (hok : a.AllOk → ∀ datah, dll.datah = some datah →
    Recoverable ld datah) (hfail : ¬ a.AllOk → Caught dll a) : Reconstructs ld a := by
  refine ⟨fun ha datah hdatah => ?_, fun datah hdatah t ht => ?_, fun ha => ?_⟩
  · have h := hok ha datah hdatah
    obtain ⟨op, hrun, hwords, hzero, -⟩ := prepareDll_of_allOk ld ha hdatah
    have hbytes : ∀ p < datah.virtualSize,
        op.data p = leByte (ld.loadWord datah (p / k)) (p % k) := by
      intro p hp
      have hsplit := word_add_byte k p
      rcases Nat.lt_or_ge (p / k * k) datah.toRead with hlt | hge
      · have hword : leWord op.data (p / k * k) k = ld.loadWord datah (p / k) := by
          rw [hwords _ hlt, repaired_filled (h.whole _ hlt)]
          exact repaired_iff.mpr ⟨h.kept _ hlt, h.relocated _ hlt⟩
        rw [← hword, leByte_leWord (Nat.mod_lt p (PointerSize.pos k)), hsplit]
      · have hraw : datah.sizeOfRawData ≤ p / k * k := by
          rw [SectionHeader.toRead] at hge
          omega
        rw [hzero p hp hge, loadWord_of_raw_le hdatah hraw, leByte, Nat.zero_div]
        rfl
    refine ⟨_, _, hrun, rfl, rfl, rfl, hbytes, fun p hp hraw => ?_⟩
    exact hzero p hp (Nat.le_trans (Nat.min_le_left _ _) hraw)
  · by_cases ha : a.AllOk
    · obtain ⟨op, hrun, -, -, htouched⟩ := prepareDll_of_allOk ld ha hdatah
      rw [hrun, Outcome.touched, htouched] at ht
      rcases ht with rfl | rfl | ⟨i, hi, rfl⟩
      · exact Nat.le_of_eq (Nat.zero_add _)
      · exact Nat.le_trans (Nat.le_of_eq (Nat.zero_add _)) (Nat.min_le_right _ _)
      · exact (hok ha datah hdatah).whole i hi
    · obtain ⟨ret, touched, hrun, htouched⟩ := (hfail ha).run (k := k)
      rw [hrun] at ht
      rw [htouched datah hdatah t ht]
      exact Nat.le_of_eq (Nat.zero_add _)
  · obtain ⟨ret, touched, hrun, -⟩ := (hfail ha).run (k := k)
    exact ⟨ret, touched, hrun⟩

theorem Reconstructs.caught (h : Reconstructs ld a) (ha : ¬ a.AllOk) : Caught dll a := by
  obtain ⟨ret, touched, hrun⟩ := h.failing ha
  by_contra hnot
  exact not_caught_run hnot ret touched hrun

theorem Reconstructs.recoverable (h : Reconstructs ld a) (ha : a.AllOk)
    (hdatah : dll.datah = some datah) : Recoverable ld datah := by
  obtain ⟨op, hrun, hwords, -, htouched⟩ := prepareDll_of_allOk ld ha hdatah
  have hwhole : ∀ i, i * k < datah.toRead → i * k + k ≤ datah.virtualSize := by
    intro i hi
    refine h.inside datah hdatah (i * k, k.1) ?_
    rw [hrun, Outcome.touched, htouched]
    exact Or.inr (Or.inr ⟨i, hi, rfl⟩)
  obtain ⟨op', touched, hrun', -, -, -, hbytes, -⟩ := h.built ha datah hdatah
  rw [hrun] at hrun'
  cases hrun'
  have hword : ∀ i, i * k < datah.toRead →
      (if fileWord k dll datah i = 0 ∨
          fileWord k dll datah i % 0x10000 ≠ liveWord k dll datah i % 0x10000 then
        fileWord k dll datah i else liveWord k dll datah i) = ld.loadWord datah i := by
    intro i hi
    rw [← repaired_filled (a := a) (hwhole i hi), ← hwords i hi]
    refine leWord_of_leByte loadWord_lt fun j hj => ?_
    have hk := PointerSize.pos k
    have hdiv : (i * k + j) / k = i := by
      rw [Nat.mul_comm, Nat.mul_add_div hk, Nat.div_eq_of_lt hj, Nat.add_zero]
    have hmod : (i * k + j) % k = j := by
      rw [Nat.mul_comm, Nat.mul_add_mod, Nat.mod_eq_of_lt hj]
    have hbyte := hbytes (i * k + j) (by have := hwhole i hi; omega)
    rwa [hdiv, hmod] at hbyte
  exact ⟨hwhole, fun i hi => (repaired_iff.mp (hword i hi)).1,
    fun i hi => (repaired_iff.mp (hword i hi)).2⟩

/-- **`prepare_dll` has the section as the loader left it, or has nothing, if and only if the section is
recoverable and a call that fails is one whose result is looked at.** -/
theorem reconstructs_iff {k : PointerSize} {dll : Dll} (ld : Loading k dll) (a : Answers) :
    Reconstructs ld a ↔
      (a.AllOk → ∀ datah, dll.datah = some datah → Recoverable ld datah) ∧
        (¬ a.AllOk → Caught dll a) :=
  ⟨fun h => ⟨fun ha _ => h.recoverable ha, h.caught⟩, fun h => Recoverable.reconstructs h.1 h.2⟩

/-- A section of one word, which is not relocated: 0x10005 in the file, and 0x20005 in memory now. -/
def oneWord : Dll where
  base := 0x180000000
  secs := [⟨dataName, 8, 0, 8, 0⟩]
  memory p := [5, 0, 2, 0, 0, 0, 0, 0].getD p 0
  file := [5, 0, 1, 0, 0, 0, 0, 0]

/-- It has been loaded where it was linked to. -/
def oneWordLoading : Loading ⟨8, Or.inl rfl⟩ oneWord where
  delta := 0
  relocated _ := false
  dvd := ⟨0, rfl⟩
  lt := by decide
  raw_le datah h := by
    obtain rfl : _ = datah := Option.some.inj h
    decide
  relocated_lt _ _ _ h := nomatch h

/-- What has been written to the word is taken for the initial value. -/
theorem not_reconstructs_oneWord :
    ¬ ∀ (k : PointerSize) (dll : Dll) (ld : Loading k dll) (a : Answers), Reconstructs ld a := by
  intro hall
  have h := hall ⟨8, Or.inl rfl⟩ oneWord oneWordLoading
    ⟨true, true, true, true, true, true, fun _ => 0, []⟩
  have hrec := h.recoverable ⟨rfl, rfl, rfl, rfl, rfl, rfl⟩ rfl
  exact absurd (hrec.kept 0 (by decide) (Or.inl rfl)) (by decide)

end PrepareDll
end UtilWin
