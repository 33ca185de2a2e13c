import UtilWin.Process.DisasmSpec

/-!
# The flag word describes the instruction that was measured

A caller that knows the length of an instruction finds its opcode with the flag word: it indexes the
stream with `f & ILF_PLENMASK`.  The decoders put the flag word together in the table stages, from the
number of prefixes and the size of the ModRM part that also go into the length, so what a stage
returns agrees with itself (`OpcodeAt.answer`, `acceptFlags_fields`).

There is one other way out.  With nothing but prefixes up to the limit the decoders return the length
`1` and the flag word they were given, which is `0`: no prefix, and no mark that there is no
instruction.
-/

namespace UtilWin
namespace Disasm

open Probe

/-! ## The fields of a flag word -/

/-- The number of prefixes. -/
def plen (f : Flags) : ℕ := (f &&& ilfPlenMask).toNat

/-- The size of the ModRM part. -/
def modrmSize (f : Flags) : ℕ := ((f &&& ilfModrmMask) >>> ilfModrmShift).toNat

/-- The size of the opcode. -/
def opcodeSize (f : Flags) : ℕ := if f &&& ilf2Byte ≠ 0 then 2 else 1

/-- The sizes that an immediate can have. -/
def immSizes : List ℕ := [0, 1, 2, 3, 4, 6, 8]

/-- The bits that mean nothing. -/
def reservedMask : Flags := 0x88

/-- The length `n` and the flag word `f` describe an instruction that stands in the stream `b`. -/
structure Describes (m : Mode) (b : ℕ → Byte) (n : ℕ) (f : Flags) : Prop where
  /-- What is counted as prefixes is prefixes. -/
  isPrefix : ∀ i < plen f, m.IsPrefix (b i)
  /-- The opcode is none. -/
  opcode : ¬ m.IsPrefix (b (plen f))
  /-- It is the escape byte when the opcode is said to have two bytes. -/
  escape : b (plen f) = 0x0f ↔ f &&& ilf2Byte ≠ 0
  /-- The length is that of the parts. -/
  length : ∃ imm ∈ immSizes, n = plen f + opcodeSize f + modrmSize f + imm
  /-- Nothing else is said. -/
  reserved : f &&& reservedMask = 0
  /-- The operand is relative to the instruction pointer when there is a ModRM byte that says so. -/
  pcRela : m = .amd64 → (f &&& ilfPcRela ≠ 0 ↔
    modrmSize f ≠ 0 ∧ b (plen f + opcodeSize f) &&& 0xc7 = 0x5)
  /-- Its displacement then is the rest of the ModRM part. -/
  disp32 : f &&& ilfPcRela ≠ 0 → modrmSize f = 1 + 4

/-- What a caller relies on. -/
def FlagsAgree (m : Mode) (b : ℕ → Byte) : Prop :=
  1 ≤ (m.decoder.run b).1 ∧
    (¬ Invalid (m.decoder.run b) → Describes m b (m.decoder.run b).1 (m.decoder.run b).2)

theorem acceptFlags_fields : ∀ (k r : Fin 8) (two rela : Bool),
    let f := acceptFlags k (if two then ilf2Byte else 0) r (if rela then ilfPcRela else 0)
    plen f = k ∧ modrmSize f = r ∧ (f &&& ilf2Byte ≠ 0 ↔ two) ∧ (f &&& ilfPcRela ≠ 0 ↔ rela) ∧
      f &&& reservedMask = 0 := by
  decide +kernel

/-! ## The immediates -/

theorem imm_mem_ix86 : ∀ (op : Byte) (g : Bool),
    (lookup table1Ix86 op ≠ 0xff → immOf (lookup table1Ix86 op) op g 4 ∈ immSizes) ∧
      (lookup table2Ix86 op ≠ 0xff → (lookup table2Ix86 op &&& 0xf).toNat ∈ immSizes) := by
  decide +kernel

theorem imm_mem_amd64 : ∀ (op : Byte) (g : Bool),
    (lookup table1Amd64 op ≠ 0xff → immOf (lookup table1Amd64 op) op g 8 ∈ immSizes) ∧
      (lookup table2Amd64 op ≠ 0xff → (lookup table2Amd64 op &&& 0xf).toNat ∈ immSizes) := by
  decide +kernel

/-- The operand width changes a size to another one. -/
theorem addlenAmd64_mem {addlen : ℕ} (h : addlen ∈ immSizes) (width : ℕ) :
    addlenAmd64 addlen width ∈ immSizes := by
  unfold addlenAmd64
  split_ifs
  · decide
  · decide
  · decide
  · exact h

/-- A ModRM byte with `mod=00` and `rm=101` has four bytes of displacement behind it. -/
theorem modrmLen_of_rela {mb : Byte} (h : mb &&& 0xc7 = 0x5) (s : Byte) : modrmLen mb s = 1 + 4 := by
  obtain ⟨hmode, hrm⟩ := (modrm_fields mb).2.1.mp h
  simp only [modrmLen, hmode, hrm, if_true]
  rfl

/-! ## The two ways out -/

namespace Mode

variable {m : Mode} {b : ℕ → Byte} {k : ℕ}

/-- The entry of the opcode at `k`, one byte or two. -/
def entryAt (m : Mode) (b : ℕ → Byte) (k : ℕ) : Byte :=
  if b k = 0x0f then m.entry2 (b (k + 1)) else m.entry1 (b k)

/-- Where the ModRM byte of the opcode at `k` would be. -/
def modrmAt (b : ℕ → Byte) (k : ℕ) : ℕ := if b k = 0x0f then k + 2 else k + 1

/-- The size of its ModRM part. -/
def modrmSizeAt (m : Mode) (b : ℕ → Byte) (k : ℕ) : ℕ :=
  modrmPart (m.entryAt b k) (b (modrmAt b k)) (b (modrmAt b k + 1))

/-- The length and the flag word of the opcode at `k`, with `imm` bytes of immediate. -/
def answerAt (m : Mode) (b : ℕ → Byte) (k imm : ℕ) : Decoded :=
  (modrmAt b k + m.modrmSizeAt b k + imm,
    acceptFlags k (if b k = 0x0f then ilf2Byte else 0) (m.modrmSizeAt b k)
      (m.modrmFlags (m.entryAt b k) (b (modrmAt b k))))

/-- **An opcode is refused, or measured in parts that the flag word names.** -/
theorem OpcodeAt.answer (h : m.OpcodeAt b k) :
    m.decoder.run b = setBadInstruction 0 ∨
      ∃ imm ∈ immSizes, m.decoder.run b = m.answerAt b k imm := by
  rw [h.run_eq_stage]
  unfold answerAt modrmSizeAt
  by_cases hop : b k = 0x0f
  · simp only [entryAt, modrmAt, if_pos hop]
    cases m with
    | ix86 =>
      simp only [stage, if_pos hop, run_twoByteIx86]
      split_ifs with hentry
      · exact Or.inl rfl
      · exact Or.inr ⟨_, (imm_mem_ix86 (b (k + 1)) false).2 hentry, rfl⟩
    | amd64 =>
      simp only [stage, if_pos hop, run_twoByteAmd64]
      split_ifs with hwidth hentry
      · exact Or.inl rfl
      · exact Or.inl rfl
      · exact Or.inr ⟨_, addlenAmd64_mem ((imm_mem_amd64 (b (k + 1)) false).2 hentry) _, rfl⟩
  · simp only [entryAt, modrmAt, if_neg hop]
    cases m with
    | ix86 =>
      simp only [stage, if_neg hop, run_oneByteIx86]
      split_ifs with hentry
      · exact Or.inl rfl
      · exact Or.inr ⟨_, (imm_mem_ix86 (b k) _).1 hentry, rfl⟩
    | amd64 =>
      simp only [stage, if_neg hop, run_oneByteAmd64]
      split_ifs with hwidth hentry
      · exact Or.inl rfl
      · exact Or.inl rfl
      · exact Or.inr ⟨_, addlenAmd64_mem ((imm_mem_amd64 (b k) _).1 hentry) _, rfl⟩

/-- Prefixes up to the limit. -/
theorem run_loop_of_prefixes (hall : ∀ i < m.limit, m.IsPrefix (b i)) :
    ∀ d ≤ m.limit, (m.loop (m.limit - d)).run b = (1, 0) := by
  intro d
  induction d with
  | zero =>
    intro _
    rw [Nat.sub_zero, loop_eq, run_peek_bind, if_pos le_rfl]
    rfl
  | succ d ih =>
    intro hd
    rw [loop_eq, run_peek_bind, if_neg (by omega), if_pos (hall _ (by omega)),
      show m.limit - (d + 1) + 1 = m.limit - d by omega]
    exact ih (by omega)

/-- **With nothing but prefixes the decoder says so to nobody.** -/
theorem run_of_prefixes (hall : ∀ i < m.limit, m.IsPrefix (b i)) : m.decoder.run b = (1, 0) := by
  have hrun := run_loop_of_prefixes hall m.limit le_rfl
  rwa [Nat.sub_self, ← decoder_eq_loop] at hrun

/-- Otherwise it reaches an opcode. -/
theorem exists_opcodeAt (h : ∃ i < m.limit, ¬ m.IsPrefix (b i)) : ∃ k, m.OpcodeAt b k := by
  obtain ⟨hlt, hnot⟩ := Nat.find_spec h
  refine ⟨Nat.find h, hlt, fun i hi => ?_, hnot⟩
  by_contra hcon
  exact Nat.find_min h hi ⟨hi.trans hlt, hcon⟩

/-! ## The flag word of an accepted opcode -/

/-- The ModRM byte of an opcode with entry `v` says that the operand is relative. -/
def RelaAt (m : Mode) (v mb : Byte) : Prop := m = amd64 ∧ v &&& 0x80 ≠ 0 ∧ mb &&& 0xc7 = 0x5

instance (m : Mode) (v mb : Byte) : Decidable (m.RelaAt v mb) := by unfold RelaAt; infer_instance

theorem modrmFlags_eq (m : Mode) (v mb : Byte) :
    m.modrmFlags v mb = if m.RelaAt v mb then ilfPcRela else 0 := by
  cases m with
  | ix86 => rw [if_neg fun h => Mode.noConfusion h.1, modrmFlags]
  | amd64 =>
    simp only [modrmFlags, notePcRela, RelaAt, true_and]
    rfl

/-- The fields of the answer. -/
theorem OpcodeAt.fields (h : m.OpcodeAt b k) (imm : ℕ) :
    let f := (m.answerAt b k imm).2
    plen f = k ∧ modrmSize f = m.modrmSizeAt b k ∧ (f &&& ilf2Byte ≠ 0 ↔ b k = 0x0f) ∧
      (f &&& ilfPcRela ≠ 0 ↔ m.RelaAt (m.entryAt b k) (b (modrmAt b k))) ∧
      f &&& reservedMask = 0 ∧ f &&& ilfInvalid = 0 := by
  have hk : k < 8 := lt_of_lt_of_le h.lt_limit m.limit_le
  have hfields := acceptFlags_fields ⟨k, hk⟩ ⟨m.modrmSizeAt b k, modrmPart_lt _ _ _⟩
    (decide (b k = 0x0f)) (decide (m.RelaAt (m.entryAt b k) (b (modrmAt b k))))
  have hclear := acceptFlags_clear ⟨k, hk⟩ ⟨m.modrmSizeAt b k, modrmPart_lt _ _ _⟩
    (decide (b k = 0x0f)) (decide (m.RelaAt (m.entryAt b k) (b (modrmAt b k))))
  simp only [decide_eq_true_eq] at hfields hclear
  obtain ⟨hplen, hmodrm, htwo, hpc, hreserved⟩ := hfields
  rw [answerAt, modrmFlags_eq]
  exact ⟨hplen, hmodrm, htwo, hpc, hreserved, hclear⟩

/-- An accepted opcode is not refused. -/
theorem OpcodeAt.not_invalid (h : m.OpcodeAt b k) (imm : ℕ) : ¬ Invalid (m.answerAt b k imm) :=
  not_not.mpr (h.fields imm).2.2.2.2.2

/-- **An accepted opcode is described.** -/
theorem OpcodeAt.describes (h : m.OpcodeAt b k) {imm : ℕ} (himm : imm ∈ immSizes) :
    Describes m b (m.answerAt b k imm).1 (m.answerAt b k imm).2 := by
  obtain ⟨hplen, hmodrm, htwo, hpc, hreserved, -⟩ := h.fields imm
  have hlength : (m.answerAt b k imm).1 = modrmAt b k + m.modrmSizeAt b k + imm := rfl
  generalize (m.answerAt b k imm).2 = f at *
  have hsize : plen f + opcodeSize f = modrmAt b k := by
    simp only [hplen, opcodeSize, modrmAt, htwo]
    split_ifs <;> rfl
  -- there is a ModRM byte exactly where the entry says so
  have hhas : modrmSize f ≠ 0 ↔ m.entryAt b k &&& 0x80 ≠ 0 := by
    have hpos := modrmLen_pos (b (modrmAt b k)) (b (modrmAt b k + 1))
    rw [hmodrm, modrmSizeAt, modrmPart]
    split_ifs with hv
    · exact ⟨fun _ => hv, fun _ => by omega⟩
    · exact ⟨fun h0 => absurd rfl h0, fun h1 => absurd h1 hv⟩
  refine ⟨?_, ?_, ?_, ⟨imm, himm, ?_⟩, hreserved, ?_, ?_⟩
  · rw [hplen]
    exact h.isPrefix
  · rw [hplen]
    exact h.not_isPrefix
  · rw [hplen]
    exact htwo.symm
  · rw [hlength, hsize, hmodrm]
  · intro hm
    rw [hpc, hsize, hhas, RelaAt]
    exact and_iff_right hm
  · intro hrela
    obtain ⟨-, hv, hmb⟩ := hpc.mp hrela
    rw [hmodrm, modrmSizeAt, modrmPart, if_pos hv, modrmLen_of_rela hmb]

end Mode

/-- **When the flag word and the length describe the same instruction.**  Exactly when not all bytes
up to the limit are prefixes. -/
theorem flagsAgree_iff (m : Mode) (b : ℕ → Byte) :
    FlagsAgree m b ↔ ∃ i < m.limit, ¬ m.IsPrefix (b i) := by
  constructor
  · intro h
    by_contra hall
    push Not at hall
    have hrun := Mode.run_of_prefixes hall
    obtain ⟨-, hdescribes⟩ := h
    rw [hrun] at hdescribes
    have hopcode := (hdescribes (by decide)).opcode
    exact hopcode (hall 0 (by cases m <;> decide))
  · intro h
    obtain ⟨k, hop⟩ := Mode.exists_opcodeAt h
    rcases hop.answer with hbad | ⟨imm, himm, hrun⟩
    · rw [FlagsAgree, hbad]
      exact ⟨le_rfl, fun hvalid => absurd invalid_setBadInstruction hvalid⟩
    · rw [FlagsAgree, hrun]
      refine ⟨?_, fun _ => hop.describes himm⟩
      have hpos : 1 ≤ Mode.modrmAt b k := by
        rw [Mode.modrmAt]
        split_ifs <;> omega
      show 1 ≤ Mode.modrmAt b k + _ + imm
      omega

/-- Four `CS` prefixes are an instruction of one byte without prefixes, by the 32-bit decoder. -/
theorem flagsAgree_false_four_prefixes : ¬ FlagsAgree .ix86 fun _ => 0x2e := by
  intro h
  have hrun : Mode.ix86.decoder.run (fun _ => 0x2e) = (1, 0) := by decide +kernel
  obtain ⟨-, hdescribes⟩ := h
  rw [hrun] at hdescribes
  exact (hdescribes (by decide)).opcode (by decide)

end Disasm
end UtilWin
