import UtilWin.Process.FlagWord

/-!
# Sweeping over code in memory

`get_data_ptr` and `init_ntptrs` walk over the code of a function, from one instruction to the next by
the length that the decoder reports, up to a return.  Both look for an operand relative to the
instruction pointer and form an address from it.  What they share is here: instructions in memory,
and the instructions `39`, `8B` and `8D`, which have a ModRM byte and no immediate
(`OpcodeAt.run_plain`).
-/

namespace UtilWin
namespace Disasm

open Probe

/-- An address. -/
abbrev Addr := BitVec 64

/-- The bytes of the process. -/
abbrev Memory := Addr → Byte

namespace Memory

variable (mem : Memory)

/-- The stream that starts at an address. -/
def codeAt (a : Addr) : ℕ → Byte := fun i => mem (a + BitVec.ofNat 64 i)

/-- `*(int*)`, as it is added to a pointer. -/
def intAt (a : Addr) : Addr :=
  (mem (a + 3) ++ (mem (a + 2) ++ (mem (a + 1) ++ mem a)) : BitVec 32).signExtend 64

/-- What `get_instruction_length` returns. -/
def instructionLength (a : Addr) : ℕ := (getInstructionLengthAmd64.run (mem.codeAt a)).1

/-- The flag word that it leaves behind. -/
def flags (a : Addr) : Flags := (getInstructionLengthAmd64.run (mem.codeAt a)).2

/-- Where the next instruction starts. -/
def next (a : Addr) : Addr := a + BitVec.ofNat 64 (mem.instructionLength a)

/-- The instruction is a return. -/
def IsReturn (a : Addr) : Prop := mem a = 0xc2 ∨ mem a = 0xc3

instance (a : Addr) : Decidable (mem.IsReturn a) := by unfold IsReturn; infer_instance

/-- The instruction at `a` has the opcode `op`, and its ModRM byte, behind `k` prefixes and the
opcode, has `mod=00` and `rm=101`. -/
structure IsRela (op : Byte) (a : Addr) (k : ℕ) : Prop where
  /-- The decoder reaches the opcode. -/
  opcodeAt : Mode.amd64.OpcodeAt (mem.codeAt a) k
  /-- It does not refuse it. -/
  valid : ¬ Invalid (getInstructionLengthAmd64.run (mem.codeAt a))
  /-- It is `op`. -/
  opcode : mem.codeAt a k = op
  /-- The operand is relative to the instruction pointer. -/
  modrm : mem.codeAt a (k + 1) &&& 0xc7 = 0x5

/-- The address that such an operand names: the displacement behind the ModRM byte, counted from the
next instruction. -/
def target (a : Addr) (k : ℕ) : Addr := mem.next a + mem.intAt (a + BitVec.ofNat 64 (k + 2))

end Memory

/-! ## Instructions with a ModRM byte and no immediate -/

/-- The opcodes that are looked for. -/
def IsPlain (op : Byte) : Prop := op = 0x39 ∨ op = 0x8b ∨ op = 0x8d

theorem IsPlain.facts {op : Byte} (h : IsPlain op) :
    lookup table1Amd64 op = 0x80 ∧ op ≠ 0x0f ∧ (∀ g, immOf 0x80 op g 8 = 0) ∧
      ¬ Mode.amd64.IsPrefix op := by
  rcases h with rfl | rfl | rfl <;> decide

namespace Mode

variable {b : ℕ → Byte} {k : ℕ}

/-- **The answer on such an opcode**, unless the prefixes contradict each other. -/
theorem OpcodeAt.run_plain (h : amd64.OpcodeAt b k) (hop : IsPlain (b k)) :
    getInstructionLengthAmd64.run b =
      if (getWidthAmd64 (k - k) k).run b = 0 then setBadInstruction 0
      else (k + 1 + modrmLen (b (k + 1)) (b (k + 2)),
        acceptFlags k 0 (modrmLen (b (k + 1)) (b (k + 2))) (notePcRela 0x80 (b (k + 1)) 0)) := by
  obtain ⟨hentry, hescape, himm, -⟩ := hop.facts
  have hpart : modrmPart 0x80 (b (k + 1)) (b (k + 2)) = modrmLen (b (k + 1)) (b (k + 2)) :=
    if_pos (by decide)
  have hadd : ∀ width, addlenAmd64 0 width = 0 := by
    intro width
    rw [addlenAmd64, if_neg (by omega), if_neg (by omega), if_neg (by omega)]
  have hne : (0x80 : Byte) ≠ 0xff := by decide
  have hrun := h.run_eq_stage
  simp only [stage, if_neg hescape, run_oneByteAmd64, hentry, himm, hpart, hadd, if_neg hne,
    Nat.add_zero] at hrun
  exact hrun

/-- Without prefixes, or behind `48` alone, nothing contradicts. -/
theorem run_getWidthAmd64_short (b : ℕ → Byte) :
    (getWidthAmd64 (0 - 0) 0).run b = 32 ∧
      (b 0 = 0x48 → (getWidthAmd64 (1 - 1) 1).run b = 64) := by
  refine ⟨rfl, fun h => ?_⟩
  have hstarts : StartsWith (suffixAt b 0) [0x48] := by
    intro i hi
    rw [List.length_singleton, Nat.lt_one_iff] at hi
    subst hi
    exact h
  exact run_getWidthAmd64Loop [0x48] 0 0 hstarts

/-- What the flag word says about such an opcode. -/
theorem OpcodeAt.plain_fields (h : amd64.OpcodeAt b k) (m s : Byte) :
    let f := acceptFlags k 0 (modrmLen m s) (notePcRela 0x80 m 0)
    plen f = k ∧ modrmSize f = modrmLen m s ∧ ∀ n, ¬ Invalid (n, f) := by
  have hk : k < 8 := h.lt_limit
  have hr : modrmLen m s < 8 := Nat.lt_of_le_of_lt (modrmLen_le m s) (by decide)
  have hrela : notePcRela 0x80 m 0 = if decide (amd64.RelaAt 0x80 m) then ilfPcRela else 0 := by
    simp only [decide_eq_true_eq]
    exact modrmFlags_eq amd64 0x80 m
  rw [hrela]
  obtain ⟨hplen, hmodrm, -⟩ := acceptFlags_fields ⟨k, hk⟩ ⟨_, hr⟩ false
    (decide (amd64.RelaAt 0x80 m))
  refine ⟨hplen, hmodrm, fun n => ?_⟩
  rw [Invalid, not_not]
  exact acceptFlags_clear ⟨k, hk⟩ ⟨_, hr⟩ false (decide (amd64.RelaAt 0x80 m))

/-- **Such an opcode stands where the flag word says.** -/
theorem OpcodeAt.of_plen (hop : IsPlain (b (plen (getInstructionLengthAmd64.run b).2))) :
    amd64.OpcodeAt b (plen (getInstructionLengthAmd64.run b).2) ∧
      ¬ Invalid (getInstructionLengthAmd64.run b) := by
  have hnot := hop.facts.2.2.2
  -- where the flag word counts no prefix, the opcode is the first byte and is not refused
  have hfirst : plen (getInstructionLengthAmd64.run b).2 = 0 →
      amd64.OpcodeAt b (plen (getInstructionLengthAmd64.run b).2) ∧
        ¬ Invalid (getInstructionLengthAmd64.run b) := by
    intro h0
    rw [h0] at hop hnot ⊢
    have hat : amd64.OpcodeAt b 0 := ⟨by decide, fun i hi => absurd hi (Nat.not_lt_zero i), hnot⟩
    have hrun := hat.run_plain hop
    rw [(run_getWidthAmd64_short b).1, if_neg (by decide)] at hrun
    rw [hrun]
    exact ⟨hat, (hat.plain_fields _ _).2.2 _⟩
  by_cases hall : ∃ i < amd64.limit, ¬ amd64.IsPrefix (b i)
  · obtain ⟨k, hk⟩ := exists_opcodeAt hall
    rcases hk.answer with hbad | ⟨imm, himm, hrun⟩
    · have hbad' : getInstructionLengthAmd64.run b = setBadInstruction 0 := hbad
      refine hfirst ?_
      rw [hbad']
      decide
    · have hrun' : getInstructionLengthAmd64.run b = amd64.answerAt b k imm := hrun
      rw [hrun', (hk.fields imm).1]
      exact ⟨hk, hk.not_invalid imm⟩
  · push Not at hall
    have hrun : getInstructionLengthAmd64.run b = (1, 0) := run_of_prefixes hall
    refine hfirst ?_
    rw [hrun]
    decide

end Mode

namespace Memory

variable {mem : Memory} {op : Byte} {a : Addr} {k : ℕ}

theorem codeAt_zero (mem : Memory) (a : Addr) : mem.codeAt a 0 = mem a :=
  congrArg mem (BitVec.add_zero a)

theorem codeAt_add (mem : Memory) (a : Addr) (i j : ℕ) :
    mem.codeAt (a + BitVec.ofNat 64 i) j = mem.codeAt a (i + j) := by
  refine congrArg mem ?_
  rw [BitVec.add_assoc, ← BitVec.ofNat_add]

/-- The opcode at the first byte, or behind a `48`. -/
theorem IsRela.of_short (hk : k = 0 ∨ k = 1 ∧ mem a = 0x48) (hop : IsPlain (mem.codeAt a k))
    (hmodrm : mem.codeAt a (k + 1) &&& 0xc7 = 0x5) : mem.IsRela (mem.codeAt a k) a k := by
  have hat : Mode.amd64.OpcodeAt (mem.codeAt a) k := by
    refine ⟨?_, fun i hi => ?_, hop.facts.2.2.2⟩
    · rcases hk with rfl | ⟨rfl, -⟩ <;> decide
    · rcases hk with rfl | ⟨rfl, h48⟩
      · exact absurd hi (Nat.not_lt_zero i)
      · rw [Nat.lt_one_iff.mp hi, codeAt_zero, h48]
        decide
  have hwidth : (getWidthAmd64 (k - k) k).run (mem.codeAt a) ≠ 0 := by
    obtain ⟨h0, h1⟩ := Mode.run_getWidthAmd64_short (mem.codeAt a)
    rcases hk with rfl | ⟨rfl, h48⟩
    · rw [h0]
      decide
    · rw [h1 (by rw [codeAt_zero, h48])]
      decide
  refine ⟨hat, ?_, rfl, hmodrm⟩
  rw [hat.run_plain hop, if_neg hwidth]
  exact (hat.plain_fields _ _).2.2 _

/-- **A relative operand, measured.**  The ModRM part has five bytes and ends the instruction. -/
theorem IsRela.measured (h : mem.IsRela op a k) (hop : IsPlain op) :
    mem.instructionLength a = k + 6 ∧ plen (mem.flags a) = k ∧ modrmSize (mem.flags a) = 5 := by
  have hplain : IsPlain (mem.codeAt a k) := by
    rw [h.opcode]
    exact hop
  have hrun := h.opcodeAt.run_plain hplain
  have hwidth : (getWidthAmd64 (k - k) k).run (mem.codeAt a) ≠ 0 := by
    intro h0
    rw [if_pos h0] at hrun
    refine h.valid ?_
    rw [hrun]
    exact invalid_setBadInstruction
  have hlen := modrmLen_of_rela h.modrm (mem.codeAt a (k + 2))
  obtain ⟨hplen, hmodrm, -⟩ := h.opcodeAt.plain_fields (mem.codeAt a (k + 1)) (mem.codeAt a (k + 2))
  rw [if_neg hwidth, hlen] at hrun
  rw [hlen] at hplen hmodrm
  rw [instructionLength, flags, hrun]
  exact ⟨rfl, hplen, hmodrm⟩

/-- So the displacement is the last four bytes. -/
theorem IsRela.target_eq (h : mem.IsRela op a k) (hop : IsPlain op) :
    mem.target a k = mem.next a + mem.intAt (mem.next a - 4) := by
  have hdisp : a + BitVec.ofNat 64 (k + 2) = mem.next a - 4 := by
    rw [next, (h.measured hop).1]
    bv_omega
  rw [target, hdisp]

end Memory

end Disasm
end UtilWin
