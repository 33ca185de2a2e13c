import UtilWin.Process.DisasmSpec

/-!
# Where the two decoders agree

Most of the opcode map is the same in both modes, and an opcode whose table entries agree ought to
be measured the same by both decoders.  The 64-bit decoder may differ from the 32-bit one on it in
two ways only: through the operand width, which it reads off the prefixes, and through the immediate
codes, which count the immediates of `F7` as eight bytes before the width cuts them down.

`agree_iff` compares the answers.  They are the same except under an operand-size prefix before a
full-size immediate: the 64-bit decoder shortens the immediate to two bytes there, the 32-bit one,
whose `bit16` is never set, does not.
-/

namespace UtilWin
namespace Disasm

open Probe

/-- The prefixes the two modes share. -/
def commonPrefixes : List Byte :=
  [0x26, 0x2E, 0x36, 0x3E, 0x64, 0x65, 0x66, 0x67, 0x9B, 0xF0, 0xF2, 0xF3]

theorem isPrefix_of_common : ∀ x ∈ commonPrefixes,
    Mode.ix86.IsPrefix x ∧ Mode.amd64.IsPrefix x ∧ x &&& 0xf8 ≠ 0x48 := by
  decide

/-- A one-byte opcode that both modes have, with the same table entry. -/
structure SharedOne (op : Byte) : Prop where
  not_ix86 : ¬ Mode.ix86.IsPrefix op
  not_amd64 : ¬ Mode.amd64.IsPrefix op
  ne_escape : op ≠ 0x0f
  entry_eq : lookup table1Ix86 op = lookup table1Amd64 op
  entry_ne : lookup table1Amd64 op ≠ 0xff

/-- An opcode behind the escape byte that both modes have, with the same table entry. -/
structure SharedTwo (op2 : Byte) : Prop where
  entry_eq : lookup table2Ix86 op2 = lookup table2Amd64 op2
  entry_ne : lookup table2Amd64 op2 ≠ 0xff

/-- An instruction of the common set: at most three shared prefixes, and then code that starts with
a shared opcode. -/
structure Common where
  /-- The prefixes. -/
  prefixes : List Byte
  /-- The opcode and everything behind it. -/
  code : ℕ → Byte
  prefixes_mem : ∀ x ∈ prefixes, x ∈ commonPrefixes
  prefixes_le : prefixes.length ≤ 3
  shared : SharedOne (code 0) ∨ code 0 = 0x0f ∧ SharedTwo (code 1)

namespace Common

variable (c : Common)

/-- The instruction's stream. -/
def stream : ℕ → Byte := spell c.prefixes c.code

/-- An operand-size prefix is present. -/
def has66 : Bool := 0x66 ∈ c.prefixes

/-- The immediate has full size: by the table, or as that of `F7 /0` and `/1`. -/
def FullSized : Prop :=
  if c.code 0 = 0x0f then lookup table2Amd64 (c.code 1) &&& 0xf = 4
  else lookup table1Amd64 (c.code 0) &&& 0xf = 4 ∨ c.code 0 = 0xf7 ∧ hasGroupImm (c.code 1)

instance : Decidable c.FullSized := by unfold FullSized; infer_instance

/-- The decoders return the same length, and the same flag word apart from `ILF_PC_RELA`. -/
def Agree : Prop :=
  (getInstructionLengthIx86.run c.stream).1 = (getInstructionLengthAmd64.run c.stream).1 ∧
    (getInstructionLengthIx86.run c.stream).2 &&& ~~~ilfPcRela =
      (getInstructionLengthAmd64.run c.stream).2 &&& ~~~ilfPcRela

instance : Decidable c.Agree := by unfold Agree; infer_instance

theorem length_prefixes_lt (m : Mode) : c.prefixes.length < m.limit :=
  lt_of_le_of_lt c.prefixes_le (by cases m <;> decide)

theorem isPrefix_of_mem (m : Mode) : ∀ x ∈ c.prefixes, m.IsPrefix x := by
  intro x hx
  have hx' := isPrefix_of_common x (c.prefixes_mem x hx)
  cases m with
  | ix86 => exact hx'.1
  | amd64 => exact hx'.2.1

theorem not_isPrefix (m : Mode) : ¬ m.IsPrefix (c.code 0) := by
  rcases c.shared with h | ⟨h, -⟩
  · cases m with
    | ix86 => exact h.not_ix86
    | amd64 => exact h.not_amd64
  · rw [h]
    cases m <;> decide

/-- Shared prefixes never contradict each other: they ask for 16 bits or for nothing. -/
theorem widthOf_prefixes : widthOf c.prefixes 0 = if c.has66 then 16 else 32 := by
  have hne : ∀ x ∈ c.prefixes, x &&& 0xf8 ≠ 0x48 := fun x hx =>
    (isPrefix_of_common x (c.prefixes_mem x hx)).2.2
  have h := widthOf_append c.prefixes [] hne 0 (Or.inl rfl)
  rw [List.append_nil] at h
  rw [h, has66]
  simp only [decide_eq_true_eq]
  split_ifs <;> rfl

theorem not_clash (m : Mode) : ¬ m.Clash c.prefixes := by
  cases m with
  | ix86 => exact id
  | amd64 =>
    rw [Mode.Clash, widthOf_prefixes]
    split_ifs <;> decide

end Common

/-! ## The flag words -/

theorem acceptFlags_pcRela (k modrmadd : ℕ) (e : Flags) (v a : Byte) :
    acceptFlags k e modrmadd (notePcRela v a 0) &&& ~~~ilfPcRela =
      acceptFlags k e modrmadd 0 &&& ~~~ilfPcRela := by
  have hbit : ∀ x : Flags,
      (0 ||| (ilfPcRela ||| x)) &&& ~~~ilfPcRela = (0 ||| x) &&& ~~~ilfPcRela := by
    intro x
    have hmask : (0 &&& ~~~ilfPcRela) ||| (ilfPcRela &&& ~~~ilfPcRela) = 0 &&& ~~~ilfPcRela := by
      decide
    rw [← BitVec.or_assoc, BitVec.and_or_distrib_right, BitVec.and_or_distrib_right, hmask,
      ← BitVec.and_or_distrib_right]
  rw [acceptFlags, acceptFlags, notePcRela]
  split_ifs
  · simp only [BitVec.or_assoc]
    exact hbit _
  · rfl

/-! ## The immediates -/

/-- One-byte opcodes: where the entries agree, so do the immediates, except under `66` for those of
full size. -/
theorem imm1_eq_iff : ∀ op : Byte, lookup table1Ix86 op = lookup table1Amd64 op →
    lookup table1Amd64 op ≠ 0xff → ∀ g has66 : Bool,
    (immOf (lookup table1Ix86 op) op g 4 =
        addlenAmd64 (immOf (lookup table1Amd64 op) op g 8) (if has66 then 16 else 32) ↔
      ¬ (has66 ∧ (lookup table1Amd64 op &&& 0xf = 4 ∨ op = 0xf7 ∧ g))) := by
  decide +kernel

/-- Two-byte opcodes likewise. -/
theorem imm2_eq_iff : ∀ op2 : Byte, lookup table2Amd64 op2 ≠ 0xff → ∀ has66 : Bool,
    ((lookup table2Amd64 op2 &&& 0xf).toNat =
        addlenAmd64 (lookup table2Amd64 op2 &&& 0xf).toNat (if has66 then 16 else 32) ↔
      ¬ (has66 ∧ lookup table2Amd64 op2 &&& 0xf = 4)) := by
  decide +kernel

/-- **Where the decoders agree**: on the whole common set except under an operand-size prefix before
a full-size immediate. -/
theorem agree_iff (c : Common) : c.Agree ↔ ¬ (c.has66 ∧ c.FullSized) := by
  have hrun : ∀ m : Mode, m.decoder.run c.stream =
      if c.code 0 = 0x0f then m.answer2 c.prefixes c.code else m.answer1 c.prefixes c.code :=
    fun m => m.run_spell (c.length_prefixes_lt m) (c.isPrefix_of_mem m) (c.not_isPrefix m)
  have h32 : getInstructionLengthIx86.run c.stream = _ := hrun .ix86
  have h64 : getInstructionLengthAmd64.run c.stream = _ := hrun .amd64
  rw [Common.Agree, h32, h64, Common.FullSized]
  rcases c.shared with h | ⟨h0, h⟩
  · have hne : lookup table1Ix86 (c.code 0) ≠ 0xff := by rw [h.entry_eq]; exact h.entry_ne
    simp only [if_neg h.ne_escape, Mode.answer1, c.not_clash, Mode.entry1, hne, h.entry_ne,
      or_self, if_false, Mode.imm1, Mode.modrmFlags, c.widthOf_prefixes, acceptFlags_pcRela]
    rw [← imm1_eq_iff (c.code 0) h.entry_eq h.entry_ne, h.entry_eq]
    simp only [and_true]
    omega
  · have hne : lookup table2Ix86 (c.code 1) ≠ 0xff := by rw [h.entry_eq]; exact h.entry_ne
    simp only [if_pos h0, Mode.answer2, c.not_clash, Mode.entry2, hne, h.entry_ne,
      or_self, if_false, Mode.imm2, Mode.modrmFlags, c.widthOf_prefixes, acceptFlags_pcRela]
    rw [← imm2_eq_iff (c.code 1) h.entry_ne, h.entry_eq]
    simp only [and_true]
    omega

/-- `66 05`, an addition with a full-size immediate under an operand-size prefix. -/
def add66Common : Common where
  prefixes := [0x66]
  code := spell [0x05, 0x34, 0x12] fun _ => 0x90
  prefixes_mem := by decide
  prefixes_le := by decide
  shared := Or.inl ⟨by decide, by decide, by decide, by decide, by decide⟩

/-- On `66 05 34 12` the 32-bit decoder answers six and the 64-bit decoder four. -/
theorem add66Common_not_agree : ¬ add66Common.Agree := by
  decide +kernel

end Disasm
end UtilWin
