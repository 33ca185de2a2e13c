import UtilWin.Process.ImmediateRule

/-!
# Opcodes behind the escape byte

`0F` leads into a second opcode map, and there `38` and `3A` lead into two more, with a third opcode
byte of their own.  The decoders know only the second map.  The entries of `38` and `3A` say that a
ModRM byte follows, the one of `3A` also an immediate byte: so the third opcode byte is taken for the
ModRM byte, and the length is right when the size that the opcode byte spells as a ModRM byte happens
to be one more than the size of the ModRM part behind it.

Of the other opcodes of the second map with a ModRM byte, `0D` has an entry that does not say so, and
`0F` and `FF` are refused (`entry2_marks_iff`).
-/

namespace UtilWin
namespace Disasm

open Probe

/-- The legacy prefixes that leave the operand size alone. -/
def escapePrefixes : List Byte := [0x26, 0x2E, 0x36, 0x3E, 0x64, 0x65, 0xF0, 0xF2, 0xF3]

/-- The opcodes of the second map that take a ModRM byte, by the manuals. -/
def TakesModrm (op2 : Byte) : Prop :=
  op2 ≤ 0x03 ∨ op2 = 0x0d ∨ op2 = 0x0f ∨ (0x10 ≤ op2 ∧ op2 ≤ 0x23) ∨ (0x28 ≤ op2 ∧ op2 ≤ 0x2f) ∨
    (0x40 ≤ op2 ∧ op2 ≤ 0x76) ∨ (0x78 ≤ op2 ∧ op2 ≤ 0x79) ∨ (0x7c ≤ op2 ∧ op2 ≤ 0x7f) ∨
    (0x90 ≤ op2 ∧ op2 ≤ 0x9f) ∨ (0xa3 ≤ op2 ∧ op2 ≤ 0xa5) ∨ (0xab ≤ op2 ∧ op2 ≤ 0xc7) ∨ 0xd0 ≤ op2

instance (op2 : Byte) : Decidable (TakesModrm op2) := by unfold TakesModrm; infer_instance

/-- The second opcode byte leads into a third map. -/
def IsMap3 (op2 : Byte) : Prop := op2 = 0x38 ∨ op2 = 0x3a

instance (op2 : Byte) : Decidable (IsMap3 op2) := by unfold IsMap3; infer_instance

/-- An instruction with an escaped opcode, up to its second opcode byte. -/
structure Escaped where
  /-- The legacy prefixes. -/
  prefixes : List Byte
  /-- The byte behind `0F`. -/
  op2 : Byte
  prefixes_mem : ∀ x ∈ prefixes, x ∈ escapePrefixes
  prefixes_le : prefixes.length ≤ 3
  /-- There is a ModRM operand. -/
  modrm : IsMap3 op2 ∨ TakesModrm op2

namespace Escaped

variable (e : Escaped)

/-- The instruction's stream, with `rest` behind the second opcode byte. -/
def stream (rest : ℕ → Byte) : ℕ → Byte := spell e.prefixes (spell [0x0f, e.op2] rest)

/-- The length by the encoding: in the third maps the ModRM byte is `rest 1`, behind the third
opcode byte, and `3A` has an immediate byte. -/
def expected (m : Mode) (rest : ℕ → Byte) : ℕ :=
  if e.op2 = 0x38 then e.prefixes.length + 3 + modrmLen (rest 1) (rest 2)
  else if e.op2 = 0x3a then e.prefixes.length + 3 + modrmLen (rest 1) (rest 2) + 1
  else e.prefixes.length + 2 + modrmLen (rest 0) (rest 1) + (m.entry2 e.op2 &&& 0xf).toNat

/-- Read as a ModRM byte, the third opcode byte asks for itself and for what the ModRM part behind it
has; and the opcode is none of the three that the table does not do justice to. -/
def Aligned (rest : ℕ → Byte) : Prop :=
  if IsMap3 e.op2 then modrmLen (rest 0) (rest 1) = 1 + modrmLen (rest 1) (rest 2)
  else e.op2 ≠ 0x0d ∧ e.op2 ≠ 0x0f ∧ e.op2 ≠ 0xff

end Escaped

/-! ## The table -/

/-- The escapes to the third maps. -/
theorem entry2_map3 (m : Mode) : m.entry2 0x38 = 0x80 ∧ m.entry2 0x3a = 0x81 := by
  cases m <;> decide

/-- **Which opcodes with a ModRM byte the table knows as such.** -/
theorem entry2_marks_iff (m : Mode) : ∀ op2 : Byte, TakesModrm op2 →
    (m.entry2 op2 &&& 0x80 ≠ 0 ∧ m.entry2 op2 ≠ 0xff ↔
      op2 ≠ 0x0d ∧ op2 ≠ 0x0f ∧ op2 ≠ 0xff) := by
  cases m <;> decide +kernel

/-- With the default width the immediate is the table's. -/
theorem addlen_entry2 : ∀ op2 : Byte, lookup table2Amd64 op2 ≠ 0xff →
    addlenAmd64 (lookup table2Amd64 op2 &&& 0xf).toNat 32 =
      (lookup table2Amd64 op2 &&& 0xf).toNat := by
  decide +kernel

/-! ## The decoder's answer -/

theorem isPrefix_of_escape : ∀ x ∈ escapePrefixes, x ∈ legacyPrefixes ∧ x ≠ 0x66 := by decide

namespace Escaped

variable (e : Escaped) (m : Mode)

theorem isPrefix_of_mem : ∀ x ∈ e.prefixes, m.IsPrefix x := by
  intro x hx
  have hlegacy := isPrefix_of_legacy x (isPrefix_of_escape x (e.prefixes_mem x hx)).1
  cases m with
  | ix86 => exact hlegacy.1
  | amd64 => exact hlegacy.2.1

/-- The prefixes ask for no width. -/
theorem widthOf_prefixes : widthOf e.prefixes 0 = 32 := by
  have hrex : ∀ x ∈ e.prefixes, x &&& 0xf8 ≠ 0x48 := fun x hx =>
    (isPrefix_of_legacy x (isPrefix_of_escape x (e.prefixes_mem x hx)).1).2.2
  have h66 : 0x66 ∉ e.prefixes := fun hmem =>
    (isPrefix_of_escape _ (e.prefixes_mem _ hmem)).2 rfl
  have hwidth := widthOf_append e.prefixes [] hrex 0 (Or.inl rfl)
  rw [List.append_nil, if_neg h66] at hwidth
  exact hwidth

theorem imm2_prefixes (h : m.entry2 e.op2 ≠ 0xff) :
    m.imm2 e.prefixes e.op2 = (m.entry2 e.op2 &&& 0xf).toNat := by
  cases m with
  | ix86 => rfl
  | amd64 =>
    rw [Mode.imm2, e.widthOf_prefixes]
    exact addlen_entry2 e.op2 h

/-- The length that the decoder reports: one where it refuses, and otherwise what the table says with
`rest 0` for a ModRM byte. -/
theorem length_eq (rest : ℕ → Byte) :
    (m.decoder.run (e.stream rest)).1 =
      if m.entry2 e.op2 = 0xff then 1
      else e.prefixes.length + 2 + modrmPart (m.entry2 e.op2) (rest 0) (rest 1) +
        (m.entry2 e.op2 &&& 0xf).toNat := by
  have hlt : e.prefixes.length < m.limit := by
    have hle := e.prefixes_le
    cases m <;> simp only [Mode.limit] <;> omega
  have hcode : ∀ i, spell [0x0f, e.op2] rest (2 + i) = rest i := spell_length_add [0x0f, e.op2] rest
  have h0 : spell [0x0f, e.op2] rest 0 = 0x0f := rfl
  have h1 : spell [0x0f, e.op2] rest 1 = e.op2 := rfl
  have hop : ¬ m.IsPrefix (spell [0x0f, e.op2] rest 0) := by
    rw [h0]
    cases m <;> decide
  have hclash : ¬ m.Clash e.prefixes := by
    cases m with
    | ix86 => exact not_false
    | amd64 =>
      rw [Mode.Clash, e.widthOf_prefixes]
      decide
  rw [stream, Mode.run_spell hlt (e.isPrefix_of_mem m) hop, if_pos h0, Mode.answer2, h1, hcode 0,
    hcode 1]
  by_cases hentry : m.entry2 e.op2 = 0xff
  · rw [if_pos (Or.inr hentry), if_pos hentry]
    rfl
  · rw [if_neg (not_or.mpr ⟨hclash, hentry⟩), if_neg hentry, e.imm2_prefixes m hentry]

end Escaped

/-- **When escaped opcodes are measured from their last opcode byte.**  In the third maps: exactly
when the third opcode byte, read as a ModRM byte, asks for one byte more than the ModRM part behind it
has.  In the second map: exactly when the opcode is not `0D`, `0F` or `FF`. -/
theorem length_escaped_iff (m : Mode) (e : Escaped) (rest : ℕ → Byte) :
    (m.decoder.run (e.stream rest)).1 = e.expected m rest ↔ e.Aligned rest := by
  obtain ⟨h38, h3a⟩ := entry2_map3 m
  rw [e.length_eq]
  unfold Escaped.expected Escaped.Aligned
  by_cases hop38 : e.op2 = 0x38
  · have hmap : IsMap3 e.op2 := Or.inl hop38
    rw [if_pos hop38, if_pos hmap, hop38, h38, if_neg (by decide), modrmPart,
      if_pos (by decide)]
    show _ + _ + _ + 0 = _ ↔ _
    omega
  by_cases hop3a : e.op2 = 0x3a
  · have hmap : IsMap3 e.op2 := Or.inr hop3a
    rw [if_neg hop38, if_pos hop3a, if_pos hmap, hop3a, h3a, if_neg (by decide), modrmPart,
      if_pos (by decide)]
    show _ + _ + _ + 1 = _ ↔ _
    omega
  have hmap : ¬ IsMap3 e.op2 := not_or.mpr ⟨hop38, hop3a⟩
  rw [if_neg hop38, if_neg hop3a, if_neg hmap,
    ← entry2_marks_iff m e.op2 (e.modrm.resolve_left hmap)]
  have hpos := modrmLen_pos (rest 0) (rest 1)
  by_cases hentry : m.entry2 e.op2 = 0xff
  · rw [if_pos hentry]
    refine ⟨fun h => ?_, fun h => absurd hentry h.2⟩
    omega
  · rw [if_neg hentry, modrmPart]
    split_ifs with hv
    · exact ⟨fun _ => ⟨hv, hentry⟩, fun _ => rfl⟩
    · refine ⟨fun h => ?_, fun h => absurd h.1 hv⟩
      omega

theorem length_noPrefixes_le : ([] : List Byte).length ≤ 3 := Nat.zero_le 3

/-- `0F 38 00`: the byte shuffle. -/
def pshufb : Escaped where
  prefixes := []
  op2 := 0x38
  prefixes_mem := by
    intro x hx
    exact absurd hx List.not_mem_nil
  prefixes_le := length_noPrefixes_le
  modrm := Or.inl (Or.inl rfl)

/-- `0F 38 00 05` and a displacement: the third opcode byte is taken for a ModRM byte that asks for
nothing more, so the answer is three where the instruction has eight bytes. -/
theorem pshufb_length_ne :
    (Mode.amd64.decoder.run (pshufb.stream (spell [0x00, 0x05] fun _ => 0))).1 ≠
      pshufb.expected .amd64 (spell [0x00, 0x05] fun _ => 0) := by
  decide +kernel

end Disasm
end UtilWin
