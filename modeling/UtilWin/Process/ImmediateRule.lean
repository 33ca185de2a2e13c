import UtilWin.Process.DisasmSpec

/-!
# The immediates of the one-byte opcode map

The encoding manual gives the size of an immediate by a rule, not by a table: a full-size immediate
has four bytes, two under an operand-size prefix that `REX.W` does not override, and only
`B8`--`BF` ever take eight; the offsets of `A0`--`A3` are as wide as an address; the group `F6`/`F7`
has an immediate in its members `/0` and `/1` only.  The decoders have the tables and a few
corrections, and this file compares the two.

`Head` is an instruction up to its opcode: at most three legacy prefixes, in 64-bit mode perhaps a
`REX` byte, and a one-byte opcode that the tables do not exclude.  `Head.MeetsRule` says that the
decoder accepts it and measures it by the rule, and `meetsRule_iff` says when it does.  It does not

* in 32-bit mode under `66`, whenever the immediate depends on the operand size: the branch for the
  prefix passes `bit16` on as it found it, so the subtraction at the end is never taken;
* on `A0` and `A2` in 32-bit mode and on all of `A0`--`A3` in 64-bit mode, whose table entries leave
  out the offset;
* in 64-bit mode under both `66` and `REX.W`, which `get_width_amd64` takes for a contradiction;
* on `REX.W F7 /0` and `/1`, whose immediate is counted with eight bytes.
-/

namespace UtilWin
namespace Disasm

open Probe

/-- The legacy prefixes of the rule. -/
def legacyPrefixes : List Byte := [0x26, 0x2E, 0x36, 0x3E, 0x64, 0x65, 0x66, 0xF0, 0xF2, 0xF3]

/-- A `REX` byte. -/
def IsRex (x : Byte) : Prop := x &&& 0xf0 = 0x40

instance (x : Byte) : Decidable (IsRex x) := by unfold IsRex; infer_instance

/-- The `W` bit of a `REX` byte. -/
def rexW (x : Byte) : Bool := x &&& 0x08 ≠ 0

/-- An instruction of the one-byte map up to its opcode, in one of the two modes. -/
structure Head (m : Mode) where
  /-- The legacy prefixes. -/
  legacy : List Byte
  /-- The `REX` byte directly before the opcode. -/
  rex : Option Byte
  /-- The opcode. -/
  op : Byte
  legacy_mem : ∀ x ∈ legacy, x ∈ legacyPrefixes
  legacy_le : legacy.length ≤ 3
  /-- Only 64-bit mode has `REX`. -/
  rex_mode : m = .ix86 → rex = none
  rex_isRex : ∀ x ∈ rex, IsRex x
  not_isPrefix : ¬ m.IsPrefix op
  ne_escape : op ≠ 0x0f
  ne_call : op ≠ 0xe8
  ne_jmp : op ≠ 0xe9
  /-- The table has the opcode. -/
  entry_ne : m.entry1 op ≠ 0xff

namespace Head

variable {m : Mode} (h : Head m)

/-- All prefix bytes. -/
def prefixes : List Byte := h.legacy ++ h.rex.toList

/-- The instruction's stream: prefixes, opcode, and `rest` behind it. -/
def stream (rest : ℕ → Byte) : ℕ → Byte := spell h.prefixes (spell [h.op] rest)

/-- An operand-size prefix is present. -/
def has66 : Bool := 0x66 ∈ h.legacy

/-- `REX.W` is present. -/
def hasW : Bool := h.rex.any rexW

end Head

/-! ## The rule -/

/-- The size of an immediate that follows the operand size up to four bytes. -/
def fullImm (has66 hasW : Bool) : ℕ := if has66 && !hasW then 2 else 4

/-- The size of an address. -/
def Mode.addrSize : Mode → ℕ
  | ix86 => 4
  | amd64 => 8

/-- `A0`--`A3`, which take an address-sized offset. -/
def IsOffsetOp (op : Byte) : Prop := op &&& 0xfc = 0xa0

instance (op : Byte) : Decidable (IsOffsetOp op) := by unfold IsOffsetOp; infer_instance

/-- `B8`--`BF`, which load a full register. -/
def IsMovImm (op : Byte) : Prop := op &&& 0xf8 = 0xb8

instance (op : Byte) : Decidable (IsMovImm op) := by unfold IsMovImm; infer_instance

/-- **The rule**: the size of the immediate of the opcode `op`, whose ModRM byte selects `/0` or
`/1` when `g` says so. -/
def ruleImm (m : Mode) (op : Byte) (g has66 hasW : Bool) : ℕ :=
  if IsOffsetOp op then m.addrSize
  else if IsMovImm op then (if hasW then 8 else fullImm has66 hasW)
  else if op = 0x9a ∨ op = 0xea then (if has66 then 4 else 6)
  else if op = 0xf6 then (if g then 1 else 0)
  else if op = 0xf7 then (if g then fullImm has66 hasW else 0)
  else if m.entry1 op &&& 0xf = 4 then fullImm has66 hasW
  else (m.entry1 op &&& 0xf).toNat

/-- In 32-bit mode, the immediate of `op` depends on the operand size: a full-size immediate by the
table, a far pointer, or the immediate of `F7 /0` and `/1`. -/
def OperandSized (op : Byte) (g : Bool) : Prop :=
  (lookup table1Ix86 op &&& 0xf = 4 ∧ ¬ IsOffsetOp op) ∨ op = 0x9a ∨ op = 0xea ∨ (op = 0xf7 ∧ g)

instance (op : Byte) (g : Bool) : Decidable (OperandSized op g) := by
  unfold OperandSized; infer_instance

/-- The decoder accepts the instruction and measures it by the rule. -/
def Head.MeetsRule {m : Mode} (h : Head m) (rest : ℕ → Byte) : Prop :=
  ¬ Invalid (m.decoder.run (h.stream rest)) ∧
    (m.decoder.run (h.stream rest)).1 =
      h.prefixes.length + 1 + modrmPart (m.entry1 h.op) (rest 0) (rest 1) +
        ruleImm m h.op (hasGroupImm (rest 0)) h.has66 h.hasW

instance {m : Mode} (h : Head m) (rest : ℕ → Byte) : Decidable (h.MeetsRule rest) := by
  unfold Head.MeetsRule; infer_instance

/-- The instructions that the decoder's table and corrections do justice to. -/
def Regular (m : Mode) (op : Byte) (g has66 hasW : Bool) : Prop :=
  match m with
  | .ix86 => op ≠ 0xa0 ∧ op ≠ 0xa2 ∧ ¬ (has66 ∧ OperandSized op g)
  | .amd64 => ¬ IsOffsetOp op ∧ ¬ (has66 ∧ hasW) ∧ ¬ (op = 0xf7 ∧ g ∧ hasW)

instance (m : Mode) (op : Byte) (g has66 hasW : Bool) : Decidable (Regular m op g has66 hasW) := by
  unfold Regular; cases m <;> infer_instance

/-! ## The prefixes of a head -/

theorem isPrefix_of_legacy : ∀ x ∈ legacyPrefixes,
    Mode.ix86.IsPrefix x ∧ Mode.amd64.IsPrefix x ∧ x &&& 0xf8 ≠ 0x48 := by
  decide

theorem isPrefix_of_isRex : ∀ x : Byte, IsRex x →
    Mode.amd64.IsPrefix x ∧ x ≠ 0x66 ∧ (x &&& 0xf8 = 0x48 ↔ rexW x = true) := by
  decide +kernel

namespace Head

variable {m : Mode} (h : Head m)

theorem isPrefix_of_mem : ∀ x ∈ h.prefixes, m.IsPrefix x := by
  intro x hx
  rcases List.mem_append.mp hx with hl | hr
  · have hx' := isPrefix_of_legacy x (h.legacy_mem x hl)
    cases m with
    | ix86 => exact hx'.1
    | amd64 => exact hx'.2.1
  · have hrex : x ∈ h.rex := Option.mem_toList.mp hr
    cases m with
    | ix86 =>
      rw [h.rex_mode rfl] at hrex
      exact absurd hrex (by simp)
    | amd64 => exact (isPrefix_of_isRex x (h.rex_isRex x hrex)).1

theorem length_prefixes_lt : h.prefixes.length < m.limit := by
  have hl := h.legacy_le
  have hr : h.rex.toList.length ≤ 1 := by cases h.rex <;> simp
  rw [prefixes, List.length_append]
  cases m with
  | ix86 =>
    rw [h.rex_mode rfl]
    exact Nat.lt_of_le_of_lt hl (by decide)
  | amd64 =>
    show _ < 8
    omega

end Head

/-- The operand width of a head, as the 64-bit decoder finds it. -/
theorem widthOf_prefixes (h : Head .amd64) :
    widthOf h.prefixes 0 =
      if h.has66 then (if h.hasW then 0 else 16) else (if h.hasW then 64 else 32) := by
  have hlegacy : ∀ x ∈ h.legacy, x &&& 0xf8 ≠ 0x48 := fun x hx =>
    (isPrefix_of_legacy x (h.legacy_mem x hx)).2.2
  rw [Head.prefixes, widthOf_append _ _ hlegacy 0 (Or.inl rfl), Head.has66, Head.hasW]
  simp only [decide_eq_true_eq]
  cases hrex : h.rex with
  | none =>
    simp only [Option.toList_none, Option.any_none, Bool.false_eq_true, if_false]
    split_ifs <;> rfl
  | some x =>
    obtain ⟨-, hne, hw⟩ := isPrefix_of_isRex x (h.rex_isRex x hrex)
    simp only [Option.toList_some, Option.any_some, widthOf, if_neg hne, hw]
    split_ifs <;> simp_all

/-- What `Head.MeetsRule` comes to: no clash of prefixes, and the decoder's immediate is the
rule's. -/
theorem meetsRule_iff_imm {m : Mode} (h : Head m) (rest : ℕ → Byte) :
    h.MeetsRule rest ↔ ¬ m.Clash h.prefixes ∧
      m.imm1 h.prefixes h.op (hasGroupImm (rest 0)) =
        ruleImm m h.op (hasGroupImm (rest 0)) h.has66 h.hasW := by
  have hlt := h.length_prefixes_lt
  have hcode : ∀ i, spell [h.op] rest (1 + i) = rest i := spell_length_add [h.op] rest
  have h0 : spell [h.op] rest 0 = h.op := rfl
  have hop : ¬ m.IsPrefix (spell [h.op] rest 0) := h.not_isPrefix
  have hrun := Mode.run_spell hlt h.isPrefix_of_mem hop
  rw [h0, if_neg h.ne_escape, Mode.answer1, h0, hcode 0, hcode 1] at hrun
  rw [Head.MeetsRule, Head.stream, hrun]
  by_cases hclash : m.Clash h.prefixes
  · simp only [hclash, true_or, if_true, not_true, false_and, iff_false]
    exact fun hv => hv.1 invalid_setBadInstruction
  · simp only [hclash, h.entry_ne, or_self, if_false, not_false_eq_true, true_and]
    have hclear : ¬ Invalid (h.prefixes.length + 1 + modrmPart (m.entry1 h.op) (rest 0) (rest 1) +
        m.imm1 h.prefixes h.op (hasGroupImm (rest 0)), acceptFlags h.prefixes.length 0
        (modrmPart (m.entry1 h.op) (rest 0) (rest 1)) (m.modrmFlags (m.entry1 h.op) (rest 0))) := by
      exact not_invalid_accept m hlt false _ _ _ _ _
    simp only [hclear, not_false_eq_true, true_and]
    omega

/-! ## Table against rule -/

/-- In 32-bit mode the decoder's immediate does not see the prefixes at all. -/
theorem imm_ix86_eq_rule_iff : ∀ (op : Byte) (g has66 : Bool),
    (immOf (lookup table1Ix86 op) op g 4 = ruleImm .ix86 op g has66 false ↔
      Regular .ix86 op g has66 false) := by
  decide +kernel

/-- In 64-bit mode it sees them through the width. -/
theorem imm_amd64_eq_rule_iff : ∀ (op : Byte), ¬ Mode.amd64.IsPrefix op →
    lookup table1Amd64 op ≠ 0xff → ∀ g has66 hasW : Bool,
    (¬ (has66 ∧ hasW) ∧
        addlenAmd64 (immOf (lookup table1Amd64 op) op g 8)
          (if has66 then (if hasW then 0 else 16) else (if hasW then 64 else 32)) =
          ruleImm .amd64 op g has66 hasW ↔
      Regular .amd64 op g has66 hasW) := by
  decide +kernel

/-- **When the decoders meet the rule.**  In 32-bit mode: the opcode is not `A0` or `A2`, and no
operand-size prefix stands before an immediate that depends on it.  In 64-bit mode: the opcode is
not one of `A0`--`A3`, the operand-size prefix and `REX.W` do not occur together, and `REX.W` does
not stand before `F7 /0` or `F7 /1`. -/
theorem meetsRule_iff {m : Mode} (h : Head m) (rest : ℕ → Byte) :
    h.MeetsRule rest ↔ Regular m h.op (hasGroupImm (rest 0)) h.has66 h.hasW := by
  rw [meetsRule_iff_imm]
  cases m with
  | ix86 =>
    have hW : h.hasW = false := by rw [Head.hasW, h.rex_mode rfl, Option.any_none]
    rw [hW, Mode.imm1, imm_ix86_eq_rule_iff]
    simp only [Mode.Clash, not_false_eq_true, true_and]
  | amd64 =>
    rw [← imm_amd64_eq_rule_iff h.op h.not_isPrefix h.entry_ne, Mode.imm1, Mode.Clash,
      widthOf_prefixes]
    have hclash : (if h.has66 then (if h.hasW then 0 else 16) else (if h.hasW then 64 else 32)) = 0 ↔
        h.has66 ∧ h.hasW := by
      cases h.has66 <;> cases h.hasW <;> decide
    rw [hclash]

theorem length_operandSize_le : ([0x66] : List Byte).length ≤ 3 := by decide

/-- `66 05` in 32-bit mode: an addition with a two-byte immediate, measured with four. -/
def add66 : Head .ix86 where
  legacy := [0x66]
  rex := none
  op := 0x05
  legacy_mem := by decide
  legacy_le := length_operandSize_le
  rex_mode _ := rfl
  rex_isRex := by decide
  not_isPrefix := by decide
  ne_escape := by decide
  ne_call := by decide
  ne_jmp := by decide
  entry_ne := by decide

/-- The rule fails on `66 05 34 12`: the decoder answers six where the instruction has four bytes. -/
theorem add66_not_meetsRule : ¬ add66.MeetsRule (spell [0x34, 0x12] fun _ => 0x90) := by
  decide +kernel

end Disasm
end UtilWin
