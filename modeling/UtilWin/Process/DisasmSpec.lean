import UtilWin.Process.DisasmLen

/-!
# What the two decoders have in common

The decoders are separate recursions, but they are the same recursion: read a byte; past the limit,
give up; on a prefix, go on behind it; otherwise hand the opcode to the tables.  `Mode` names the two
and `Mode.loop_eq` is that equation, so what follows from the plan alone is proved once.

* `Mode.run_eq_stage`: with `k` prefixes in front of the opcode, fewer than the limit, the decoder is
  its table stage at `k`.
* `Mode.reads_le_or_mem`: and it has touched the prefixes, the opcode and what the stage touches.
* `Mode.reads_stage_lt`: a stage that accepts its opcode touches nothing past the length it reports.

The ModRM part gets a closed form of its own, `modrmLen`, in the words of the encoding: mode, `rm`
field and, only in mode `00` behind an SIB byte, the base field.
-/

namespace UtilWin
namespace Disasm

open Probe

/-! ## The ModRM part -/

/-- The size of a ModRM part by its fields: the ModRM byte, an SIB byte when `rm` asks for one, and
the displacement the mode asks for. -/
def modrmLen (v sib : Byte) : ℕ :=
  let mode := v >>> 6
  let rm := v &&& 0x7
  if mode = 3 then 1
  else
    1 + (if rm = 4 then 1 else 0) +
      (if mode = 2 then 4
       else if mode = 1 then 1
       else if rm = 5 then 4
       else if rm = 4 ∧ sib &&& 0x7 = 5 then 4
       else 0)

theorem modrmLen_pos (v sib : Byte) : 1 ≤ modrmLen v sib := by
  simp only [modrmLen]
  split <;> omega

theorem modrmLen_le (v sib : Byte) : modrmLen v sib ≤ 6 := by
  simp only [modrmLen]
  split_ifs <;> omega

/-- The tests `get_modrm` makes with masks, as tests of the fields. -/
theorem modrm_fields : ∀ v : Byte,
    (v &&& 0xc0 = 0xc0 ↔ v >>> 6 = 3) ∧ (v &&& 0xc7 = 0x5 ↔ v >>> 6 = 0 ∧ v &&& 0x7 = 5) ∧
      (v >>> 6 = 0 ∨ v >>> 6 = 1 ∨ v >>> 6 = 2 ∨ v >>> 6 = 3) := by
  decide

/-- `get_modrm` computes the size the fields ask for. -/
@[simp] theorem run_getModrm (v : Byte) (psib : ℕ) (b : ℕ → Byte) :
    (getModrm v psib).run b = modrmLen v (b psib) := by
  obtain ⟨h3, h5, hmode⟩ := modrm_fields v
  simp only [getModrm, modrmLen, run_ite, run_pure, run_peek_bind, h3, h5]
  rcases hmode with h | h | h | h <;> simp only [h] <;> split_ifs <;> simp_all

/-- `get_modrm` touches at most the SIB byte, and only when its answer covers it. -/
theorem reads_getModrm (v : Byte) (psib : ℕ) (b : ℕ → Byte) :
    ∀ i ∈ (getModrm v psib).reads b, i = psib ∧ 2 ≤ modrmLen v (b psib) := by
  intro i hi
  have hrun := run_getModrm v psib b
  simp only [getModrm, reads_ite, reads_pure, reads_peek_bind, run_ite, run_pure,
    run_bind] at hi hrun
  rw [← hrun]
  split_ifs at hi ⊢ with h1 h2 h3 h4 h5 h6 <;> simp_all

/-- The ModRM part of an opcode with table entry `v`, from the byte `m` behind it and the byte `s`
behind that. -/
def modrmPart (v m s : Byte) : ℕ := if v &&& 0x80 ≠ 0 then modrmLen m s else 0

@[simp] theorem run_modrmaddIx86 (v : Byte) (pos : ℕ) (b : ℕ → Byte) :
    (modrmaddIx86 v pos).run b = modrmPart v (b pos) (b (pos + 1)) := by
  simp only [modrmaddIx86, modrmPart, run_ite, run_peek_bind, run_getModrm, run_pure]

theorem reads_modrmaddIx86 (v : Byte) (pos : ℕ) (b : ℕ → Byte) :
    ∀ i ∈ (modrmaddIx86 v pos).reads b, i < pos + modrmPart v (b pos) (b (pos + 1)) := by
  intro i hi
  simp only [modrmaddIx86, reads_ite, reads_pure, reads_peek_bind] at hi
  rw [modrmPart]
  split_ifs at hi ⊢ with hv
  · rcases List.mem_cons.mp hi with h | h
    · have hpos := modrmLen_pos (b pos) (b (pos + 1))
      omega
    · have hsib := reads_getModrm _ _ _ i h
      omega
  · exact absurd hi List.not_mem_nil

/-- The flag word with the note that the operand is relative to the instruction pointer, when it
is. -/
def notePcRela (v m : Byte) (flags : Flags) : Flags :=
  if v &&& 0x80 ≠ 0 ∧ m &&& 0xc7 = 0x5 then flags ||| ilfPcRela else flags

@[simp] theorem run_modrmaddAmd64 (v : Byte) (pos : ℕ) (flags : Flags) (b : ℕ → Byte) :
    (modrmaddAmd64 v pos flags).run b =
      (modrmPart v (b pos) (b (pos + 1)), notePcRela v (b pos) flags) := by
  by_cases hv : v &&& 0x80 ≠ 0
  · simp only [modrmaddAmd64, modrmPart, notePcRela, run_bind, run_peek, run_getModrm, run_pure, hv,
      true_and, ne_eq, not_false_eq_true, if_true]
    rfl
  · simp only [modrmaddAmd64, modrmPart, notePcRela, run_pure, hv, false_and, if_false]

theorem reads_modrmaddAmd64 (v : Byte) (pos : ℕ) (flags : Flags) (b : ℕ → Byte) :
    (modrmaddAmd64 v pos flags).reads b = (modrmaddIx86 v pos).reads b := by
  simp only [modrmaddAmd64, modrmaddIx86, reads_ite, reads_pure, reads_bind, run_peek,
    List.append_nil]

/-! ## The immediate of the group `F6`/`F7` -/

/-- The members of a group that have an immediate: `/0` and `/1`. -/
def hasGroupImm (m : Byte) : Bool := m &&& 0x38 < 0x10

@[simp] theorem run_group3 (op grp : Byte) (ptr imm addlen : ℕ) (b : ℕ → Byte) :
    (group3 op grp ptr imm addlen).run b =
      if op = grp ∧ hasGroupImm (b (ptr + 1)) then imm else addlen := by
  simp only [group3, run_ite, run_peek_bind, run_pure]
  by_cases hop : op = grp
  · simp only [hop, hasGroupImm, if_true, true_and, decide_eq_true_eq]
  · simp only [hop, if_false, false_and]

theorem reads_group3 (op grp : Byte) (ptr imm addlen : ℕ) (b : ℕ → Byte) :
    ∀ i ∈ (group3 op grp ptr imm addlen).reads b, i = ptr + 1 ∧ op = grp := by
  intro i hi
  simp only [group3, reads_ite, reads_peek_bind, reads_pure] at hi
  split_ifs at hi with hop
  · exact ⟨List.mem_singleton.mp hi, hop⟩
  · exact absurd hi List.not_mem_nil

/-- The opcodes whose ModRM byte is looked at for an immediate do have a ModRM byte, in both
tables. -/
theorem group3_hasModrm {op : Byte} (h : op = 0xf6 ∨ op = 0xf7) :
    lookup table1Ix86 op &&& 0x80 ≠ 0 ∧ lookup table1Amd64 op &&& 0x80 ≠ 0 := by
  rcases h with rfl | rfl <;> decide

/-! ## The operand width -/

theorem reads_getWidthAmd64Loop (b : ℕ → Byte) : ∀ n i width : ℕ,
    ∀ j ∈ (getWidthAmd64Loop n i width).reads b, j < i + n := by
  intro n
  induction n with
  | zero => intro i width j hj; exact absurd hj List.not_mem_nil
  | succ n ih =>
    intro i width j hj
    simp only [getWidthAmd64Loop, reads_peek_bind, reads_ite, reads_pure] at hj
    rcases List.mem_cons.mp hj with rfl | hj
    · omega
    · -- every branch that goes on does so from `i + 1`
      have hrest : ∀ w, j ∈ (getWidthAmd64Loop n (i + 1) w).reads b → j < i + (n + 1) := by
        intro w hw
        have := ih (i + 1) w j hw
        omega
      split_ifs at hj
      all_goals first | exact hrest _ hj | exact absurd hj List.not_mem_nil

/-- The width that a string of prefix bytes asks for, from the width `w` found so far. -/
def widthOf : List Byte → (w : ℕ) → ℕ
  | [], w => if w = 0 then 32 else w
  | ch :: s, w =>
    if ch = 0x66 then
      if w = 0 ∨ w = 16 then widthOf s 16 else 0
    else if ch &&& 0xf8 = 0x48 then
      if w = 0 then widthOf s 64 else 0
    else widthOf s w

/-- The width scan is a fold over the bytes it passes. -/
theorem run_getWidthAmd64Loop {b : ℕ → Byte} : ∀ (s : List Byte) (i w : ℕ),
    StartsWith (suffixAt b i) s → (getWidthAmd64Loop s.length i w).run b = widthOf s w := by
  intro s
  induction s with
  | nil => intro i w _; rfl
  | cons ch s ih =>
    intro i w hb
    have hch : b i = ch := hb 0 (by rw [List.length_cons]; omega)
    have hs : StartsWith (suffixAt b (i + 1)) s := by
      intro j hj
      have h := hb (j + 1) (by rw [List.length_cons]; omega)
      rw [List.getElem_cons_succ] at h
      rw [← h, suffixAt_apply, suffixAt_apply]
      exact congrArg b (by omega)
    simp only [List.length_cons, getWidthAmd64Loop, run_peek_bind, run_ite, run_pure, hch,
      ih _ _ hs, widthOf]

/-- Bytes that are not `REX.W` leave a width of `0` or `16` alone, except that `66` makes it `16`. -/
theorem widthOf_append (s t : List Byte) (hs : ∀ x ∈ s, x &&& 0xf8 ≠ 0x48) :
    ∀ w, w = 0 ∨ w = 16 → widthOf (s ++ t) w = widthOf t (if 0x66 ∈ s then 16 else w) := by
  induction s with
  | nil =>
    intro w _
    rw [List.nil_append, if_neg List.not_mem_nil]
  | cons x s ih =>
    intro w hw
    have hx : x &&& 0xf8 ≠ 0x48 := hs x (List.mem_cons_self ..)
    have hs' : ∀ y ∈ s, y &&& 0xf8 ≠ 0x48 := fun y hy => hs y (List.mem_cons_of_mem x hy)
    rw [List.cons_append, widthOf]
    by_cases h66 : x = 0x66
    · have hmem : 0x66 ∈ x :: s := by rw [h66]; exact List.mem_cons_self ..
      rw [if_pos h66, if_pos hw, ih hs' 16 (Or.inr rfl), if_pos hmem, ite_self]
    · have hmem : 0x66 ∈ x :: s ↔ 0x66 ∈ s := by
        rw [List.mem_cons, or_iff_right (Ne.symm h66)]
      rw [if_neg h66, if_neg hx, ih hs' w hw]
      simp only [hmem]

/-- The width scan of a decoder that has taken the first `k` bytes as prefixes stays inside them. -/
theorem reads_getWidthAmd64 (k : ℕ) (b : ℕ → Byte) :
    ∀ j ∈ (getWidthAmd64 (k - k) k).reads b, j < k := by
  intro j hj
  have := reads_getWidthAmd64Loop b k (k - k) 0 j hj
  omega

/-! ## The table stages -/

/-- The flag word of an instruction that is accepted. -/
def acceptFlags (k : ℕ) (escape : Flags) (modrmadd : ℕ) (flags : Flags) : Flags :=
  flags ||| BitVec.ofNat 32 k ||| escape ||| BitVec.ofNat 32 modrmadd <<< ilfModrmShift

/-- The size of the immediate of a one-byte opcode before the operand width is taken into account:
the table's, but `f7` for the members `/0` and `/1` of the group `F7` and one byte for those of
`F6`.  Whether the ModRM byte selects `/0` or `/1` is the argument `g`. -/
def immOf (v op : Byte) (g : Bool) (f7 : ℕ) : ℕ :=
  if op = 0xf7 ∧ g then f7
  else if op = 0xf6 ∧ g then 1
  else (v &&& 0xf).toNat

theorem or_zero_flags (x : Flags) : x ||| 0 = x := BitVec.or_zero

theorem run_twoByteIx86 (k : ℕ) (b : ℕ → Byte) :
    (twoByteIx86 k k false 0).run b =
      let v := lookup table2Ix86 (b (k + 1))
      let modrmadd := modrmPart v (b (k + 2)) (b (k + 3))
      if v = 0xff then setBadInstruction 0
      else (k + 2 + modrmadd + (v &&& 0xf).toNat, acceptFlags k ilf2Byte modrmadd 0) := by
  simp only [twoByteIx86, run_peek_bind, run_ite, run_pure]
  simp only [run_bind, run_modrmaddIx86, run_pure, acceptFlags, Bool.false_eq_true, and_false,
    if_false]

theorem run_oneByteIx86 (op : Byte) (k : ℕ) (b : ℕ → Byte) :
    (oneByteIx86 op k k false 0).run b =
      let v := lookup table1Ix86 op
      let modrmadd := modrmPart v (b (k + 1)) (b (k + 2))
      if v = 0xff then setBadInstruction 0
      else (k + 1 + modrmadd + immOf v op (hasGroupImm (b (k + 1))) 4, acceptFlags k 0 modrmadd 0) := by
  simp only [oneByteIx86, run_ite, run_bind, run_pure, run_modrmaddIx86, run_group3, acceptFlags,
    immOf, Bool.false_eq_true, and_false, if_false, or_zero_flags]

theorem run_twoByteAmd64 (k : ℕ) (b : ℕ → Byte) :
    (twoByteAmd64 k k 0).run b =
      let width := (getWidthAmd64 (k - k) k).run b
      let v := lookup table2Amd64 (b (k + 1))
      let modrmadd := modrmPart v (b (k + 2)) (b (k + 3))
      if width = 0 then setBadInstruction 0
      else if v = 0xff then setBadInstruction 0
      else (k + 2 + modrmadd + addlenAmd64 (v &&& 0xf).toNat width,
        acceptFlags k ilf2Byte modrmadd (notePcRela v (b (k + 2)) 0)) := by
  simp only [twoByteAmd64, run_bind (getWidthAmd64 _ _), run_peek_bind, run_ite, run_pure]
  simp only [run_bind, run_modrmaddAmd64, run_pure, acceptFlags]

theorem run_oneByteAmd64 (op : Byte) (k : ℕ) (b : ℕ → Byte) :
    (oneByteAmd64 op k k 0).run b =
      let width := (getWidthAmd64 (k - k) k).run b
      let v := lookup table1Amd64 op
      let modrmadd := modrmPart v (b (k + 1)) (b (k + 2))
      if width = 0 then setBadInstruction 0
      else if v = 0xff then setBadInstruction 0
      else (k + 1 + modrmadd + addlenAmd64 (immOf v op (hasGroupImm (b (k + 1))) 8) width,
        acceptFlags k 0 modrmadd (notePcRela v (b (k + 1)) 0)) := by
  simp only [oneByteAmd64, run_ite, run_bind, run_pure, run_modrmaddAmd64, run_group3, acceptFlags,
    immOf, or_zero_flags]

/-! ## The common plan -/

/-- The two decoders. -/
inductive Mode where
  | ix86
  | amd64
  deriving DecidableEq

namespace Mode

/-- How many prefixes are too many. -/
def limit : Mode → ℕ
  | ix86 => 4
  | amd64 => 8

/-- The bytes the decoder passes as prefixes. -/
def IsPrefix : Mode → Byte → Prop
  | ix86, op => op ∈ prefixesIx86 ∨ op = 0x66
  | amd64, op => op ∈ prefixesAmd64

instance (m : Mode) (op : Byte) : Decidable (m.IsPrefix op) := by
  cases m <;> unfold IsPrefix <;> infer_instance

/-- What the decoder does with the opcode `op` behind `k` prefixes. -/
def stage : Mode → ℕ → Byte → Probe ℕ Byte Decoded
  | ix86, k, op => if op = 0x0f then twoByteIx86 k k false 0 else oneByteIx86 op k k false 0
  | amd64, k, op => if op = 0x0f then twoByteAmd64 k k 0 else oneByteAmd64 op k k 0

/-- The recursion of the decoder, after `k` prefixes. -/
def loop : Mode → ℕ → Probe ℕ Byte Decoded
  | ix86, k => getInstructionLengthIx86_ k k false 0
  | amd64, k => getInstructionLengthAmd64_ k k 0

/-- The decoder. -/
def decoder : Mode → Probe ℕ Byte Decoded
  | ix86 => getInstructionLengthIx86
  | amd64 => getInstructionLengthAmd64

theorem decoder_eq_loop (m : Mode) : m.decoder = m.loop 0 := by
  cases m <;> rfl

/-- **Both decoders are this recursion.** -/
theorem loop_eq (m : Mode) (k : ℕ) :
    m.loop k = (do
      let op ← peek k
      if m.limit ≤ k then pure (1, 0)
      else if m.IsPrefix op then m.loop (k + 1)
      else m.stage k op) := by
  cases m with
  | ix86 =>
    rw [loop, getInstructionLengthIx86_]
    refine congrArg (peek k >>= ·) (funext fun op => ?_)
    by_cases h66 : op = 0x66
    · subst h66
      rfl
    · simp only [limit, IsPrefix, stage, loop, h66, or_false, if_false]
  | amd64 =>
    rw [loop, getInstructionLengthAmd64_]
    rfl

/-- The decoder reaches an opcode behind `k` prefixes: fewer than its limit, and then a byte that is
none. -/
structure OpcodeAt (m : Mode) (b : ℕ → Byte) (k : ℕ) : Prop where
  /-- The limit is not reached. -/
  lt_limit : k < m.limit
  /-- What stands in front is prefixes. -/
  isPrefix : ∀ i < k, m.IsPrefix (b i)
  /-- The opcode is not one. -/
  not_isPrefix : ¬ m.IsPrefix (b k)

variable {m : Mode} {b : ℕ → Byte} {k : ℕ}

/-- From any prefix on, the recursion ends in the table stage at the opcode. -/
theorem OpcodeAt.run_loop (h : m.OpcodeAt b k) :
    ∀ d ≤ k, (m.loop (k - d)).run b = (m.stage k (b k)).run b := by
  intro d
  induction d with
  | zero =>
    intro _
    rw [Nat.sub_zero, loop_eq, run_peek_bind, if_neg (Nat.not_le.mpr h.lt_limit),
      if_neg h.not_isPrefix]
  | succ d ih =>
    intro hd
    have hlt : ¬ m.limit ≤ k - (d + 1) := by
      have := h.lt_limit
      omega
    rw [loop_eq, run_peek_bind, if_neg hlt, if_pos (h.isPrefix _ (by omega)),
      show k - (d + 1) + 1 = k - d by omega]
    exact ih (by omega)

/-- **The decoder is its table stage at the opcode.** -/
theorem OpcodeAt.run_eq_stage (h : m.OpcodeAt b k) :
    m.decoder.run b = (m.stage k (b k)).run b := by
  have hrun := h.run_loop k le_rfl
  rwa [Nat.sub_self, ← decoder_eq_loop] at hrun

theorem OpcodeAt.reads_loop (h : m.OpcodeAt b k) :
    ∀ d ≤ k, ∀ i ∈ (m.loop (k - d)).reads b, i ≤ k ∨ i ∈ (m.stage k (b k)).reads b := by
  intro d
  induction d with
  | zero =>
    intro _ i hi
    rw [Nat.sub_zero, loop_eq, reads_peek_bind, if_neg (Nat.not_le.mpr h.lt_limit),
      if_neg h.not_isPrefix, List.mem_cons] at hi
    rcases hi with rfl | hi
    · exact Or.inl le_rfl
    · exact Or.inr hi
  | succ d ih =>
    intro hd i hi
    have hlt : ¬ m.limit ≤ k - (d + 1) := by
      have := h.lt_limit
      omega
    rw [loop_eq, reads_peek_bind, if_neg hlt, if_pos (h.isPrefix _ (by omega)),
      show k - (d + 1) + 1 = k - d by omega, List.mem_cons] at hi
    rcases hi with rfl | hi
    · exact Or.inl (by omega)
    · exact ih (by omega) i hi

/-- The decoder touches the prefixes, the opcode and what the table stage touches. -/
theorem OpcodeAt.reads_le_or_mem (h : m.OpcodeAt b k) :
    ∀ i ∈ m.decoder.reads b, i ≤ k ∨ i ∈ (m.stage k (b k)).reads b := by
  intro i hi
  refine h.reads_loop k le_rfl i ?_
  rwa [Nat.sub_self, ← decoder_eq_loop]

end Mode

/-! ## Streams spelled out as prefixes and code

Where the prefixes are known, the decoder's answer is a closed form in them and in the bytes of the
code behind them: opcode `code 0`, then `code 1` and so on. -/

namespace Mode

/-- The opcode's entry in the one-byte table. -/
def entry1 : Mode → Byte → Byte
  | ix86, op => lookup table1Ix86 op
  | amd64, op => lookup table1Amd64 op

/-- The opcode's entry in the table behind the escape byte. -/
def entry2 : Mode → Byte → Byte
  | ix86, op => lookup table2Ix86 op
  | amd64, op => lookup table2Amd64 op

/-- The size of the immediate of a one-byte opcode behind the prefixes `s`. -/
def imm1 : Mode → List Byte → Byte → Bool → ℕ
  | ix86, _, op, g => immOf (lookup table1Ix86 op) op g 4
  | amd64, s, op, g => addlenAmd64 (immOf (lookup table1Amd64 op) op g 8) (widthOf s 0)

/-- The size of the immediate of a two-byte opcode behind the prefixes `s`. -/
def imm2 : Mode → List Byte → Byte → ℕ
  | ix86, _, op2 => (lookup table2Ix86 op2 &&& 0xf).toNat
  | amd64, s, op2 => addlenAmd64 (lookup table2Amd64 op2 &&& 0xf).toNat (widthOf s 0)

/-- The decoder refuses the prefixes themselves, whatever the opcode. -/
def Clash : Mode → List Byte → Prop
  | ix86, _ => False
  | amd64, s => widthOf s 0 = 0

instance (m : Mode) (s : List Byte) : Decidable (m.Clash s) := by
  cases m <;> unfold Clash <;> infer_instance

/-- The flags that the ModRM byte `mb` of an opcode with entry `v` adds. -/
def modrmFlags : Mode → Byte → Byte → Flags
  | ix86, _, _ => 0
  | amd64, v, mb => notePcRela v mb 0

/-- The decoder's answer on a one-byte opcode. -/
def answer1 (m : Mode) (s : List Byte) (code : ℕ → Byte) : Decoded :=
  let v := m.entry1 (code 0)
  let modrmadd := modrmPart v (code 1) (code 2)
  if m.Clash s ∨ v = 0xff then setBadInstruction 0
  else (s.length + 1 + modrmadd + m.imm1 s (code 0) (hasGroupImm (code 1)),
    acceptFlags s.length 0 modrmadd (m.modrmFlags v (code 1)))

/-- The decoder's answer on a two-byte opcode. -/
def answer2 (m : Mode) (s : List Byte) (code : ℕ → Byte) : Decoded :=
  let v := m.entry2 (code 1)
  let modrmadd := modrmPart v (code 2) (code 3)
  if m.Clash s ∨ v = 0xff then setBadInstruction 0
  else (s.length + 2 + modrmadd + m.imm2 s (code 1),
    acceptFlags s.length ilf2Byte modrmadd (m.modrmFlags v (code 2)))

variable {m : Mode} {s : List Byte} {code : ℕ → Byte}

theorem opcodeAt_spell (hlen : s.length < m.limit) (hs : ∀ x ∈ s, m.IsPrefix x)
    (hop : ¬ m.IsPrefix (code 0)) : m.OpcodeAt (spell s code) s.length where
  lt_limit := hlen
  isPrefix i hi := by
    rw [spell_of_lt s code hi]
    exact hs _ (List.getElem_mem hi)
  not_isPrefix := by
    have h := spell_length_add s code 0
    rw [Nat.add_zero] at h
    rwa [h]

/-- The width scan over spelled-out prefixes. -/
theorem run_getWidthAmd64_spell (s : List Byte) (code : ℕ → Byte) :
    (getWidthAmd64 (s.length - s.length) s.length).run (spell s code) = widthOf s 0 := by
  rw [Nat.sub_self]
  refine run_getWidthAmd64Loop s 0 0 ?_
  rw [suffixAt_zero]
  exact startsWith_spell s code

/-- **The decoder's answer, spelled out.** -/
theorem run_spell (hlen : s.length < m.limit) (hs : ∀ x ∈ s, m.IsPrefix x)
    (hop : ¬ m.IsPrefix (code 0)) :
    m.decoder.run (spell s code) =
      if code 0 = 0x0f then m.answer2 s code else m.answer1 s code := by
  have h0 : spell s code s.length = code 0 := spell_length_add s code 0
  rw [(opcodeAt_spell hlen hs hop).run_eq_stage, h0]
  cases m with
  | ix86 =>
    simp only [stage, run_ite, run_twoByteIx86, run_oneByteIx86, spell_length_add, answer1, answer2,
      entry1, entry2, imm1, imm2, Clash, modrmFlags, false_or]
  | amd64 =>
    simp only [stage, run_ite, run_twoByteAmd64, run_oneByteAmd64, run_getWidthAmd64_spell,
      spell_length_add, answer1, answer2, entry1, entry2, imm1, imm2, Clash, modrmFlags]
    by_cases hw : widthOf s 0 = 0
    · simp only [hw, true_or, if_true]
    · simp only [hw, false_or, if_false]

end Mode

/-! ## Refused and accepted -/

/-- The decoder refused the instruction. -/
def Invalid (r : Decoded) : Prop := r.2 &&& ilfInvalid ≠ 0

instance (r : Decoded) : Decidable (Invalid r) := by unfold Invalid; infer_instance

theorem invalid_setBadInstruction : Invalid (setBadInstruction 0) := by decide

theorem acceptFlags_clear : ∀ (k r : Fin 8) (two rela : Bool),
    acceptFlags k (if two then ilf2Byte else 0) r (if rela then ilfPcRela else 0) &&&
      ilfInvalid = 0 := by
  decide +kernel

theorem modrmPart_lt (v a s : Byte) : modrmPart v a s < 8 := by
  have := modrmLen_le a s
  rw [modrmPart]
  split <;> omega

theorem Mode.exists_modrmFlags (m : Mode) (v a : Byte) :
    ∃ rela : Bool, m.modrmFlags v a = if rela then ilfPcRela else 0 := by
  cases m with
  | ix86 => exact ⟨false, rfl⟩
  | amd64 =>
    refine ⟨v &&& 0x80 ≠ 0 ∧ a &&& 0xc7 = 0x5, ?_⟩
    simp only [modrmFlags, notePcRela, decide_eq_true_eq]
    rfl

theorem Mode.limit_le (m : Mode) : m.limit ≤ 8 := by cases m <;> decide

/-- An answer that accepts a one-byte or two-byte opcode is not marked invalid. -/
theorem not_invalid_accept (m : Mode) {k : ℕ} (hk : k < m.limit) (two : Bool) (n : ℕ)
    (v w a s : Byte) :
    ¬ Invalid (n, acceptFlags k (if two then ilf2Byte else 0) (modrmPart v a s)
      (m.modrmFlags w a)) := by
  obtain ⟨rela, hrela⟩ := m.exists_modrmFlags w a
  rw [Invalid, not_not, hrela]
  exact acceptFlags_clear ⟨k, lt_of_lt_of_le hk m.limit_le⟩ ⟨modrmPart v a s, modrmPart_lt v a s⟩
    two rela

/-! ## An accepting stage stays inside its answer -/

/-- What an accepting stage owes: its answer covers the opcode and everything it touched. -/
def Covers (k : ℕ) (t : Probe ℕ Byte Decoded) (b : ℕ → Byte) : Prop :=
  ¬ Invalid (t.run b) → k < (t.run b).1 ∧ ∀ i ∈ t.reads b, i < (t.run b).1

theorem covers_twoByteIx86 (k : ℕ) (b : ℕ → Byte) : Covers k (twoByteIx86 k k false 0) b := by
  intro hv
  rw [run_twoByteIx86] at hv ⊢
  simp only at hv ⊢
  split_ifs at hv ⊢ with h0
  · exact absurd invalid_setBadInstruction hv
  · refine ⟨by dsimp only; omega, fun i hi => ?_⟩
    simp only [twoByteIx86, reads_peek_bind, if_neg h0, List.mem_cons] at hi
    rcases hi with rfl | hi
    · dsimp only; omega
    · simp only [reads_bind, reads_pure, List.append_nil] at hi
      have hlt : i < k + 2 + modrmPart (lookup table2Ix86 (b (k + 1))) (b (k + 2)) (b (k + 3)) :=
        reads_modrmaddIx86 _ _ _ i hi
      dsimp only
      omega

/-- The byte a group is decided on is the ModRM byte, which the ModRM part counts. -/
theorem reads_group3_lt {op grp v : Byte} {ptr imm addlen : ℕ} (hgrp : grp = 0xf6 ∨ grp = 0xf7)
    (hmark : op = 0xf6 ∨ op = 0xf7 → v &&& 0x80 ≠ 0) (m s : Byte) (b : ℕ → Byte) :
    ∀ i ∈ (group3 op grp ptr imm addlen).reads b, i < ptr + 1 + modrmPart v m s := by
  intro i hi
  obtain ⟨rfl, rfl⟩ := reads_group3 _ _ _ _ _ _ i hi
  have hpos := modrmLen_pos m s
  rw [modrmPart, if_pos (hmark hgrp)]
  omega

theorem covers_oneByteIx86 (op : Byte) (k : ℕ) (b : ℕ → Byte) :
    Covers k (oneByteIx86 op k k false 0) b := by
  intro hv
  rw [run_oneByteIx86] at hv ⊢
  simp only at hv ⊢
  split_ifs at hv ⊢ with h0
  · exact absurd invalid_setBadInstruction hv
  · refine ⟨by dsimp only; omega, fun i hi => ?_⟩
    have hmark := fun hop => (@group3_hasModrm op hop).1
    simp only [oneByteIx86, if_neg h0, reads_bind, reads_pure, List.append_nil,
      List.mem_append] at hi
    rcases hi with hi | hi | hi
    · have hlt := reads_group3_lt (Or.inl rfl) hmark (b (k + 1)) (b (k + 2)) b i hi
      dsimp only; omega
    · have hlt := reads_group3_lt (Or.inr rfl) hmark (b (k + 1)) (b (k + 2)) b i hi
      dsimp only; omega
    · have hlt : i < k + 1 + modrmPart (lookup table1Ix86 op) (b (k + 1)) (b (k + 2)) :=
        reads_modrmaddIx86 _ _ _ i hi
      dsimp only
      omega

theorem covers_twoByteAmd64 (k : ℕ) (b : ℕ → Byte) : Covers k (twoByteAmd64 k k 0) b := by
  intro hv
  rw [run_twoByteAmd64] at hv ⊢
  simp only at hv ⊢
  split_ifs at hv ⊢ with hw h0
  · exact absurd invalid_setBadInstruction hv
  · exact absurd invalid_setBadInstruction hv
  · refine ⟨by dsimp only; omega, fun i hi => ?_⟩
    simp only [twoByteAmd64, reads_bind (getWidthAmd64 _ _), if_neg hw, reads_peek_bind, if_neg h0,
      List.mem_append, List.mem_cons] at hi
    rcases hi with hi | rfl | hi
    · have := reads_getWidthAmd64 k b i hi
      dsimp only; omega
    · dsimp only; omega
    · simp only [reads_bind, reads_pure, List.append_nil, reads_modrmaddAmd64] at hi
      have hlt : i < k + 2 + modrmPart (lookup table2Amd64 (b (k + 1))) (b (k + 2)) (b (k + 3)) :=
        reads_modrmaddIx86 _ _ _ i hi
      dsimp only
      omega

theorem covers_oneByteAmd64 (op : Byte) (k : ℕ) (b : ℕ → Byte) :
    Covers k (oneByteAmd64 op k k 0) b := by
  intro hv
  rw [run_oneByteAmd64] at hv ⊢
  simp only at hv ⊢
  split_ifs at hv ⊢ with hw h0
  · exact absurd invalid_setBadInstruction hv
  · exact absurd invalid_setBadInstruction hv
  · refine ⟨by dsimp only; omega, fun i hi => ?_⟩
    have hmark := fun hop => (@group3_hasModrm op hop).2
    simp only [oneByteAmd64, reads_bind, if_neg hw, if_neg h0, reads_modrmaddAmd64, reads_pure,
      List.append_nil, List.mem_append] at hi
    rcases hi with hi | hi | hi | hi
    · have := reads_getWidthAmd64 k b i hi
      dsimp only; omega
    · have hlt : i < k + 1 + modrmPart (lookup table1Amd64 op) (b (k + 1)) (b (k + 2)) :=
        reads_modrmaddIx86 _ _ _ i hi
      dsimp only
      omega
    · have hlt := reads_group3_lt (Or.inl rfl) hmark (b (k + 1)) (b (k + 2)) b i hi
      dsimp only; omega
    · have hlt := reads_group3_lt (Or.inr rfl) hmark (b (k + 1)) (b (k + 2)) b i hi
      dsimp only; omega

/-- **An accepting stage covers the opcode and all it touched**, in both decoders. -/
theorem Mode.covers_stage (m : Mode) (k : ℕ) (op : Byte) (b : ℕ → Byte) :
    Covers k (m.stage k op) b := by
  cases m with
  | ix86 =>
    rw [stage]
    split_ifs
    · exact covers_twoByteIx86 k b
    · exact covers_oneByteIx86 op k b
  | amd64 =>
    rw [stage]
    split_ifs
    · exact covers_twoByteAmd64 k b
    · exact covers_oneByteAmd64 op k b

end Disasm
end UtilWin
