import UtilWin.Library.Probe
import Mathlib.Data.BitVec

/-!
# The instruction length decoders

`process/disasmlen.c` measures one x86 instruction.  Both decoders have the same plan: step over
prefixes up to a limit, then look the opcode up in a table whose entry holds the size of the
immediate in its low nibble and, in bit 7, whether a ModRM byte follows; `0xFF` marks an opcode the
decoder refuses.  What they differ in is how they know the operand size.  The 32-bit decoder carries
it in a parameter `bit16`; the 64-bit one goes back over the prefix bytes (`get_width_amd64`).

The functions are translated as probes over the byte stream that starts at the instruction, so that
what they *read* is part of the model and not only what they return.  They return the length together
with the flag word.

The tables are copied from the source row by row.
-/

namespace UtilWin
namespace Disasm

open Probe

/-- `uint8_t`. -/
abbrev Byte := BitVec 8

instance : LawfulBEq Byte := inferInstance

/-- The flag word, an `unsigned int`. -/
abbrev Flags := BitVec 32

/-! ## The flag word -/

/-- The bits that hold the number of prefixes. -/
def ilfPlenMask : Flags := 0x7

/-- Where the size of the ModRM part starts. -/
def ilfModrmShift : ℕ := 4

/-- The bits that hold the size of the ModRM part. -/
def ilfModrmMask : Flags := 0x7 <<< 4

/-- The opcode has two bytes. -/
def ilf2Byte : Flags := 0x100

/-- The ModRM operand is relative to the instruction pointer. -/
def ilfPcRela : Flags := 0x200

/-- The decoder refused the instruction. -/
def ilfInvalid : Flags := 0x8000

/-- The result of a decoder: the length and the flag word. -/
abbrev Decoded := ℕ × Flags

/-- `set_bad_instruction`. -/
def setBadInstruction (flags : Flags) : Decoded := (1, flags ||| ilfInvalid)

/-! ## ModRM -/

/-- `get_modrm`: the size of the ModRM byte `v`, its SIB byte and its displacement.  The SIB byte is
looked at only when there is one and the mode is `00`. -/
def getModrm (v : Byte) (psib : ℕ) : Probe ℕ Byte ℕ :=
  let mode := v >>> 6
  let sib := if v &&& 0x7 = 0x4 then 1 else 0
  if v &&& 0xc7 = 0x5 then pure (4 + 1)
  else if v &&& 0xc0 = 0xc0 then pure 1
  else if mode = 2 then pure (sib + 4 + 1)
  else if mode = 1 then pure (sib + 1 + 1)
  else if mode = 0 ∧ sib = 1 then do
    let s ← peek psib
    if s &&& 0x7 = 5 then pure (4 + 1 + 1) else pure (sib + 1)
  else pure (sib + 1)

/-! ## Opcode tables -/

/-- An opcode table of 256 entries, kept in the sixteen rows in which the source writes it. -/
abbrev Table := Vector (Vector Byte 16) 16

/-- The entry of an opcode. -/
def lookup (t : Table) (op : Byte) : Byte :=
  (t.get ⟨op.toNat / 16, by omega⟩).get ⟨op.toNat % 16, by omega⟩

/-! ## The 32-bit decoder -/

/-- One-byte opcodes, 32-bit mode. -/
def table1Ix86 : Table :=
  #v[#v[0x80,0x80,0x80,0x80,0x01,0x04,0x00,0x00,0x80,0x80,0x80,0x80,0x01,0x04,0x00,0x00],
    #v[0x80,0x80,0x80,0x80,0x01,0x04,0x00,0x00,0x80,0x80,0x80,0x80,0x01,0x04,0x00,0x00],
    #v[0x80,0x80,0x80,0x80,0x01,0x04,0x00,0x00,0x80,0x80,0x80,0x80,0x01,0x04,0x00,0x00],
    #v[0x80,0x80,0x80,0x80,0x01,0x04,0x00,0x00,0x80,0x80,0x80,0x80,0x01,0x04,0x00,0x00],
    #v[0x00,0x00,0x00,0x00,0x00,0x00,0x00,0x00,0x00,0x00,0x00,0x00,0x00,0x00,0x00,0x00],
    #v[0x00,0x00,0x00,0x00,0x00,0x00,0x00,0x00,0x00,0x00,0x00,0x00,0x00,0x00,0x00,0x00],
    #v[0x00,0x00,0x80,0x80,0x00,0x00,0x00,0x00,0x04,0x84,0x01,0x81,0x00,0x00,0x00,0x00],
    #v[0x01,0x01,0x01,0x01,0x01,0x01,0x01,0x01,0x01,0x01,0x01,0x01,0x01,0x01,0x01,0x01],
    #v[0x81,0x84,0x81,0x81,0x80,0x80,0x80,0x80,0x80,0x80,0x80,0x80,0x80,0x80,0x80,0x80],
    #v[0x00,0x00,0x00,0x00,0x00,0x00,0x00,0x00,0x00,0x00,0x06,0x00,0x00,0x00,0x00,0x00],
    #v[0x00,0x04,0x00,0x04,0x00,0x00,0x00,0x00,0x01,0x04,0x00,0x00,0x00,0x00,0x00,0x00],
    #v[0x01,0x01,0x01,0x01,0x01,0x01,0x01,0x01,0x04,0x04,0x04,0x04,0x04,0x04,0x04,0x04],
    #v[0x81,0x81,0x02,0x00,0x80,0x80,0x81,0x84,0x03,0x00,0x02,0x00,0x00,0x01,0x00,0x00],
    #v[0x80,0x80,0x80,0x80,0x01,0x01,0x00,0x00,0x80,0x80,0x80,0x80,0x80,0x80,0x80,0x80],
    #v[0x01,0x01,0x01,0x01,0x01,0x01,0x01,0x01,0x04,0x04,0x06,0x01,0x00,0x00,0x00,0x00],
    #v[0x00,0x00,0x00,0x00,0x00,0x00,0x80,0x80,0x00,0x00,0x00,0x00,0x00,0x00,0x80,0x80]]

/-- Opcodes behind the escape byte `0F`, 32-bit mode. -/
def table2Ix86 : Table :=
  #v[#v[0x80,0x80,0x80,0x80,0xFF,0xFF,0x00,0xFF,0x00,0x00,0xFF,0x00,0xFF,0x00,0xFF,0xFF],
    #v[0x80,0x80,0x80,0x80,0x80,0x80,0x80,0x80,0x80,0x80,0x80,0x80,0x80,0x80,0x80,0x80],
    #v[0x80,0x80,0x80,0x80,0xFF,0xFF,0xFF,0xFF,0x80,0x80,0x80,0x80,0x80,0x80,0x80,0x80],
    #v[0x00,0x00,0x00,0x00,0x00,0x00,0xFF,0x00,0x80,0xFF,0x81,0xFF,0xFF,0xFF,0xFF,0xFF],
    #v[0x80,0x80,0x80,0x80,0x80,0x80,0x80,0x80,0x80,0x80,0x80,0x80,0x80,0x80,0x80,0x80],
    #v[0x80,0x80,0x80,0x80,0x80,0x80,0x80,0x80,0x80,0x80,0x80,0x80,0x80,0x80,0x80,0x80],
    #v[0x80,0x80,0x80,0x80,0x80,0x80,0x80,0x80,0x80,0x80,0x80,0x80,0x80,0x80,0x80,0x80],
    #v[0x81,0x81,0x81,0x81,0x80,0x80,0x80,0x00,0x80,0x80,0xFF,0xFF,0x80,0x80,0x80,0x80],
    #v[0x04,0x04,0x04,0x04,0x04,0x04,0x04,0x04,0x04,0x04,0x04,0x04,0x04,0x04,0x04,0x04],
    #v[0x80,0x80,0x80,0x80,0x80,0x80,0x80,0x80,0x80,0x80,0x80,0x80,0x80,0x80,0x80,0x80],
    #v[0x00,0x00,0x00,0x80,0x81,0x80,0xFF,0xFF,0x00,0x00,0x00,0x80,0x81,0x80,0x80,0x80],
    #v[0x80,0x80,0x80,0x80,0x80,0x80,0x80,0x80,0x80,0x80,0x81,0x80,0x80,0x80,0x80,0x80],
    #v[0x80,0x80,0x81,0x80,0x81,0x81,0x81,0x80,0x00,0x00,0x00,0x00,0x00,0x00,0x00,0x00],
    #v[0x80,0x80,0x80,0x80,0x80,0x80,0x80,0x80,0x80,0x80,0x80,0x80,0x80,0x80,0x80,0x80],
    #v[0x80,0x80,0x80,0x80,0x80,0x80,0x80,0x80,0x80,0x80,0x80,0x80,0x80,0x80,0x80,0x80],
    #v[0x80,0x80,0x80,0x80,0x80,0x80,0x80,0x80,0x80,0x80,0x80,0x80,0x80,0x80,0x80,0xFF]]

/-- The prefixes of `get_instruction_length_ix86_`, in the order of its `case` labels; `66` has a
`case` of its own. -/
def prefixesIx86 : List Byte := [0x26, 0x2E, 0x36, 0x3E, 0x64, 0x65, 0x67, 0x9B, 0xF0, 0xF2, 0xF3]

/-- The ModRM part of an opcode with table entry `v`, when it has one: the byte at `pos`. -/
def modrmaddIx86 (v : Byte) (pos : ℕ) : Probe ℕ Byte ℕ :=
  if v &&& 0x80 ≠ 0 then do
    let m ← peek pos
    getModrm m (pos + 1)
  else pure 0

/-- The branch `case 0x0f` of `get_instruction_length_ix86_`. -/
def twoByteIx86 (ptr prefixcnt : ℕ) (bit16 : Bool) (flags : Flags) : Probe ℕ Byte Decoded := do
  let op2 ← peek (ptr + 1)
  let v := lookup table2Ix86 op2
  if v = 0xff then pure (setBadInstruction flags) else do
    let addlen := (v &&& 0xf).toNat
    let addlen := if addlen = 4 ∧ bit16 then 2 else addlen
    let modrmadd ← modrmaddIx86 v (ptr + 2)
    let flags := flags ||| BitVec.ofNat 32 prefixcnt
    let flags := flags ||| ilf2Byte
    let flags := flags ||| BitVec.ofNat 32 modrmadd <<< ilfModrmShift
    pure (prefixcnt + 2 + modrmadd + addlen, flags)

/-- The immediate of the group `F6`/`F7`, which only its members `/0` and `/1` have: `imm` for
them, `addlen` for the rest.  The byte after the opcode is looked at only for the opcode `grp`. -/
def group3 (op grp : Byte) (ptr imm addlen : ℕ) : Probe ℕ Byte ℕ :=
  if op = grp then do
    let m ← peek (ptr + 1)
    pure (if m &&& 0x38 < 0x10 then imm else addlen)
  else pure addlen

/-- The `default` branch of `get_instruction_length_ix86_`. -/
def oneByteIx86 (op : Byte) (ptr prefixcnt : ℕ) (bit16 : Bool) (flags : Flags) :
    Probe ℕ Byte Decoded := do
  let v := lookup table1Ix86 op
  if v = 0xff then pure (setBadInstruction flags) else do
    let addlen := (v &&& 0xf).toNat
    let addlen ← group3 op 0xf6 ptr 1 addlen
    let addlen ← group3 op 0xf7 ptr 4 addlen
    let addlen := if 4 ≤ addlen ∧ bit16 then addlen - 2 else addlen
    let modrmadd ← modrmaddIx86 v (ptr + 1)
    let flags := flags ||| BitVec.ofNat 32 prefixcnt
    let flags := flags ||| BitVec.ofNat 32 modrmadd <<< ilfModrmShift
    pure (prefixcnt + 1 + modrmadd + addlen, flags)

/-- `get_instruction_length_ix86_`. -/
def getInstructionLengthIx86_ (ptr prefixcnt : ℕ) (bit16 : Bool) (flags : Flags) :
    Probe ℕ Byte Decoded := do
  let op ← peek ptr
  if 4 ≤ prefixcnt then pure (1, flags)
  else if op ∈ prefixesIx86 then getInstructionLengthIx86_ (ptr + 1) (prefixcnt + 1) bit16 flags
  -- the operand-size prefix: a branch of its own, which passes `bit16` on as it is
  else if op = 0x66 then getInstructionLengthIx86_ (ptr + 1) (prefixcnt + 1) bit16 flags
  else if op = 0x0f then twoByteIx86 ptr prefixcnt bit16 flags
  else oneByteIx86 op ptr prefixcnt bit16 flags
termination_by 4 - prefixcnt

/-- `get_instruction_length_ix86`. -/
def getInstructionLengthIx86 : Probe ℕ Byte Decoded := getInstructionLengthIx86_ 0 0 false 0

/-! ## The 64-bit decoder -/

/-- One-byte opcodes, 64-bit mode. -/
def table1Amd64 : Table :=
  #v[#v[0x80,0x80,0x80,0x80,0x01,0x04,0xFF,0xFF,0x80,0x80,0x80,0x80,0x01,0x04,0xFF,0x00],
    #v[0x80,0x80,0x80,0x80,0x01,0x04,0xFF,0xFF,0x80,0x80,0x80,0x80,0x01,0x04,0xFF,0xFF],
    #v[0x80,0x80,0x80,0x80,0x01,0x04,0x00,0xFF,0x80,0x80,0x80,0x80,0x01,0x04,0x00,0xFF],
    #v[0x80,0x80,0x80,0x80,0x01,0x04,0x00,0xFF,0x80,0x80,0x80,0x80,0x01,0x04,0x00,0xFF],
    #v[0x00,0x00,0x00,0x00,0x00,0x00,0x00,0x00,0x00,0x00,0x00,0x00,0x00,0x00,0x00,0x00],
    #v[0x00,0x00,0x00,0x00,0x00,0x00,0x00,0x00,0x00,0x00,0x00,0x00,0x00,0x00,0x00,0x00],
    #v[0xFF,0xFF,0xFF,0x80,0x00,0x00,0x00,0x00,0x04,0x84,0x01,0x81,0x00,0x00,0x00,0x00],
    #v[0x01,0x01,0x01,0x01,0x01,0x01,0x01,0x01,0x01,0x01,0x01,0x01,0x01,0x01,0x01,0x01],
    #v[0x81,0x84,0xFF,0x81,0x80,0x80,0x80,0x80,0x80,0x80,0x80,0x80,0x80,0x80,0x80,0x80],
    #v[0x00,0x00,0x00,0x00,0x00,0x00,0x00,0x00,0x00,0x00,0xFF,0x00,0x00,0x00,0x00,0x00],
    #v[0x00,0x00,0x00,0x00,0x00,0x00,0x00,0x00,0x01,0x04,0x00,0x00,0x00,0x00,0x00,0x00],
    #v[0x01,0x01,0x01,0x01,0x01,0x01,0x01,0x01,0x08,0x08,0x08,0x08,0x08,0x08,0x08,0x08],
    #v[0x81,0x81,0x02,0x00,0xFF,0xFF,0x81,0x84,0x03,0x00,0x02,0x00,0x00,0x01,0x00,0x00],
    #v[0x80,0x80,0x80,0x80,0xFF,0xFF,0xFF,0x00,0x80,0x80,0x80,0x80,0x80,0x80,0x80,0x80],
    #v[0x01,0x01,0x01,0x01,0x01,0x01,0x01,0x01,0x04,0x04,0xFF,0x01,0x00,0x00,0x00,0x00],
    #v[0x00,0x00,0x00,0x00,0x00,0x00,0x80,0x80,0x00,0x00,0x00,0x00,0x00,0x00,0x80,0x80]]

/-- Opcodes behind the escape byte `0F`, 64-bit mode. -/
def table2Amd64 : Table :=
  #v[#v[0x80,0x80,0x80,0x80,0xFF,0x00,0x00,0x00,0x00,0x00,0xFF,0x00,0xFF,0x00,0xFF,0xFF],
    #v[0x80,0x80,0x80,0x80,0x80,0x80,0x80,0x80,0x80,0x80,0x80,0x80,0x80,0x80,0x80,0x80],
    #v[0x80,0x80,0x80,0x80,0xFF,0xFF,0xFF,0xFF,0x80,0x80,0x80,0x80,0x80,0x80,0x80,0x80],
    #v[0x00,0x00,0x00,0x00,0x00,0x00,0xFF,0x00,0x80,0xFF,0x81,0xFF,0xFF,0xFF,0xFF,0xFF],
    #v[0x80,0x80,0x80,0x80,0x80,0x80,0x80,0x80,0x80,0x80,0x80,0x80,0x80,0x80,0x80,0x80],
    #v[0x80,0x80,0x80,0x80,0x80,0x80,0x80,0x80,0x80,0x80,0x80,0x80,0x80,0x80,0x80,0x80],
    #v[0x80,0x80,0x80,0x80,0x80,0x80,0x80,0x80,0x80,0x80,0x80,0x80,0x80,0x80,0x80,0x80],
    #v[0x81,0x81,0x81,0x81,0x80,0x80,0x80,0x00,0x80,0x80,0xFF,0xFF,0x80,0x80,0x80,0x80],
    #v[0x04,0x04,0x04,0x04,0x04,0x04,0x04,0x04,0x04,0x04,0x04,0x04,0x04,0x04,0x04,0x04],
    #v[0x80,0x80,0x80,0x80,0x80,0x80,0x80,0x80,0x80,0x80,0x80,0x80,0x80,0x80,0x80,0x80],
    #v[0x00,0x00,0x00,0x80,0x81,0x80,0xFF,0xFF,0x00,0x00,0x00,0x80,0x81,0x80,0x80,0x80],
    #v[0x80,0x80,0x80,0x80,0x80,0x80,0x80,0x80,0x80,0x80,0x81,0x80,0x80,0x80,0x80,0x80],
    #v[0x80,0x80,0x81,0x80,0x81,0x81,0x81,0x80,0x00,0x00,0x00,0x00,0x00,0x00,0x00,0x00],
    #v[0x80,0x80,0x80,0x80,0x80,0x80,0x80,0x80,0x80,0x80,0x80,0x80,0x80,0x80,0x80,0x80],
    #v[0x80,0x80,0x80,0x80,0x80,0x80,0x80,0x80,0x80,0x80,0x80,0x80,0x80,0x80,0x80,0x80],
    #v[0x80,0x80,0x80,0x80,0x80,0x80,0x80,0x80,0x80,0x80,0x80,0x80,0x80,0x80,0x80,0xFF]]

/-- The loop of `get_width_amd64`, with `n` prefix bytes left to look at from position `i` on. -/
def getWidthAmd64Loop : (n i width : ℕ) → Probe ℕ Byte ℕ
  | 0, _, width => pure (if width = 0 then 32 else width)
  | n + 1, i, width => do
    let ch ← peek i
    if ch = 0x66 then
      if width = 0 ∨ width = 16 then getWidthAmd64Loop n (i + 1) 16 else pure 0
    else if ch &&& 0xf8 = 0x48 then
      if width = 0 then getWidthAmd64Loop n (i + 1) 64 else pure 0
    else getWidthAmd64Loop n (i + 1) width

/-- `get_width_amd64`: the operand width that the `n` prefixes at `pfx` ask for, or `0` when they
contradict each other. -/
def getWidthAmd64 (pfx n : ℕ) : Probe ℕ Byte ℕ := getWidthAmd64Loop n pfx 0

/-- The prefixes of `get_instruction_length_amd64_`, in the order of its `case` labels. -/
def prefixesAmd64 : List Byte :=
  [0x26, 0x2E, 0x36, 0x3E, 0x40, 0x41, 0x42, 0x43, 0x44, 0x45, 0x46, 0x47, 0x64, 0x65, 0x66, 0x67,
    0x9B, 0xF0, 0xF2, 0xF3, 0x48, 0x49, 0x4A, 0x4B, 0x4C, 0x4D, 0x4E, 0x4F]

/-- The ModRM part of an opcode with table entry `v`, when it has one, and the flag word, in which
an operand relative to the instruction pointer is noted. -/
def modrmaddAmd64 (v : Byte) (pos : ℕ) (flags : Flags) : Probe ℕ Byte (ℕ × Flags) :=
  if v &&& 0x80 ≠ 0 then do
    let m ← peek pos
    let modrmadd ← getModrm m (pos + 1)
    pure (modrmadd, if m &&& 0xc7 = 0x5 then flags ||| ilfPcRela else flags)
  else pure (0, flags)

/-- What the operand width does to the size of an immediate. -/
def addlenAmd64 (addlen width : ℕ) : ℕ :=
  if addlen = 8 ∧ width = 32 then 4
  else if addlen = 8 ∧ width = 16 then 2
  else if addlen = 4 ∧ width = 16 then 2
  else addlen

/-- The branch `case 0x0f` of `get_instruction_length_amd64_`. -/
def twoByteAmd64 (ptr prefixcnt : ℕ) (flags : Flags) : Probe ℕ Byte Decoded := do
  let width ← getWidthAmd64 (ptr - prefixcnt) prefixcnt
  if width = 0 then pure (setBadInstruction flags) else do
    let op2 ← peek (ptr + 1)
    let v := lookup table2Amd64 op2
    if v = 0xff then pure (setBadInstruction flags) else do
      let r ← modrmaddAmd64 v (ptr + 2) flags
      let modrmadd := r.1
      let flags := r.2
      let addlen := addlenAmd64 (v &&& 0xf).toNat width
      let flags := flags ||| BitVec.ofNat 32 prefixcnt
      let flags := flags ||| ilf2Byte
      let flags := flags ||| BitVec.ofNat 32 modrmadd <<< ilfModrmShift
      pure (prefixcnt + 2 + modrmadd + addlen, flags)

/-- The `default` branch of `get_instruction_length_amd64_`. -/
def oneByteAmd64 (op : Byte) (ptr prefixcnt : ℕ) (flags : Flags) : Probe ℕ Byte Decoded := do
  let width ← getWidthAmd64 (ptr - prefixcnt) prefixcnt
  if width = 0 then pure (setBadInstruction flags) else do
    let v := lookup table1Amd64 op
    if v = 0xff then pure (setBadInstruction flags) else do
      let r ← modrmaddAmd64 v (ptr + 1) flags
      let modrmadd := r.1
      let flags := r.2
      let addlen := (v &&& 0xf).toNat
      let addlen ← group3 op 0xf6 ptr 1 addlen
      let addlen ← group3 op 0xf7 ptr 8 addlen
      let addlen := addlenAmd64 addlen width
      let flags := flags ||| BitVec.ofNat 32 prefixcnt
      let flags := flags ||| BitVec.ofNat 32 modrmadd <<< ilfModrmShift
      pure (prefixcnt + 1 + modrmadd + addlen, flags)

/-- `get_instruction_length_amd64_`. -/
def getInstructionLengthAmd64_ (ptr prefixcnt : ℕ) (flags : Flags) : Probe ℕ Byte Decoded := do
  let op ← peek ptr
  if 8 ≤ prefixcnt then pure (1, flags)
  else if op ∈ prefixesAmd64 then getInstructionLengthAmd64_ (ptr + 1) (prefixcnt + 1) flags
  else if op = 0x0f then twoByteAmd64 ptr prefixcnt flags
  else oneByteAmd64 op ptr prefixcnt flags
termination_by 8 - prefixcnt

/-- `get_instruction_length_amd64`. -/
def getInstructionLengthAmd64 : Probe ℕ Byte Decoded := getInstructionLengthAmd64_ 0 0 0

end Disasm
end UtilWin
