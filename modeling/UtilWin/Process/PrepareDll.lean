import UtilWin.Library.LittleEndian
import Mathlib.Data.List.Basic

/-!
# The initial data of a system DLL

`prepare_dll` is to have the `.data` section of a DLL as the loader left it, so that a child process can
be given it.  The section has been written to since, so it reads the section from the file.  But there
the addresses are not relocated; so it looks at each word in the file and at the same word in memory, and
where the low 16 bits are the same, which a relocation does not change, it takes the word in memory.

The buffer is a memory with a log of the ranges `prepare_dll` has touched; its size is the virtual size of
the section.  What the system answers is in `Answers`: which of the calls succeed, and what is in memory
where nothing has been written.
-/

namespace UtilWin
namespace PrepareDll

/-- `sizeof(void*)`. -/
abbrev PointerSize := { k : ℕ // k = 8 ∨ k = 4 }

/-- `IMAGE_SECTION_HEADER`: the name up to its `NUL`. -/
structure SectionHeader where
  name : List UInt8
  virtualSize : ℕ
  virtualAddress : ℕ
  sizeOfRawData : ℕ
  pointerToRawData : ℕ

/-- `".data"`. -/
def dataName : List UInt8 := [0x2e, 0x64, 0x61, 0x74, 0x61]

/-- A loaded DLL: its address, its headers, its memory by offsets from the address, and its file. -/
structure Dll where
  base : ℕ
  secs : List SectionHeader
  memory : ℕ → UInt8
  file : List UInt8

/-- `datah`. -/
def Dll.datah (dll : Dll) : Option SectionHeader := dll.secs.find? fun sec => sec.name = dataName

/-- Which calls succeed; what is in a fresh buffer; and the file that `CreateFileW` opens if
`GetModuleFileNameW` has not written a path. -/
structure Answers where
  getModuleHandle : Bool
  getModuleFileName : Bool
  heapAlloc : Bool
  createFile : Bool
  setFilePointer : Bool
  readFile : Bool
  fresh : ℕ → UInt8
  other : List UInt8

/-- `data_block_t`, with the memory from `data` on. -/
structure DataBlock where
  modbase : ℕ
  offset : ℕ
  size : ℕ
  data : ℕ → UInt8

/-- `op->data`, and the ranges of it that have been read or written: offset and length. -/
structure Buffer where
  data : ℕ → UInt8
  touched : List (ℕ × ℕ)

/-- How `prepare_dll` ends: at a null pointer, or with a result, `*optr`, whether the buffer is still
allocated, and what it has touched. -/
inductive Outcome where
  | crash
  | returned (ret : ℤ) (optr : Option DataBlock) (held : Bool) (touched : List (ℕ × ℕ))

/-- The first `n` bytes are written. -/
def Buffer.fill (n : ℕ) (f : ℕ → UInt8) (op : Buffer) : Buffer where
  data p := if p < n then f p else op.data p
  touched := op.touched ++ [(0, n)]

/-- The body of the loop: one word of the buffer and the word of the module in the same place. -/
def repair (k : ℕ) (mem : ℕ → UInt8) (off : ℕ) (op : Buffer) : Buffer :=
  let dest := leWord op.data off k
  let src := leWord mem off k
  let op := { op with touched := op.touched ++ [(off, k)] }
  if dest = 0 then op
  else if dest % 0x10000 = src % 0x10000 then
    { data := leStore op.data off k src, touched := op.touched ++ [(off, k)] }
  else op

/-- The loop. -/
def sweep (k : PointerSize) (mem : ℕ → UInt8) (toRead off : ℕ) (op : Buffer) : Buffer :=
  if off < toRead then sweep k mem toRead (off + k) (repair k mem off op) else op
termination_by toRead - off
decreasing_by
  have := k.2
  omega

/-- From the `CreateFileW` on, with the buffer allocated and zeroed. -/
def readSection (k : PointerSize) (dll : Dll) (a : Answers) (datah : SectionHeader) (op : Buffer) :
    Outcome :=
  let file := if a.getModuleFileName then dll.file else a.other
  if ¬ a.createFile then .returned (-1) none false op.touched
  else
    let pos := if a.setFilePointer then datah.pointerToRawData else 0
    let toRead := min datah.sizeOfRawData datah.virtualSize
    if ¬ a.readFile then .returned (-1) none false op.touched
    else
      let rlen := min toRead (file.length - pos)
      let op := op.fill rlen fun p => file.getD (pos + p) 0
      let op := sweep k (fun p => dll.memory (datah.virtualAddress + p)) toRead 0 op
      let block : DataBlock := ⟨dll.base, datah.virtualAddress, datah.virtualSize, op.data⟩
      .returned 0 (some block) true op.touched

/-- `prepare_dll`, with what `*optr` is before. -/
def prepareDll (k : PointerSize) (dll : Dll) (a : Answers) (optr : Option DataBlock) : Outcome :=
  match optr with
  | some block => .returned 0 (some block) true []
  | none =>
    if ¬ a.getModuleHandle then .crash
    else
      match dll.datah with
      | none => .returned (-1) none false []
      | some datah =>
        if ¬ a.heapAlloc then .returned (-1) none false []
        else readSection k dll a datah
          (Buffer.fill datah.virtualSize (fun _ => 0) ⟨a.fresh, []⟩)

end PrepareDll
end UtilWin
