import UtilWin.Library.Linked
import Mathlib.Algebra.Group.Nat.Defs
import Mathlib.Data.Int.Notation
import Mathlib.Data.UInt
import Mathlib.Logic.Function.Basic

/-!
# Conversion buffers

A `conv_buffer` takes the results of string conversions until it is cleared.  The first short result
goes into the 540 bytes of the buffer itself; every other one gets a node of its own at the end of a
chain.

The heap maps addresses to blocks, and a block is a `struct conv_buffer` with as many bytes of `buf`
as it was allocated with.  Everything that would be undefined makes the computation `none`: following
a pointer to no block, writing behind the end of `buf`, freeing what is not allocated, a chain that
does not end.  What the system does is passed in: the two converters as functions on whole strings,
and the answers of `malloc`.

The widths are those of the 64-bit build.
-/

namespace UtilWin
namespace ConvBuf

/-- An address of a block. -/
abbrev Addr := ℕ

/-- `struct conv_buffer`, with `next` null as `none`. -/
structure Block where
  next : Option Addr
  flags : BitVec 32
  buf : List UInt8

/-- The blocks that are allocated, and all calls of `malloc` and `free` so far, oldest first. -/
structure World where
  heap : Addr → Option Block
  mallocs : List Addr
  frees : List Addr

/-- `DEFARRSZ`, the size of `buf` in a `struct conv_buffer`. -/
def defArrSz : ℕ := 540

/-- `HDR_SIZE`, what is before `buf`: a pointer and an `int`. -/
def hdrSize : ℕ := 8 + 4

/-- `SP_WSZ`. -/
def spWsz : ℕ := defArrSz / 3 - 1

/-- `SP_ASZ`. -/
def spAsz : ℕ := defArrSz / 2 - 1

/-- `CONVBUF_USED`. -/
def convbufUsed : BitVec 32 := 1

/-! ## Memory -/

/-- The block with other bytes in `buf` from the offset `off` on. -/
def Block.overwrite (b : Block) (off : ℕ) (bytes : List UInt8) : Block :=
  { b with buf := b.buf.take off ++ bytes ++ b.buf.drop (off + bytes.length) }

namespace World

variable (w : World)

/-- The links of the blocks. -/
def nextOf (a : Addr) : Option (Option Addr) := (w.heap a).map Block.next

/-- The heap with another block at `a`. -/
def set (a : Addr) (b : Block) : World := { w with heap := Function.update w.heap a (some b) }

/-- Assign to a member of the block at `a`. -/
def modify (a : Addr) (f : Block → Block) : Option World := (w.heap a).map fun b => w.set a (f b)

/-- Write bytes into `buf` of the block at `a`, from the offset `off` on. -/
def store (a : Addr) (off : ℕ) (bytes : List UInt8) : Option World :=
  (w.heap a).bind fun b =>
    if off + bytes.length ≤ b.buf.length then some (w.set a (b.overwrite off bytes)) else none

/-- `malloc` answers with the address and the first content of the block. -/
def malloc (answer : Addr × Block) : World :=
  { w with
    heap := Function.update w.heap answer.1 (some answer.2)
    mallocs := w.mallocs ++ [answer.1] }

/-- The heap without the block at `a`. -/
def remove (a : Addr) : World :=
  { w with heap := Function.update w.heap a none, frees := w.frees ++ [a] }

/-- `free`. -/
def free (a : Addr) : Option World := (w.heap a).map fun _ => w.remove a

end World

/-! ## The conversions -/

/-- `MultiByteToWideChar` and `WideCharToMultiByte`, for a conversion of whole strings: the return
value and the units written.  The empty string is refused, a `size` of `0` asks for the length, and
a result that does not fit is refused. -/
def callConverter {α β : Type} (conv : List α → List β) (s : List α) (size : ℕ) : ℤ × List β :=
  if s.isEmpty then (0, [])
  else if size = 0 then ((conv s).length, [])
  else if (conv s).length ≤ size then ((conv s).length, conv s)
  else (0, [])

/-- The string that is converted: `len` units, or for `-1` what is before the first zero, as
`wcslen` and `strlen` count it.  `none` where the function returns `NULL`, for no string and for a
length that is negative or has more than 31 bits. -/
def argument {α : Type} [DecidableEq α] [Zero α] (s : Option (List α)) (len : ℤ) :
    Option (List α) :=
  s.bind fun s =>
    let len := if len = -1 then ((s.takeWhile (· ≠ 0)).length : ℤ) else len
    if len >>> (31 : ℕ) ≠ 0 then none else some (s.take len.toNat)

/-- What `convbuf_w2a` and `convbuf_a2w` do not share. -/
structure Kind (β : Type) where
  /-- The size of a unit of the result. -/
  unit : ℕ
  /-- The bytes of a unit. -/
  bytes : β → List UInt8
  /-- The length up to which a string is converted without asking for the size. -/
  sp : ℕ
  /-- The argument of `malloc`, from `needlen`. -/
  mallocSize : ℤ → ℕ

section

variable {α β : Type} [DecidableEq α] [Zero α] (k : Kind β) (conv : List α → List β)
  (malloc : ℕ → Addr × Block)

/-- The end of all three paths: the converter has written into the block at `p`, and the terminator
and the flag follow. -/
def finish (p : Addr) (ret : ℤ × List β) (w : World) : Option (Option Addr × World) := do
  let w ← w.store p 0 (ret.2.flatMap k.bytes)
  if ret.1 < 0 then some (none, w)
  else
    let w ← w.store p (ret.1.toNat * k.unit) (List.replicate k.unit 0)
    let w ← w.modify p fun b => { b with flags := b.flags ||| convbufUsed }
    some (some p, w)

/-- `convbuf_init`. -/
def convbufInit (p : Addr) (w : World) : Option World :=
  w.modify p fun b => { b with next := none, flags := 0 }

/-- The path through a new node at the end of the chain. -/
def convertInNode (p : Addr) (s : List α) (needlen : ℤ) (w : World) :
    Option (Option Addr × World) := do
  let needlen := if needlen < 0 then (callConverter conv s 0).1 else needlen
  let p ← walk w.nextOf w.mallocs.length p
  let answer := malloc (k.mallocSize needlen)
  let w := w.malloc answer
  let w ← w.modify p fun b => { b with next := some answer.1 }
  let w ← convbufInit answer.1 w
  finish k answer.1 (callConverter conv s (needlen + 1).toNat) w

/-- The body that `convbuf_w2a` and `convbuf_a2w` share: the result, or `NULL`, and the memory
afterwards. -/
def convert (p : Addr) (s : Option (List α)) (len : ℤ) (w : World) :
    Option (Option Addr × World) :=
  match argument s len with
  | none => some (none, w)
  | some s => do
    let b ← w.heap p
    if b.flags &&& convbufUsed = 0 then
      let needlen := if k.sp < s.length then (callConverter conv s 0).1 else -1
      if s.length ≤ k.sp ∨ (needlen + 1) * k.unit ≤ defArrSz then
        finish k p (callConverter conv s (defArrSz / k.unit)) w
      else convertInNode k conv malloc p s needlen w
    else convertInNode k conv malloc p s (-1) w

end

/-- The low and the high byte of a wide character. -/
def wideBytes (u : UInt16) : List UInt8 := [u.toUInt8, (u >>> 8).toUInt8]

/-- For `convbuf_w2a`, whose argument of `malloc` is a sum of `int`s. -/
def w2aKind : Kind UInt8 where
  unit := 1
  bytes b := [b]
  sp := spWsz
  mallocSize needlen := (BitVec.ofInt 64 (BitVec.ofInt 32 (needlen + 2 + hdrSize)).toInt).toNat

/-- For `convbuf_a2w`, whose argument of `malloc` is an `int` until it meets `sizeof`. -/
def a2wKind : Kind UInt16 where
  unit := 2
  bytes := wideBytes
  sp := spAsz
  mallocSize needlen :=
    (BitVec.ofInt 64 (BitVec.ofInt 32 (needlen + 2)).toInt * 2 + BitVec.ofNat 64 hdrSize).toNat

/-- `convbuf_w2a`, with the conversion to the code page. -/
def convbufW2a (wideCharToMultiByte : List UInt16 → List UInt8) (malloc : ℕ → Addr × Block)
    (p : Addr) (s : Option (List UInt16)) (len : ℤ) (w : World) : Option (Option Addr × World) :=
  convert w2aKind wideCharToMultiByte malloc p s len w

/-- `convbuf_a2w`, with the conversion from UTF-8. -/
def convbufA2w (multiByteToWideChar : List UInt8 → List UInt16) (malloc : ℕ → Addr × Block)
    (p : Addr) (s : Option (List UInt8)) (len : ℤ) (w : World) : Option (Option Addr × World) :=
  convert a2wKind multiByteToWideChar malloc p s len w

/-- The loop of `convbuf_clear`, in at most `fuel` turns. -/
def freeNodes : ℕ → Option Addr → World → Option World
  | _, none, w => some w
  | 0, some _, _ => none
  | fuel + 1, some a, w => do
    let b ← w.heap a
    let w ← w.free a
    freeNodes fuel b.next w

/-- `convbuf_clear`. -/
def convbufClear (p : Addr) (w : World) : Option World := do
  let b ← w.heap p
  let w ← freeNodes w.mallocs.length b.next w
  w.modify p fun b => { b with next := none, flags := 0 }

end ConvBuf
end UtilWin
