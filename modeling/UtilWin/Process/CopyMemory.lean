import Mathlib.Algebra.Group.Nat.Defs
import UtilWin.Library.AddressSpace

/-!
# `CopyMemoryTo`

The cloned process lacks memory that `ntdll.dll` points to.  `CopyMemoryTo` of `fork.c` therefore
walks over the `.data` section of `ntdll.dll`, takes every eighth byte for the start of a pointer,
and where one leads to memory that the parent reads and the child does not, it reserves, commits and
writes that memory in the child.

Everything happens in whole pages, so addresses are page numbers here.  `VirtualQuery` describes the
memory from the page it is asked about up to the end of the region: its `BaseAddress` is that page,
not the first one of the region.
-/

namespace UtilWin
namespace CopyMemory

universe u

def pageSize : ℕ := 0x1000

/-- The pages of a reservation start at a multiple of this. -/
def granularity : ℕ := 16

/-- What `IsBadReadPtr` and `VirtualQuery` say of the parent.  Its pages form regions of equal
attributes, and an allocation is made of consecutive regions. -/
structure MemoryMap (α : Type u) where
  start : ℕ → ℕ
  stop : ℕ → ℕ
  allocationBase : ℕ → ℕ
  readable : ℕ → Bool
  known : ℕ → Bool
  bytes : ℕ → α
  mem_region : ∀ p, start p ≤ p ∧ p < stop p
  region : ∀ p q, start p ≤ q → q < stop p → start q = start p ∧ stop q = stop p ∧
    allocationBase q = allocationBase p ∧ readable q = readable p
  known_of_readable : ∀ p, readable p = true → known p = true
  base_le : ∀ p, readable p = true → allocationBase p ≤ start p
  base_dvd : ∀ p, readable p = true → granularity ∣ allocationBase p
  allocation : ∀ p q, readable p = true → allocationBase p ≤ q → q < stop p →
    allocationBase q = allocationBase p

/-- The image of `ntdll.dll`, with the pointer that starts at each offset of its `.data`. -/
structure Ntdll where
  win64 : Bool
  page : ℕ
  sizeOfImage : ℕ
  virtualAddress : ℕ
  virtualSize : ℕ
  word : ℕ → ℕ
  sizeOfImage_le : sizeOfImage ≤ 0xfffff000
  data_le : virtualAddress + virtualSize ≤ sizeOfImage

namespace Ntdll

variable (ntdll : Ntdll)

def pointerSize : ℕ := if ntdll.win64 then 8 else 4

/-- A user-space address has this many bits. -/
def addressBits : ℕ := if ntdll.win64 then 47 else 31

/-- The pages of the image. -/
def image : ℕ × ℕ := (ntdll.page, ntdll.page + (ntdll.sizeOfImage + 0xfff) / pageSize)

end Ntdll

/-- A fork: the parent with its `ntdll.dll`, and the child as it was cloned. -/
structure Fork (α : Type u) where
  ntdll : Ntdll
  parent : MemoryMap α
  child : Space α
  zero : α

/-! ## The code -/

def inRange (ptr : ℕ) (rngs : List (ℕ × ℕ)) : Bool := rngs.any fun r => r.1 ≤ ptr && ptr < r.2

/-- The child, and the ranges that are done. -/
structure Progress (α : Type u) where
  child : Space α
  ranges : List (ℕ × ℕ)

variable {α : Type u}

/-- `ranges` has room for 1024 entries. -/
def Progress.addRange (st : Progress α) (r : ℕ × ℕ) : Option (Progress α) :=
  if st.ranges.length < 1024 then some { st with ranges := st.ranges ++ [r] } else none

namespace Fork

variable (s : Fork α)

/-- Reserve the allocation up to the end of the region, commit from the page on, and write. -/
def copyRegion (child : Space α) (p : ℕ) : Space α :=
  child.restore (s.parent.allocationBase p / granularity * granularity) p (s.parent.stop p) s.zero
    s.parent.bytes

/-- One pointer, with its offset in the page cut off. -/
def visit (st : Progress α) (p : ℕ) : Option (Progress α) :=
  if inRange p st.ranges then some st
  else if s.parent.readable p = false then
    if s.parent.known p then st.addRange (p, s.parent.stop p) else some st
  else if st.child.canRead p = false then
    if s.parent.known p then
      { st with child := s.copyRegion st.child p }.addRange (p, s.parent.stop p)
    else some st
  else some st

/-- One step of the loop over `.data`. -/
def slot (st : Progress α) (offset : ℕ) : Option (Progress α) :=
  let val := s.ntdll.word offset
  if val ≤ 0xffff then some st
  else if val >>> s.ntdll.addressBits ≠ 0 then some st
  else s.visit st (val / pageSize)

/-- `for (i = 0; i < VirtualSize; i += 8)`. -/
def offsets : List ℕ := (List.range ((s.ntdll.virtualSize + 7) / 8)).map (8 * ·)

/-- The child after `CopyMemoryTo`, if `ranges` did not overflow. -/
def copyMemoryTo : Option (Space α) := do
  let st ← s.offsets.foldlM s.slot ⟨s.child, [s.ntdll.image]⟩
  if st.ranges.length < 1024 then some st.child else none

/-! ## From slots to pages -/

/-- The page of a user-space address above `0xffff`. -/
def userPage (val : ℕ) : Option ℕ :=
  if 0xffff < val ∧ val < 2 ^ s.ntdll.addressBits then some (val / pageSize) else none

/-- The pages the loop comes to, in order. -/
def found : List ℕ := s.offsets.filterMap fun offset => s.userPage (s.ntdll.word offset)

end Fork
end CopyMemory
end UtilWin
