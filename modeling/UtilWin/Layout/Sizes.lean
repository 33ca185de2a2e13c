import Mathlib.Data.Fin.VecNotation
import Mathlib.Data.Int.Notation
import Mathlib.Data.List.Basic
import Mathlib.Logic.Function.Basic
import UtilWin.Library.Attempts

/-!
# Anchored layout

In `SIZES` each edge of an item is at a distance from something: from the same edge of the parent, from
the same edge of another item, which is named by its id, or from nothing.  A width or a height that is
given replaces one of the two edges it is between.  `ComputeIt` computes all edges of an item, after
those of the items that it refers to, and notes in `masks` which items have been dealt with; an item
is noted before its edges are known.

An id is a `WORD`, but it is looked for, and so is the index it is found at, as a `short`.  A cell of
`itemposs` is `none` until it is written, because `new` leaves it as it is.  The recursion takes fuel,
of which one unit for each item and one more is always enough (`getSizes_ne_outOfFuel`).
-/

namespace UtilWin
namespace Sizes

/-- `RECT`. -/
structure Rect where
  left : BitVec 32
  top : BitVec 32
  right : BitVec 32
  bottom : BitVec 32
  deriving DecidableEq

/-- The edges, as they are numbered in `pos[4]` and `itemposs[4]`: left, top, right and bottom. -/
def Rect.edge (rect : Rect) : Fin 4 → BitVec 32 := ![rect.left, rect.top, rect.right, rect.bottom]

/-- `ItemPos`. -/
structure ItemPos where
  id : BitVec 16
  pos : BitVec 16
  deriving DecidableEq

/-- `ItemSize`. -/
structure ItemSize where
  id : BitVec 16
  width : BitVec 16
  height : BitVec 16
  pos : Fin 4 → ItemPos

/-- What can go wrong in `ComputeIt`, besides the fuel of the model. -/
inductive Fault
  | outOfFuel
  /-- An array is used outside its bounds. -/
  | outOfBounds
  /-- An edge is used that has not been computed. -/
  | uncomputed
  deriving DecidableEq

/-- `masks` and `itemposs`. -/
structure Memory where
  masks : ℕ → Bool
  itemposs : Fin 4 → ℕ → Option (BitVec 16)

namespace Memory

/-- Nothing has been done. -/
def init : Memory := ⟨fun _ => false, fun _ _ => none⟩

/-- `masks[indx] = true`. -/
def mark (m : Memory) (indx : ℕ) : Memory := { m with masks := Function.update m.masks indx true }

/-- `itemposs[which][indx] = v`. -/
def store (m : Memory) (which : Fin 4) (indx : ℕ) (v : BitVec 16) : Memory :=
  let row := Function.update (m.itemposs which) indx (some v)
  { m with itemposs := Function.update m.itemposs which row }

/-- `itemposs[which][indx]`. -/
def load (m : Memory) (which : Fin 4) (indx : ℕ) : Except Fault (BitVec 16) :=
  match m.itemposs which indx with
  | some v => .ok v
  | none => .error .uncomputed

/-! What can be read after a write. -/

variable (m : Memory) (indx k : ℕ) (which e : Fin 4) (v : BitVec 16)

@[simp] theorem mark_masks_self : (m.mark indx).masks indx = true := Function.update_self ..

variable {indx k} in
theorem mark_masks_of_ne (h : k ≠ indx) : (m.mark indx).masks k = m.masks k :=
  Function.update_of_ne h ..

theorem store_itemposs : (m.store which indx v).itemposs =
    Function.update m.itemposs which (Function.update (m.itemposs which) indx (some v)) := rfl

@[simp] theorem store_itemposs_self : (m.store which indx v).itemposs which indx = some v := by
  rw [store_itemposs, Function.update_self, Function.update_self]

variable {which e} in
theorem store_itemposs_of_edge (h : e ≠ which) :
    (m.store which indx v).itemposs e k = m.itemposs e k := by
  rw [store_itemposs, Function.update_of_ne h]

variable {indx k} in
theorem store_itemposs_of_item (h : k ≠ indx) :
    (m.store which indx v).itemposs e k = m.itemposs e k := by
  by_cases hedge : e = which
  · subst hedge
    rw [store_itemposs, Function.update_self, Function.update_of_ne h]
  · exact store_itemposs_of_edge m indx k v hedge

variable {m which indx v} in
theorem load_eq_ok : m.load which indx = .ok v ↔ m.itemposs which indx = some v := by
  rw [load]
  split
  · next w hw => rw [hw, Except.ok.injEq, Option.some.injEq]
  · next hw =>
    rw [hw]
    exact ⟨fun h => (by cases h), fun h => (by cases h)⟩

theorem load_ne_outOfFuel : m.load which indx ≠ .error .outOfFuel := by
  rw [load]
  split
  · exact ok_ne_error _
  · exact fun h => (by cases h)

end Memory

section

variable (ss : List ItemSize) (parentrect : Rect)

/-- `p[which]`. -/
def parentPos (which : Fin 4) : BitVec 16 := (parentrect.edge which).setWidth 16

/-- The loop that sets `_indx`. -/
def indexOf (id : BitVec 16) : BitVec 16 :=
  match ss.findIdx? fun s => (s.id.toNat : ℤ) = id.toInt with
  | some i => BitVec.ofNat 16 i
  | none => -1

/-- One round of the loop over the edges, with the recursive call as an argument. -/
def computeEdge (recur : ℕ → Memory → Except Fault Memory) (item : ItemSize) (indx : ℕ)
    (m : Memory) (which : Fin 4) : Except Fault Memory :=
  let p := item.pos which
  -- a `WORD` is never -1
  if (p.id.toNat : ℤ) = -1 then .ok (m.store which indx p.pos)
  else if p.id = 0 then .ok (m.store which indx (p.pos + parentPos parentrect which))
  else
    let other := (indexOf ss p.id).toInt
    if other = -1 ∨ other = indx then .ok (m.store which indx p.pos)
    else if 0 ≤ other then do
      let m ← recur other.toNat m
      let v ← m.load which other.toNat
      .ok (m.store which indx (p.pos + v))
    else .error .outOfBounds

/-- A size between two edges replaces one of them. -/
def applySize (near far : Fin 4) (size : BitVec 16) (indx : ℕ) (m : Memory) :
    Except Fault Memory :=
  if 0 < size.toInt then do
    let v ← m.load near indx
    .ok (m.store far indx (v + size))
  else if size.toInt < 0 then do
    let v ← m.load far indx
    .ok (m.store near indx (v + size))
  else .ok m

/-- The numbers of the edges, in the order of the loop. -/
def edges : List (Fin 4) := [0, 1, 2, 3]

/-- `ComputeIt`. -/
def computeIt : ℕ → ℕ → Memory → Except Fault Memory
  | 0, _, _ => .error .outOfFuel
  | fuel + 1, indx, m =>
    match ss[indx]? with
    | none => .error .outOfBounds
    | some item =>
      if m.masks indx then .ok m
      else do
        let m ← edges.foldlM (computeEdge ss parentrect (computeIt fuel) item indx) (m.mark indx)
        let m ← applySize 0 2 item.width indx m
        applySize 1 3 item.height indx m

/-- The first loop of `GetSizes`. -/
def computeAll : Except Fault Memory :=
  (List.range ss.length).foldlM (fun m i => computeIt ss parentrect (ss.length + 1) i m) .init

/-- The second loop of `GetSizes`, for one item. -/
def outrect (m : Memory) (i : ℕ) : Except Fault Rect := do
  let left ← m.load 0 i
  let top ← m.load 1 i
  let right ← m.load 2 i
  let bottom ← m.load 3 i
  .ok ⟨left.signExtend 32, top.signExtend 32, right.signExtend 32, bottom.signExtend 32⟩

/-- `GetSizes`. -/
def getSizes : Except Fault (List Rect) := do
  let m ← computeAll ss parentrect
  (List.range ss.length).mapM (outrect m)

end

end Sizes
end UtilWin
