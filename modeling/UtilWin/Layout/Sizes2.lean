import Mathlib.Data.Int.Notation
import Mathlib.Data.List.Basic
import Mathlib.Logic.Function.Basic

/-!
# Flow layout

`SIZES2::GetSizes` places items one after another, each in a container, which is the parent rectangle
or an earlier item.  A container keeps a cursor: how far its current line has got (`w`), where the
line is (`h`), and how high it has become (`maxh`).  An item that does not fit behind the cursor wraps
to a new line and is looked at again, which the source writes `--i; continue`.

Coordinates are integers, as they are in the source while nothing overflows.
-/

namespace UtilWin
namespace Sizes2

/-- `RECT`. -/
@[ext] structure Rect where
  left : ℤ
  top : ℤ
  right : ℤ
  bottom : ℤ
  deriving DecidableEq

/-- `ItemMargin`. -/
structure ItemMargin where
  l : UInt16
  t : UInt16
  r : UInt16
  b : UInt16

/-- `ItemRect`, as far as the placing looks at it. -/
structure ItemRect where
  rela : UInt16
  w : UInt16
  h : UInt16
  margin : ItemMargin

/-- `ItemTmpData`. -/
structure ItemTmpData where
  rc : Rect
  h : ℤ
  maxh : ℤ
  w : ℤ

/-- `MAXVALUE`: the parent, for `rela`, and the rest of the container, for a size. -/
def maxValue : UInt16 := 0xffff

/-- A `USHORT` among `int`s. -/
def int (u : UInt16) : ℤ := u.toNat

namespace ItemRect

variable (item : ItemRect)

/-- The container of an item: `none` for `root` and `some j` for `td[j]`. -/
def container : Option ℕ := if item.rela = maxValue then none else some item.rela.toNat

variable (sel : ItemTmpData)

/-- `ww_1`. -/
def ww1 : ℤ :=
  if item.w = maxValue then sel.rc.right - sel.rc.left - sel.w - int item.margin.r
  else int item.margin.l + int item.w

/-- `hh_1`. -/
def hh1 : ℤ :=
  if item.h = maxValue then sel.rc.bottom - sel.rc.top - sel.h - int item.margin.b
  else int item.margin.t + int item.h

/-- The item has to go to a new line. -/
def Wraps : Prop :=
  (item.ww1 sel > sel.rc.right - sel.rc.left - sel.w - int item.margin.r ∨ item.ww1 sel < 0) ∧
    sel.w > 0

instance : Decidable (item.Wraps sel) := by unfold Wraps; infer_instance

/-- `outrect`. -/
def outrect : Rect :=
  let left := sel.rc.left + sel.w + int item.margin.l
  let top := sel.rc.top + sel.h + int item.margin.t
  { left := left
    top := top
    right := left + item.ww1 sel - int item.margin.l
    bottom := top + item.hh1 sel - int item.margin.t }

end ItemRect

/-- A new line. -/
def ItemTmpData.newLine (sel : ItemTmpData) : ItemTmpData :=
  { sel with w := 0, h := sel.h + sel.maxh, maxh := 0 }

/-- The container with the cursor behind the item. -/
def ItemTmpData.behind (sel : ItemTmpData) (item : ItemRect) : ItemTmpData :=
  { sel with
    w := (item.outrect sel).right - sel.rc.left
    maxh := if sel.maxh < item.hh1 sel then item.hh1 sel else sel.maxh }

/-- The container once the item has been placed at the cursor. -/
def ItemTmpData.advance (sel : ItemTmpData) (item : ItemRect) : ItemTmpData :=
  let sel := sel.behind item
  if sel.w + sel.rc.left ≥ sel.rc.right then sel.newLine else sel

/-- The loop variable, and `root` and `td` in one: `none` is `root` and `some j` is `td[j]`. -/
structure State where
  i : ℕ
  tmp : Option ℕ → ItemTmpData

/-- One turn of the loop, for the item that is `ss[i]`. -/
def State.turn (s : State) (item : ItemRect) : State :=
  let sel := s.tmp item.container
  if item.Wraps sel then { s with tmp := Function.update s.tmp item.container sel.newLine }
  else
    let td := Function.update s.tmp (some s.i) { s.tmp (some s.i) with rc := item.outrect sel }
    { i := s.i + 1, tmp := Function.update td item.container (sel.advance item) }

/-- `root` is the parent, and `td` is zeroed. -/
def State.init (parentrc : Rect) : State where
  i := 0
  tmp
    | none => ⟨parentrc, 0, 0, 0⟩
    | some _ => ⟨⟨0, 0, 0, 0⟩, 0, 0, 0⟩

/-- What the loop has before it: two turns for each item, less the one that a wrapped item has
had. -/
def State.turnsLeft (ss : List ItemRect) (s : State) : ℕ :=
  2 * (ss.length - s.i) +
    match ss[s.i]? with
    | some item => if item.Wraps (s.tmp item.container) then 1 else 0
    | none => 0

/-- On a new line nothing wraps. -/
theorem not_wraps_newLine (item : ItemRect) (sel : ItemTmpData) : ¬ item.Wraps sel.newLine := by
  rintro ⟨-, hw⟩
  exact absurd hw (Int.lt_irrefl 0)

theorem turn_of_wraps {s : State} {item : ItemRect} (h : item.Wraps (s.tmp item.container)) :
    s.turn item =
      { s with tmp := Function.update s.tmp item.container (s.tmp item.container).newLine } := by
  rw [State.turn, if_pos h]

/-- Every turn uses one up. -/
theorem turnsLeft_turn_lt {ss : List ItemRect} {s : State} {item : ItemRect}
    (hitem : ss[s.i]? = some item) : (s.turn item).turnsLeft ss < s.turnsLeft ss := by
  have hi : s.i < ss.length := (List.getElem?_eq_some_iff.mp hitem).1
  by_cases hw : item.Wraps (s.tmp item.container)
  · rw [turn_of_wraps hw]
    simp only [State.turnsLeft, hitem, if_pos hw, Function.update_self,
      if_neg (not_wraps_newLine item _)]
    omega
  · rw [State.turn, if_neg hw]
    simp only [State.turnsLeft, hitem, if_neg hw]
    split
    · split <;> omega
    · omega

/-- The loop of `GetSizes`. -/
def loop (ss : List ItemRect) (s : State) : State :=
  match _hitem : ss[s.i]? with
  | none => s
  | some item => loop ss (s.turn item)
termination_by s.turnsLeft ss
decreasing_by exact turnsLeft_turn_lt (by assumption)

/-- `GetSizes`: `root` and `td` at the end. -/
def getSizes (ss : List ItemRect) (parentrc : Rect) : Option ℕ → ItemTmpData :=
  (loop ss (.init parentrc)).tmp

end Sizes2
end UtilWin
