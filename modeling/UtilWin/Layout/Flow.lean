import UtilWin.Layout.Sizes2
import Mathlib.Data.Set.BooleanAlgebra
import Mathlib.Data.Set.Disjoint
import Mathlib.Order.CompletePartialOrder
import Mathlib.Tactic.SplitIfs

/-!
# Siblings do not overlap

The children of a container are placed line by line.  Seen from the cursor, a child that has been
placed is either on an earlier line, and then it ends above the current one, or on the current line,
and then it ends left of the cursor and not below the height the line has got (`Placed`).  A new
child starts at the cursor, so it is right of the one kind and below the other.

For that the cursor must not go back: `ww_1` must not be negative where an item is placed.  It is not,
for items whose margins fit their container (`Fits`): where it would be, the item wraps, and at the
start of a line there is room (`ww1_bounds`).  Children of other containers come in between, but they
leave this cursor alone.
-/

namespace UtilWin
namespace Sizes2

/-! ## Rectangles -/

namespace Rect

/-- The points of a rectangle. -/
def points (r : Rect) : Set (ℤ × ℤ) :=
  { p | (r.left ≤ p.1 ∧ p.1 < r.right) ∧ r.top ≤ p.2 ∧ p.2 < r.bottom }

/-- `r'` is wholly to the right of `r` or wholly below it. -/
def Before (r r' : Rect) : Prop := r.right ≤ r'.left ∨ r.bottom ≤ r'.top

theorem Before.disjoint {r r' : Rect} (h : r.Before r') : Disjoint r.points r'.points := by
  rw [Set.disjoint_left]
  rintro p ⟨⟨-, hright⟩, -, hbottom⟩ ⟨⟨hleft, -⟩, htop, -⟩
  rcases h with h | h <;> omega

def width (r : Rect) : ℤ := r.right - r.left

end Rect

/-! ## One container -/

/-- The item with its margins fits into a line of `width`, whatever its own width if it is to take the
rest. -/
def ItemRect.Fits (item : ItemRect) (width : ℤ) : Prop :=
  if item.w = maxValue then int item.margin.l + int item.margin.r ≤ width
  else int item.margin.l + int item.w + int item.margin.r ≤ width

instance (item : ItemRect) (width : ℤ) : Decidable (item.Fits width) := by
  unfold ItemRect.Fits
  infer_instance

/-- A child with the rectangle `r`, seen from the cursor of its container. -/
structure Placed (sel : ItemTmpData) (r : Rect) : Prop where
  left : sel.rc.left ≤ r.left
  right : r.right ≤ sel.rc.right
  top : sel.rc.top ≤ r.top
  /-- On an earlier line, or on the current one. -/
  line : r.bottom ≤ sel.rc.top + sel.h ∨
    (r.right ≤ sel.rc.left + sel.w ∧ r.bottom ≤ sel.rc.top + sel.h + sel.maxh)

/-- The cursor is where a cursor can be. -/
structure Cursor (sel : ItemTmpData) : Prop where
  w : 0 ≤ sel.w
  h : 0 ≤ sel.h
  maxh : 0 ≤ sel.maxh

theorem int_nonneg (u : UInt16) : 0 ≤ int u := Int.natCast_nonneg _

variable {item : ItemRect} {sel : ItemTmpData} {r : Rect}

/-- **Where an item is placed, there is room for it.** -/
theorem ww1_bounds (hsel : Cursor sel) (hfits : item.Fits sel.rc.width)
    (hwraps : ¬ item.Wraps sel) : 0 ≤ item.ww1 sel ∧ sel.w + item.ww1 sel ≤ sel.rc.width := by
  have hl := int_nonneg item.margin.l
  have hr := int_nonneg item.margin.r
  have hw := int_nonneg item.w
  have hcursor := hsel.w
  simp only [ItemRect.Wraps, ItemRect.ww1, ItemRect.Fits, Rect.width] at *
  split_ifs at * <;> omega

theorem Cursor.newLine (hsel : Cursor sel) : Cursor sel.newLine :=
  ⟨Int.le_refl 0, Int.add_nonneg hsel.h hsel.maxh, Int.le_refl 0⟩

theorem Placed.newLine (hsel : Cursor sel) (h : Placed sel r) : Placed sel.newLine r := by
  refine ⟨h.left, h.right, h.top, Or.inl ?_⟩
  have := hsel.maxh
  have := h.line
  simp only [ItemTmpData.newLine]
  omega

@[simp] theorem rc_newLine : sel.newLine.rc = sel.rc := rfl

theorem advance_eq (sel : ItemTmpData) (item : ItemRect) : sel.advance item = sel.behind item ∨
    sel.advance item = (sel.behind item).newLine := by
  dsimp only [ItemTmpData.advance]
  split_ifs
  · exact Or.inr rfl
  · exact Or.inl rfl

/-- Whether the item ends its line does not matter for what has been placed. -/
theorem Placed.of_behind (hcursor : Cursor (sel.behind item)) (h : Placed (sel.behind item) r) :
    Placed (sel.advance item) r := by
  rcases advance_eq sel item with heq | heq <;> rw [heq]
  · exact h
  · exact h.newLine hcursor

@[simp] theorem rc_advance : (sel.advance item).rc = sel.rc := by
  rcases advance_eq sel item with h | h <;> rw [h] <;> rfl

theorem outrect_left : (item.outrect sel).left = sel.rc.left + sel.w + int item.margin.l := rfl

theorem outrect_right : (item.outrect sel).right = sel.rc.left + sel.w + item.ww1 sel := by
  simp only [ItemRect.outrect]
  omega

theorem outrect_top : (item.outrect sel).top = sel.rc.top + sel.h + int item.margin.t := rfl

theorem outrect_bottom : (item.outrect sel).bottom = sel.rc.top + sel.h + item.hh1 sel := by
  simp only [ItemRect.outrect]
  omega

/-- **A new child is right of or below every old one.** -/
theorem Placed.before (h : Placed sel r) : r.Before (item.outrect sel) := by
  have hl := int_nonneg item.margin.l
  have ht := int_nonneg item.margin.t
  rw [Rect.Before, outrect_left, outrect_top]
  have := h.line
  omega

section

variable (hsel : Cursor sel) (hfits : item.Fits sel.rc.width) (hwraps : ¬ item.Wraps sel)

include hsel hfits hwraps

theorem Cursor.behind : Cursor (sel.behind item) := by
  obtain ⟨hww, -⟩ := ww1_bounds hsel hfits hwraps
  have := hsel.w
  have := hsel.maxh
  refine ⟨?_, hsel.h, ?_⟩
  · simp only [ItemTmpData.behind, outrect_right]
    omega
  · simp only [ItemTmpData.behind]
    split_ifs <;> omega

theorem Cursor.advance : Cursor (sel.advance item) := by
  have h := hsel.behind hfits hwraps
  rcases advance_eq sel item with heq | heq <;> rw [heq]
  · exact h
  · exact h.newLine

/-- The children there were are still where they were, seen from the new cursor. -/
theorem Placed.advance (h : Placed sel r) : Placed (sel.advance item) r := by
  have hbehind : Placed (sel.behind item) r := by
    obtain ⟨hww, -⟩ := ww1_bounds hsel hfits hwraps
    refine ⟨h.left, h.right, h.top, ?_⟩
    have := h.line
    simp only [ItemTmpData.behind, outrect_right]
    split_ifs <;> omega
  exact hbehind.of_behind (hsel.behind hfits hwraps)

/-- And the new child is there too. -/
theorem placed_outrect : Placed (sel.advance item) (item.outrect sel) := by
  have hbehind : Placed (sel.behind item) (item.outrect sel) := by
    obtain ⟨hww, hroom⟩ := ww1_bounds hsel hfits hwraps
    have hl := int_nonneg item.margin.l
    have ht := int_nonneg item.margin.t
    have := hsel.w
    have := hsel.h
    rw [Rect.width] at hroom
    refine ⟨?_, ?_, ?_, Or.inr ?_⟩
    · rw [outrect_left]
      show sel.rc.left ≤ _
      omega
    · rw [outrect_right]
      show _ ≤ sel.rc.right
      omega
    · rw [outrect_top]
      show sel.rc.top ≤ _
      omega
    · simp only [ItemTmpData.behind, outrect_right, outrect_bottom]
      split_ifs <;> omega
  exact hbehind.of_behind (hsel.behind hfits hwraps)

end

/-! ## All containers -/

variable {ss : List ItemRect} {s : State} {c : Option ℕ}

/-- `ss[k]` is a child of `c`. -/
def IsChild (ss : List ItemRect) (c : Option ℕ) (k : ℕ) : Prop :=
  ∃ item, ss[k]? = some item ∧ item.container = c

/-- `rela` is `MAXVALUE` or names an earlier item. -/
def ValidRela (ss : List ItemRect) : Prop :=
  ∀ k j, IsChild ss (some j) k → j < k

/-- The container `c`, with the children that have been placed. -/
structure Flow (ss : List ItemRect) (s : State) (c : Option ℕ) : Prop where
  cursor : Cursor (s.tmp c)
  placed : ∀ k < s.i, IsChild ss c k → Placed (s.tmp c) (s.tmp (some k)).rc
  before : ∀ j k, j < k → k < s.i → IsChild ss c j → IsChild ss c k →
    (s.tmp (some j)).rc.Before (s.tmp (some k)).rc

/-- The condition on a container: all its children fit. -/
def AllFit (ss : List ItemRect) (rc : Rect) (c : Option ℕ) : Prop :=
  ∀ (k : ℕ) (item : ItemRect), ss[k]? = some item → item.container = c → item.Fits rc.width

/-- What holds in front of every turn. -/
structure Inv (ss : List ItemRect) (s : State) : Prop where
  /-- The cursor of an item that has not been placed is at the start. -/
  untouched : ∀ j, s.i ≤ j →
    (s.tmp (some j)).w = 0 ∧ (s.tmp (some j)).h = 0 ∧ (s.tmp (some j)).maxh = 0
  flow : ∀ c, AllFit ss (s.tmp c).rc c → Flow ss s c

theorem Inv.init (ss : List ItemRect) (parentrc : Rect) : Inv ss (.init parentrc) where
  untouched _ _ := ⟨rfl, rfl, rfl⟩
  flow c _ := by
    refine ⟨?_, fun k hk => absurd hk (Nat.not_lt_zero k), fun _ k _ hk => ?_⟩
    on_goal 2 => exact absurd hk (Nat.not_lt_zero k)
    cases c <;> exact ⟨Int.le_refl 0, Int.le_refl 0, Int.le_refl 0⟩

/-- Where a container is not touched, and its children are placed as before, nothing changes. -/
theorem Flow.congr {t : State} (h : Flow ss s c) (hc : t.tmp c = s.tmp c)
    (hchild : ∀ k < t.i, IsChild ss c k → k < s.i)
    (hrc : ∀ k < s.i, (t.tmp (some k)).rc = (s.tmp (some k)).rc) : Flow ss t c where
  cursor := by
    rw [hc]
    exact h.cursor
  placed k hk hkc := by
    have hk' := hchild k hk hkc
    rw [hc, hrc k hk']
    exact h.placed k hk' hkc
  before j k hjk hk hjc hkc := by
    have hk' := hchild k hk hkc
    rw [hrc j (Nat.lt_trans hjk hk'), hrc k hk']
    exact h.before j k hjk hk' hjc hkc

section

variable {item : ItemRect} (hvalid : ValidRela ss) (hitem : ss[s.i]? = some item)

include hvalid hitem

/-- The container of an item is not one of the items that are still to come. -/
theorem container_ne {j : ℕ} (hj : s.i ≤ j) : some j ≠ item.container := by
  intro heq
  have hlt := hvalid s.i j ⟨item, hitem, heq.symm⟩
  omega

/-- **A wrap** keeps the invariant. -/
theorem Inv.wrap (h : Inv ss s) (hwraps : item.Wraps (s.tmp item.container)) :
    Inv ss (s.turn item) := by
  rw [turn_of_wraps hwraps]
  have hrc : ∀ x, (Function.update s.tmp item.container (s.tmp item.container).newLine x).rc =
      (s.tmp x).rc := by
    intro x
    by_cases hx : x = item.container
    · rw [hx, Function.update_self, rc_newLine]
    · rw [Function.update_of_ne hx]
  refine ⟨fun j hj => ?_, fun c hfits => ?_⟩
  · dsimp only
    rw [Function.update_of_ne (container_ne hvalid hitem hj)]
    exact h.untouched j hj
  · have hflow := h.flow c (by rwa [hrc] at hfits)
    by_cases hc : c = item.container
    · subst hc
      refine ⟨?_, fun k hk hkc => ?_, fun j k hjk hk hjc hkc => ?_⟩
      · dsimp only
        rw [Function.update_self]
        exact hflow.cursor.newLine
      · dsimp only
        rw [hrc, Function.update_self]
        exact (hflow.placed k hk hkc).newLine hflow.cursor
      · dsimp only
        rw [hrc, hrc]
        exact hflow.before j k hjk hk hjc hkc
    · exact hflow.congr (Function.update_of_ne hc _ _) (fun k hk _ => hk) fun k _ => hrc _

/-- **Placing** keeps the invariant. -/
theorem Inv.place (h : Inv ss s) (hwraps : ¬ item.Wraps (s.tmp item.container)) :
    Inv ss (s.turn item) := by
  have hne : ∀ {j}, s.i ≤ j → some j ≠ item.container := container_ne hvalid hitem
  have hi : (s.turn item).i = s.i + 1 := by rw [State.turn, if_neg hwraps]
  -- the three kinds of cells: the container, the item, and all others
  have hsel : (s.turn item).tmp item.container = (s.tmp item.container).advance item := by
    rw [State.turn, if_neg hwraps]
    exact Function.update_self _ _ _
  have hself : (s.turn item).tmp (some s.i) =
      { s.tmp (some s.i) with rc := item.outrect (s.tmp item.container) } := by
    rw [State.turn, if_neg hwraps]
    exact (Function.update_of_ne (hne (Nat.le_refl _)) _ _).trans (Function.update_self _ _ _)
  have hother : ∀ x, x ≠ item.container → x ≠ some s.i → (s.turn item).tmp x = s.tmp x := by
    intro x hx hx'
    rw [State.turn, if_neg hwraps]
    exact (Function.update_of_ne hx _ _).trans (Function.update_of_ne hx' _ _)
  have hrc : ∀ x, x ≠ some s.i → ((s.turn item).tmp x).rc = (s.tmp x).rc := by
    intro x hx
    by_cases hc : x = item.container
    · rw [hc, hsel, rc_advance]
    · rw [hother x hc hx]
  have hold : ∀ k < s.i, ((s.turn item).tmp (some k)).rc = (s.tmp (some k)).rc := by
    intro k hk
    exact hrc _ fun heq => absurd (Option.some.inj heq) (Nat.ne_of_lt hk)
  refine ⟨fun j hj => ?_, fun c hfits => ?_⟩
  · rw [hi] at hj
    rw [hother _ (hne (by omega)) fun heq => by injection heq; omega]
    exact h.untouched j (by omega)
  · by_cases hci : c = some s.i
    · -- the item itself, which has no children yet
      subst hci
      have hnone : ∀ k < (s.turn item).i, ¬ IsChild ss (some s.i) k := by
        intro k hk hkc
        have := hvalid k s.i hkc
        omega
      obtain ⟨hw, hh, hmaxh⟩ := h.untouched s.i (Nat.le_refl _)
      refine ⟨?_, fun k hk hkc => absurd hkc (hnone k hk),
        fun j k _ hk _ hkc => absurd hkc (hnone k hk)⟩
      rw [hself]
      exact ⟨Int.le_of_eq hw.symm, Int.le_of_eq hh.symm, Int.le_of_eq hmaxh.symm⟩
    · rw [hrc c hci] at hfits
      have hflow := h.flow c hfits
      by_cases hc : c = item.container
      · subst hc
        have hitemfits := hfits s.i item hitem rfl
        have hcases : ∀ k < (s.turn item).i, k < s.i ∨ k = s.i := by
          intro k hk
          omega
        refine ⟨?_, fun k hk hkc => ?_, fun j k hjk hk hjc hkc => ?_⟩
        · rw [hsel]
          exact hflow.cursor.advance hitemfits hwraps
        · rw [hsel]
          rcases hcases k hk with hlt | rfl
          · rw [hold k hlt]
            exact (hflow.placed k hlt hkc).advance hflow.cursor hitemfits hwraps
          · rw [hself]
            exact placed_outrect hflow.cursor hitemfits hwraps
        · rcases hcases k hk with hlt | rfl
          · rw [hold j (Nat.lt_trans hjk hlt), hold k hlt]
            exact hflow.before j k hjk hlt hjc hkc
          · rw [hold j hjk, hself]
            exact (hflow.placed j hjk hjc).before
      · refine hflow.congr (hother c hc hci) (fun k hk hkc => ?_) hold
        rcases Nat.lt_or_ge k s.i with hlt | hge
        · exact hlt
        · have hk' : k = s.i := by omega
          obtain ⟨item', hitem', hcont⟩ := hkc
          rw [hk', hitem] at hitem'
          cases hitem'
          exact absurd hcont.symm hc

/-- **One turn.** -/
theorem Inv.turn (h : Inv ss s) : Inv ss (s.turn item) := by
  by_cases hwraps : item.Wraps (s.tmp item.container)
  · exact h.wrap hvalid hitem hwraps
  · exact h.place hvalid hitem hwraps

end

/-- **The whole loop.** -/
theorem Inv.loop (hvalid : ValidRela ss) (h : Inv ss s) :
    Inv ss (Sizes2.loop ss s) ∧ ss.length ≤ (Sizes2.loop ss s).i := by
  fun_induction Sizes2.loop ss s with
  | case1 s hnone => exact ⟨h, List.getElem?_eq_none_iff.mp hnone⟩
  | case2 s item hitem ih => exact ih (h.turn hvalid hitem)

/-- The rectangle of a container: the parent, or that of an item. -/
def rect (ss : List ItemRect) (parentrc : Rect) (c : Option ℕ) : Rect := (getSizes ss parentrc c).rc

/-- **Flow layout places siblings without overlap.**  If the children of a container fit its width,
two different ones have no point in common, and each lies between the left and the right edge of the
container and not above its top. -/
theorem siblings_disjoint {ss : List ItemRect} (hvalid : ValidRela ss) (parentrc : Rect)
    (c : Option ℕ) (hfits : AllFit ss (rect ss parentrc c) c) :
    (∀ j k, j ≠ k → IsChild ss c j → IsChild ss c k →
      Disjoint (rect ss parentrc (some j)).points (rect ss parentrc (some k)).points) ∧
    ∀ k, IsChild ss c k →
      (rect ss parentrc c).left ≤ (rect ss parentrc (some k)).left ∧
        (rect ss parentrc (some k)).right ≤ (rect ss parentrc c).right ∧
        (rect ss parentrc c).top ≤ (rect ss parentrc (some k)).top := by
  obtain ⟨hinv, hend⟩ := (Inv.init ss parentrc).loop hvalid
  have hflow := hinv.flow c hfits
  have hplaced : ∀ k, IsChild ss c k → k < (Sizes2.loop ss (.init parentrc)).i := by
    rintro k ⟨item, hitem, -⟩
    exact Nat.lt_of_lt_of_le (List.getElem?_eq_some_iff.mp hitem).1 hend
  refine ⟨fun j k hjk hj hk => ?_, fun k hk => ?_⟩
  · rcases Nat.lt_or_gt_of_ne hjk with hlt | hgt
    · exact (hflow.before j k hlt (hplaced k hk) hj hk).disjoint
    · exact (hflow.before k j hgt (hplaced j hj) hk hj).disjoint.symm
  · have h := hflow.placed k (hplaced k hk) hk
    exact ⟨h.left, h.right, h.top⟩

/-- Two panes, of which the second wraps, and in the first a field, a field that takes the rest of its
line, and a field that wraps; the second pane comes between the first two of them. -/
def panes : List ItemRect :=
  [⟨maxValue, 60, 20, ⟨2, 2, 2, 2⟩⟩, ⟨0, 20, 5, ⟨1, 1, 1, 1⟩⟩, ⟨maxValue, 60, 20, ⟨2, 2, 2, 2⟩⟩,
    ⟨0, maxValue, 5, ⟨1, 1, 1, 1⟩⟩, ⟨0, 30, 5, ⟨1, 1, 1, 1⟩⟩]

/-- The field that takes the rest of its line and the one that wraps. -/
theorem siblings_disjoint_panes :
    Disjoint (rect panes ⟨0, 0, 100, 100⟩ (some 3)).points
      (rect panes ⟨0, 0, 100, 100⟩ (some 4)).points := by
  have hvalid : ValidRela panes := by
    have hall : ∀ k : Fin 5, ∀ j ∈ (panes[k]).container, j < k := by decide
    rintro k j ⟨item, hitem, hcont⟩
    obtain ⟨hk, rfl⟩ := List.getElem?_eq_some_iff.mp hitem
    exact hall ⟨k, hk⟩ j hcont
  have hfits : AllFit panes (rect panes ⟨0, 0, 100, 100⟩ (some 0)) (some 0) := by
    have hwidth : (rect panes ⟨0, 0, 100, 100⟩ (some 0)).width = 60 := by decide +kernel
    have hall : ∀ item ∈ panes, item.container = some 0 → item.Fits 60 := by decide
    intro k item hitem hcont
    rw [hwidth]
    exact hall item (List.mem_of_getElem? hitem) hcont
  exact (siblings_disjoint hvalid ⟨0, 0, 100, 100⟩ (some 0) hfits).1 3 4 (by decide)
    ⟨_, rfl, rfl⟩ ⟨_, rfl, rfl⟩

end Sizes2
end UtilWin
