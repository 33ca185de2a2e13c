import UtilWin.Layout.Flow

/-!
# Items that take the rest of a line

An item whose width is `MAXVALUE` takes what is left of the line, less its margins.  It is to go to a
new line where that is less than nothing, but the test looks at `ww_1`, in which the left margin is
still contained: an item whose right margin fits behind the cursor, but not both of its margins, stays
on the line, and its right edge gets in front of its left edge.

Whether that happens to an item can be told from the items.  `lineEnd` follows the cursor of a container
along its children; the turns in which an item wraps need no place in it, as the wrap and the turn
after it are one step (`settle`).  `width` is the width an item gets, which its own children start from.
-/

namespace UtilWin
namespace Sizes2

/-! ## The loop, item by item -/

/-- The container as an item finds it in the turn in which it is placed. -/
def ItemTmpData.fitted (sel : ItemTmpData) (item : ItemRect) : ItemTmpData :=
  if item.Wraps sel then sel.newLine else sel

/-- One item: the turn that places it, after the one in which it wraps if it does. -/
def State.settle (s : State) (item : ItemRect) : State :=
  let sel := (s.tmp item.container).fitted item
  { i := s.i + 1
    tmp := Function.update
      (Function.update s.tmp (some s.i) { s.tmp (some s.i) with rc := item.outrect sel })
      item.container (sel.advance item) }

variable {ss : List ItemRect} {s : State} {item : ItemRect} {sel : ItemTmpData} {c : Option ℕ}

theorem turn_of_not_wraps (h : ¬ item.Wraps (s.tmp item.container)) :
    s.turn item = s.settle item := by
  rw [State.turn, if_neg h, State.settle, ItemTmpData.fitted, if_neg h]

/-- A wrap, and the turn after it. -/
theorem turn_turn_of_wraps (hne : some s.i ≠ item.container)
    (h : item.Wraps (s.tmp item.container)) : (s.turn item).turn item = s.settle item := by
  have hstay : ¬ item.Wraps ((s.turn item).tmp item.container) := by
    rw [turn_of_wraps h]
    dsimp only
    rw [Function.update_self]
    exact not_wraps_newLine item _
  rw [turn_of_not_wraps hstay, turn_of_wraps h]
  simp only [State.settle, Function.update_self, ItemTmpData.fitted, if_pos h,
    if_neg (not_wraps_newLine item _), Function.update_of_ne hne]
  rw [Function.update_comm hne, Function.update_idem, Function.update_comm hne]

theorem loop_of_some (hitem : ss[s.i]? = some item) : loop ss s = loop ss (s.turn item) := by
  rw [loop]
  split
  · rename_i hnone
    rw [hitem] at hnone
    cases hnone
  · rename_i item' hitem'
    rw [hitem] at hitem'
    cases hitem'
    rfl

/-- **The loop takes one item after the other.** -/
theorem loop_eq_foldl (hvalid : ValidRela ss) :
    ∀ (n : ℕ) (s : State), s.i + n = ss.length → loop ss s = (ss.drop s.i).foldl State.settle s
  | 0, s, hn => by
    rw [loop, List.drop_of_length_le (by omega)]
    split
    · rfl
    · rename_i item hitem
      have := (List.getElem?_eq_some_iff.mp hitem).1
      omega
  | n + 1, s, hn => by
    have hi : s.i < ss.length := by omega
    have hitem : ss[s.i]? = some ss[s.i] := List.getElem?_eq_getElem hi
    have hne : some s.i ≠ ss[s.i].container := container_ne hvalid hitem (Nat.le_refl _)
    have hstep : loop ss s = loop ss (s.settle ss[s.i]) := by
      by_cases hw : ss[s.i].Wraps (s.tmp ss[s.i].container)
      · have hitem' : ss[(s.turn ss[s.i]).i]? = some ss[s.i] := by
          rw [turn_of_wraps hw]
          exact hitem
        rw [loop_of_some hitem, loop_of_some hitem', turn_turn_of_wraps hne hw]
      · rw [loop_of_some hitem, turn_of_not_wraps hw]
    rw [hstep, loop_eq_foldl hvalid n _ (by simp only [State.settle]; omega),
      List.drop_eq_getElem_cons hi, List.foldl_cons]
    rfl

/-! ## Along a line -/

namespace ItemRect

variable (item : ItemRect) (width cur : ℤ)

/-- What has to fit behind the cursor.  Of an item that takes the rest of the line that is the right
margin only. -/
def need : ℤ :=
  if item.w = maxValue then int item.margin.r
  else int item.margin.l + int item.w + int item.margin.r

/-- Where the item starts, in a container of `width` whose line has got to `cur`. -/
def start : ℤ := if 0 < cur ∧ width < cur + item.need then 0 else cur

/-- The width the item gets. -/
def widthAt : ℤ :=
  if item.w = maxValue then width - item.start width cur - int item.margin.l - int item.margin.r
  else int item.w

/-- How far the line has got behind the item, or 0 if that is the end of the line. -/
def lineEnd : ℤ :=
  let right := item.start width cur + int item.margin.l + item.widthAt width cur
  if width ≤ right then 0 else right

end ItemRect

/-- How far the line has got behind some children. -/
def lineEnd (width : ℤ) (items : List ItemRect) : ℤ :=
  items.foldl (fun cur item => item.lineEnd width cur) 0

/-- The children of `c` in front of `ss[k]`. -/
def siblings (ss : List ItemRect) (c : Option ℕ) (k : ℕ) : List ItemRect :=
  (ss.take k).filter fun item => item.container = c

/-- The width of `ss[k]`, in a parent of width `parent`. -/
def width (ss : List ItemRect) (parent : ℤ) (k : ℕ) : ℤ :=
  match ss[k]? with
  | none => 0
  | some item =>
    let container := match item.container with
      | none => parent
      | some j => if j < k then width ss parent j else 0
    item.widthAt container (lineEnd container (siblings ss item.container k))
termination_by k

/-- The width of a container: the parent's, or that of an item. -/
def containerWidth (ss : List ItemRect) (parent : ℤ) : Option ℕ → ℤ
  | none => parent
  | some j => width ss parent j

theorem width_eq (hvalid : ValidRela ss) (parent : ℤ) {k : ℕ} (hitem : ss[k]? = some item) :
    width ss parent k = item.widthAt (containerWidth ss parent item.container)
      (lineEnd (containerWidth ss parent item.container) (siblings ss item.container k)) := by
  rw [width, hitem]
  dsimp only
  cases hcont : item.container with
  | none => rfl
  | some j =>
    dsimp only
    rw [if_pos (hvalid k j ⟨item, hitem, hcont⟩)]
    rfl

/-! ## What the loop does along a line -/

theorem rc_fitted : (sel.fitted item).rc = sel.rc := by
  rw [ItemTmpData.fitted]
  split_ifs <;> rfl

/-- An item wraps if what has to fit does not. -/
theorem wraps_iff : item.Wraps sel ↔ 0 < sel.w ∧ sel.rc.width < sel.w + item.need := by
  have hl := int_nonneg item.margin.l
  have hw := int_nonneg item.w
  simp only [ItemRect.Wraps, ItemRect.ww1, ItemRect.need, Rect.width]
  split_ifs <;> omega

theorem w_fitted : (sel.fitted item).w = item.start sel.rc.width sel.w := by
  rw [ItemTmpData.fitted, ItemRect.start, if_congr wraps_iff.symm rfl rfl]
  split_ifs <;> rfl

theorem ww1_fitted : item.ww1 (sel.fitted item) =
    int item.margin.l + item.widthAt sel.rc.width sel.w := by
  rw [ItemRect.ww1, rc_fitted, w_fitted, ItemRect.widthAt, Rect.width]
  split_ifs <;> omega

theorem width_outrect :
    (item.outrect (sel.fitted item)).width = item.widthAt sel.rc.width sel.w := by
  rw [Rect.width, outrect_left, outrect_right, ww1_fitted]
  omega

theorem w_advance :
    ((sel.fitted item).advance item).w = item.lineEnd sel.rc.width sel.w := by
  have hright : ((sel.fitted item).behind item).w =
      item.start sel.rc.width sel.w + int item.margin.l + item.widthAt sel.rc.width sel.w := by
    simp only [ItemTmpData.behind, outrect_right, ww1_fitted, w_fitted]
    omega
  have hrc : ((sel.fitted item).behind item).rc = sel.rc := rc_fitted
  simp only [ItemTmpData.advance, ItemRect.lineEnd]
  rw [hright, hrc]
  by_cases hend : sel.rc.width ≤
      item.start sel.rc.width sel.w + int item.margin.l + item.widthAt sel.rc.width sel.w
  · rw [if_pos hend, if_pos (by rw [Rect.width] at *; omega)]
    rfl
  · rw [if_neg hend, if_neg (by rw [Rect.width] at *; omega), hright]

/-- The widths of the items that have been placed, and how far the lines have got. -/
structure Lines (ss : List ItemRect) (parent : ℤ) (s : State) : Prop where
  root : (s.tmp none).rc.width = parent
  item : ∀ k < s.i, (s.tmp (some k)).rc.width = width ss parent k
  cursor : ∀ c, (s.tmp c).w = lineEnd (containerWidth ss parent c) (siblings ss c s.i)

theorem Lines.init (ss : List ItemRect) (parentrc : Rect) :
    Lines ss parentrc.width (.init parentrc) where
  root := rfl
  item k hk := absurd hk (Nat.not_lt_zero k)
  cursor c := by cases c <;> rfl

theorem siblings_succ {k : ℕ} (hitem : ss[k]? = some item) (c : Option ℕ) :
    siblings ss c (k + 1) =
      if item.container = c then siblings ss c k ++ [item] else siblings ss c k := by
  obtain ⟨hk, rfl⟩ := List.getElem?_eq_some_iff.mp hitem
  rw [siblings, siblings, List.take_add_one, hitem, List.filter_append, Option.toList_some]
  split_ifs with hc
  · rw [List.filter_cons_of_pos (by simpa using hc), List.filter_nil]
  · rw [List.filter_cons_of_neg (by simpa using hc), List.filter_nil, List.append_nil]

/-- **One item.** -/
theorem Lines.settle {parent : ℤ} (hvalid : ValidRela ss) (hitem : ss[s.i]? = some item)
    (h : Lines ss parent s) : Lines ss parent (s.settle item) := by
  have hself : some s.i ≠ item.container := container_ne hvalid hitem (Nat.le_refl _)
  have hcursor := h.cursor item.container
  -- the container has been placed, or it is the parent
  have hwidth : (s.tmp item.container).rc.width = containerWidth ss parent item.container := by
    cases hcont : item.container with
    | none => exact h.root
    | some j => exact h.item j (hvalid s.i j ⟨item, hitem, hcont⟩)
  have hrc : ∀ x, x ≠ some s.i → ((s.settle item).tmp x).rc = (s.tmp x).rc := by
    intro x hx
    dsimp only [State.settle]
    by_cases hc : x = item.container
    · rw [hc, Function.update_self, rc_advance, rc_fitted]
    · rw [Function.update_of_ne hc, Function.update_of_ne hx]
  refine ⟨?_, fun k hk => ?_, fun c => ?_⟩
  · rw [hrc none (fun heq => by cases heq)]
    exact h.root
  · rcases Nat.lt_or_eq_of_le (Nat.le_of_lt_succ hk) with hlt | rfl
    · rw [hrc (some k) (fun heq => by injection heq; omega)]
      exact h.item k hlt
    · dsimp only [State.settle]
      rw [Function.update_of_ne hself, Function.update_self, width_outrect, hcursor, hwidth,
        width_eq hvalid parent hitem]
  · have hsucc : (s.settle item).i = s.i + 1 := rfl
    rw [hsucc, siblings_succ hitem]
    dsimp only [State.settle]
    by_cases hc : item.container = c
    · subst hc
      rw [Function.update_self, if_pos rfl, w_advance, hcursor, hwidth, lineEnd, lineEnd,
        List.foldl_append]
      rfl
    · have hkept : (Function.update s.tmp (some s.i)
          { s.tmp (some s.i) with rc := item.outrect ((s.tmp item.container).fitted item) } c).w =
          (s.tmp c).w := by
        by_cases hcs : c = some s.i
        · rw [hcs, Function.update_self]
        · rw [Function.update_of_ne hcs]
      rw [Function.update_of_ne (fun heq => hc heq.symm), if_neg hc, hkept]
      exact h.cursor c

/-- **All items.** -/
theorem Lines.foldl {parent : ℤ} (hvalid : ValidRela ss) :
    ∀ (n : ℕ) (s : State), s.i + n = ss.length → Lines ss parent s →
      Lines ss parent ((ss.drop s.i).foldl State.settle s) ∧
        ((ss.drop s.i).foldl State.settle s).i = ss.length
  | 0, s, hn, h => by
    rw [List.drop_of_length_le (by omega)]
    exact ⟨h, hn⟩
  | n + 1, s, hn, h => by
    have hi : s.i < ss.length := by omega
    have hnext := h.settle hvalid (List.getElem?_eq_getElem hi)
    have ih := Lines.foldl hvalid n (s.settle ss[s.i]) (by simp only [State.settle]; omega) hnext
    rwa [List.drop_eq_getElem_cons hi, List.foldl_cons]

/-- **The width of every rectangle.** -/
theorem width_rect (hvalid : ValidRela ss) (parentrc : Rect) {k : ℕ} (hk : k < ss.length) :
    (rect ss parentrc (some k)).width = width ss parentrc.width k ∧
      ∀ c, IsChild ss c k → (rect ss parentrc c).width = containerWidth ss parentrc.width c := by
  have hloop : loop ss (.init parentrc) = ss.foldl State.settle (.init parentrc) :=
    loop_eq_foldl hvalid ss.length (.init parentrc) (Nat.zero_add _)
  obtain ⟨h, hi⟩ := Lines.foldl hvalid ss.length (.init parentrc) (Nat.zero_add _)
    (Lines.init ss parentrc)
  have hdrop : ss.drop (State.init parentrc).i = ss := rfl
  rw [hdrop] at h hi
  have hplaced : ∀ j < ss.length, (rect ss parentrc (some j)).width = width ss parentrc.width j := by
    intro j hj
    rw [rect, getSizes, hloop]
    exact h.item j (by omega)
  refine ⟨hplaced k hk, fun c hchild => ?_⟩
  cases c with
  | none =>
    rw [rect, getSizes, hloop]
    exact h.root
  | some j => exact hplaced j (Nat.lt_trans (hvalid k j hchild) hk)

/-! ## The condition -/

/-- **An item that takes the rest of a line, in a container its margins fit into, gets its left edge in
front of its right edge if and only if the line behind the earlier children is empty, or what is left of
it holds both margins of the item, or not even the right one.** -/
theorem left_le_right_iff {ss : List ItemRect} (hvalid : ValidRela ss) (parentrc : Rect) {k : ℕ}
    {item : ItemRect} (hitem : ss[k]? = some item) (hauto : item.w = maxValue)
    (hfits : int item.margin.l + int item.margin.r ≤ (rect ss parentrc item.container).width) :
    (rect ss parentrc (some k)).left ≤ (rect ss parentrc (some k)).right ↔
      let w := containerWidth ss parentrc.width item.container
      let cur := lineEnd w (siblings ss item.container k)
      cur ≤ 0 ∨ cur + int item.margin.l + int item.margin.r ≤ w ∨ w < cur + int item.margin.r := by
  have hk : k < ss.length := (List.getElem?_eq_some_iff.mp hitem).1
  obtain ⟨hwidth, hcont⟩ := width_rect hvalid parentrc hk
  rw [hcont _ ⟨item, hitem, rfl⟩] at hfits
  rw [width_eq hvalid _ hitem, ItemRect.widthAt, if_pos hauto, ItemRect.start, ItemRect.need,
    if_pos hauto, Rect.width] at hwidth
  have hl := int_nonneg item.margin.l
  dsimp only
  split_ifs at hwidth <;> omega

/-- Two fields that are to take the rest of a line of 100: the first leaves its right margin of 10,
which holds the right margin of the second but not both. -/
def twoRests : List ItemRect :=
  [⟨maxValue, maxValue, 5, ⟨0, 0, 10, 0⟩⟩, ⟨maxValue, maxValue, 5, ⟨10, 0, 5, 0⟩⟩]

theorem validRela_twoRests : ValidRela twoRests := by
  rintro k j ⟨item, hitem, hcont⟩
  have hall : ∀ item ∈ twoRests, item.container = none := by decide
  rw [hall item (List.mem_of_getElem? hitem)] at hcont
  cases hcont

/-- The first field is not inverted, on its empty line. -/
theorem left_le_right_first :
    (rect twoRests ⟨0, 0, 100, 20⟩ (some 0)).left ≤ (rect twoRests ⟨0, 0, 100, 20⟩ (some 0)).right :=
  (left_le_right_iff validRela_twoRests ⟨0, 0, 100, 20⟩ (k := 0) rfl rfl
    (by decide +kernel)).mpr (Or.inl (by decide +kernel))

/-- The second field is inverted, though its margins fit into the container. -/
theorem second_inverted :
    ¬ ∀ (ss : List ItemRect) (parentrc : Rect) (k : ℕ) (item : ItemRect), ValidRela ss →
      ss[k]? = some item → item.w = maxValue →
      int item.margin.l + int item.margin.r ≤ (rect ss parentrc item.container).width →
      (rect ss parentrc (some k)).left ≤ (rect ss parentrc (some k)).right := by
  intro hall
  have hle := hall twoRests ⟨0, 0, 100, 20⟩ 1 _ validRela_twoRests rfl rfl (by decide +kernel)
  exact absurd hle (by decide +kernel)

end Sizes2
end UtilWin
