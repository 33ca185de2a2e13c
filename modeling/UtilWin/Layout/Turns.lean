import UtilWin.Layout.Flow
import UtilWin.Library.Run
import Mathlib.Data.List.Nodup

/-!
# The turns of the placing loop

A turn of the loop of `GetSizes` either places an item or wraps, and then the same item is looked at
again: the source steps back, `--i; continue`.  Here the turns are the labels of a step relation, and
the runs of it are what the loop does up to some turn.

A wrap puts the cursor of the item's container to 0, and at 0 nothing wraps, so the next turn places
the item.  That bounds the turns by two for each item; and as the index moves on only where an item
is placed, the items are placed one after the other, each once.
-/

namespace UtilWin
namespace Sizes2

/-- What a turn does. -/
inductive Turn where
  /-- The item `i` wraps. -/
  | again (i : ℕ)
  /-- `td[i].rc` is assigned. -/
  | placed (i : ℕ) (rc : Rect)

namespace Turn

/-- The item that wraps. -/
def again? : Turn → Option ℕ
  | again i => some i
  | placed _ _ => none

/-- The item that is placed. -/
def placed? : Turn → Option ℕ
  | again _ => none
  | placed i _ => some i

end Turn

variable {ss : List ItemRect} {s t : State} {item : ItemRect} {e : Turn} {tr : List Turn}

/-- What the turn for an item does. -/
def State.does (s : State) (item : ItemRect) : Turn :=
  if item.Wraps (s.tmp item.container) then .again s.i
  else .placed s.i (item.outrect (s.tmp item.container))

/-- One turn of the loop over `ss`. -/
def Step (ss : List ItemRect) (s : State) (e : Turn) (t : State) : Prop :=
  ∃ item, ss[s.i]? = some item ∧ e = s.does item ∧ t = s.turn item

/-- What a turn can do. -/
theorem Step.cases (h : Step ss s e t) :
    ∃ item, ss[s.i]? = some item ∧
      ((item.Wraps (s.tmp item.container) ∧ e = .again s.i ∧ t.i = s.i ∧
          t.tmp = Function.update s.tmp item.container (s.tmp item.container).newLine) ∨
        (¬ item.Wraps (s.tmp item.container) ∧
          e = .placed s.i (item.outrect (s.tmp item.container)) ∧ t.i = s.i + 1 ∧
          t.tmp = Function.update (Function.update s.tmp (some s.i)
            { s.tmp (some s.i) with rc := item.outrect (s.tmp item.container) })
            item.container ((s.tmp item.container).advance item))) := by
  obtain ⟨item, hitem, rfl, rfl⟩ := h
  refine ⟨item, hitem, ?_⟩
  by_cases hw : item.Wraps (s.tmp item.container)
  · rw [State.does, if_pos hw, turn_of_wraps hw]
    exact Or.inl ⟨hw, rfl, rfl, rfl⟩
  · rw [State.does, if_neg hw, State.turn, if_neg hw]
    exact Or.inr ⟨hw, rfl, rfl, rfl⟩

/-- The loop only stops behind the last item. -/
theorem exists_step (hi : s.i < ss.length) : ∃ e t, Step ss s e t :=
  ⟨s.does ss[s.i], s.turn ss[s.i], ss[s.i], List.getElem?_eq_getElem hi, rfl, rfl⟩

/-! ## The rectangles of items -/

/-- Only the turn that places an item changes its rectangle. -/
theorem Step.rc (hvalid : ValidRela ss) (h : Step ss s e t) :
    (∀ k, e.placed? ≠ some k → (t.tmp (some k)).rc = (s.tmp (some k)).rc) ∧
      ∀ k rc, e = .placed k rc → (t.tmp (some k)).rc = rc := by
  obtain ⟨item, hitem, ⟨-, rfl, -, htmp⟩ | ⟨-, rfl, -, htmp⟩⟩ := h.cases
  · refine ⟨fun k _ => ?_, fun k rc heq => by cases heq⟩
    rw [htmp]
    by_cases hk : some k = item.container
    · rw [hk, Function.update_self, rc_newLine]
    · rw [Function.update_of_ne hk]
  · have hself : some s.i ≠ item.container := container_ne hvalid hitem (Nat.le_refl _)
    refine ⟨fun k hk => ?_, fun k rc heq => ?_⟩
    · have hki : some k ≠ some s.i := fun heq => hk heq.symm
      rw [htmp]
      by_cases hkc : some k = item.container
      · rw [hkc, Function.update_self, rc_advance]
      · rw [Function.update_of_ne hkc, Function.update_of_ne hki]
    · cases heq
      rw [htmp, Function.update_of_ne hself, Function.update_self]

/-! ## Runs -/

/-- The items that have wrapped. -/
def wrapped (tr : List Turn) : List ℕ := tr.filterMap Turn.again?

/-- The items that have been placed. -/
def placed (tr : List Turn) : List ℕ := tr.filterMap Turn.placed?

/-- What the turns so far have left behind. -/
structure TurnsInv (ss : List ItemRect) (tr : List Turn) (s : State) : Prop where
  le : s.i ≤ ss.length
  /-- Every turn has used one up. -/
  left : tr.length + s.turnsLeft ss ≤ 2 * ss.length
  placed : placed tr = List.range s.i
  wrapped_nodup : (wrapped tr).Nodup
  wrapped_le : ∀ k ∈ wrapped tr, k ≤ s.i
  /-- The item that has just wrapped does not wrap. -/
  settled : ∀ item, ss[s.i]? = some item → s.i ∈ wrapped tr → ¬ item.Wraps (s.tmp item.container)
  rc : ∀ k rc, Turn.placed k rc ∈ tr → (s.tmp (some k)).rc = rc

theorem turnsLeft_init (ss : List ItemRect) (parentrc : Rect) :
    (State.init parentrc).turnsLeft ss = 2 * ss.length := by
  have hw : ∀ item : ItemRect, ¬ item.Wraps ((State.init parentrc).tmp item.container) := by
    rintro item ⟨-, hpos⟩
    revert hpos
    cases item.container <;> exact fun hpos => absurd hpos (Int.lt_irrefl 0)
  rw [State.turnsLeft]
  split
  · rw [if_neg (hw _)]
    rfl
  · rfl

theorem TurnsInv.init (ss : List ItemRect) (parentrc : Rect) :
    TurnsInv ss [] (.init parentrc) where
  le := Nat.zero_le _
  left := by rw [turnsLeft_init, List.length_nil, Nat.zero_add]
  placed := rfl
  wrapped_nodup := List.nodup_nil
  wrapped_le _ hk := absurd hk List.not_mem_nil
  settled _ _ hk := absurd hk List.not_mem_nil
  rc _ _ hk := absurd hk List.not_mem_nil

/-- Every turn uses one up. -/
theorem TurnsInv.left_step (h : TurnsInv ss tr s) (hstep : Step ss s e t) :
    (tr ++ [e]).length + t.turnsLeft ss ≤ 2 * ss.length := by
  obtain ⟨item, hitem, -, rfl⟩ := hstep
  have hlt := turnsLeft_turn_lt hitem
  have := h.left
  rw [List.length_append, List.length_singleton]
  omega

/-- **A turn in which the item wraps.** -/
theorem TurnsInv.step_again (hvalid : ValidRela ss) (h : TurnsInv ss tr s)
    (hstep : Step ss s (.again s.i) t) (hitem : ss[s.i]? = some item)
    (hw : item.Wraps (s.tmp item.container)) (hi : t.i = s.i)
    (htmp : t.tmp = Function.update s.tmp item.container (s.tmp item.container).newLine) :
    TurnsInv ss (tr ++ [.again s.i]) t := by
  have hwr : wrapped (tr ++ [.again s.i]) = wrapped tr ++ [s.i] := List.filterMap_append
  have hpl : Sizes2.placed (tr ++ [.again s.i]) = Sizes2.placed tr :=
    List.filterMap_append.trans (List.append_nil _)
  refine ⟨hi ▸ h.le, h.left_step hstep, ?_, ?_, fun k hk => ?_, fun item' hitem' _ => ?_,
    fun k rc hk => ?_⟩
  · rw [hpl, hi, h.placed]
  · -- it has not wrapped before, or it would not wrap now
    rw [hwr, List.nodup_append]
    refine ⟨h.wrapped_nodup, List.nodup_singleton _, fun a ha b hb heq => ?_⟩
    rw [heq, List.mem_singleton.mp hb] at ha
    exact h.settled item hitem ha hw
  · rw [hwr, List.mem_append, List.mem_singleton] at hk
    rw [hi]
    rcases hk with hk | rfl
    · exact h.wrapped_le k hk
    · exact Nat.le_refl _
  · rw [hi, hitem] at hitem'
    cases hitem'
    rw [htmp, Function.update_self]
    exact not_wraps_newLine item _
  · rw [(hstep.rc hvalid).1 k (by simp [Turn.placed?])]
    rcases List.mem_append.mp hk with hk | hk
    · exact h.rc k rc hk
    · cases List.mem_singleton.mp hk

/-- **A turn in which the item is placed.** -/
theorem TurnsInv.step_placed (hvalid : ValidRela ss) (h : TurnsInv ss tr s) {rc : Rect}
    (hstep : Step ss s (.placed s.i rc) t) (hitem : ss[s.i]? = some item) (hi : t.i = s.i + 1) :
    TurnsInv ss (tr ++ [.placed s.i rc]) t := by
  have hwr : wrapped (tr ++ [.placed s.i rc]) = wrapped tr :=
    List.filterMap_append.trans (List.append_nil _)
  have hpl : Sizes2.placed (tr ++ [.placed s.i rc]) = Sizes2.placed tr ++ [s.i] :=
    List.filterMap_append
  have hlt : s.i < ss.length := (List.getElem?_eq_some_iff.mp hitem).1
  obtain ⟨hkept, hset⟩ := hstep.rc hvalid
  refine ⟨by omega, h.left_step hstep, ?_, ?_, fun k hk => ?_, fun item' _ hk => ?_,
    fun k rc hk => ?_⟩
  · rw [hpl, hi, h.placed, List.range_succ]
  · rw [hwr]
    exact h.wrapped_nodup
  · rw [hwr] at hk
    have := h.wrapped_le k hk
    omega
  · rw [hwr, hi] at hk
    have := h.wrapped_le _ hk
    omega
  · rcases List.mem_append.mp hk with hk | hk
    · -- an item that was placed before is not this one
      have hmem : k ∈ Sizes2.placed tr := List.mem_filterMap.mpr ⟨_, hk, rfl⟩
      rw [h.placed, List.mem_range] at hmem
      rw [hkept k (by simp only [Turn.placed?, ne_eq, Option.some.injEq]; omega)]
      exact h.rc k rc hk
    · exact hset k rc (List.mem_singleton.mp hk).symm

/-- **One turn.** -/
theorem TurnsInv.step (hvalid : ValidRela ss) (h : TurnsInv ss tr s) (hstep : Step ss s e t) :
    TurnsInv ss (tr ++ [e]) t := by
  obtain ⟨item, hitem, ⟨hw, rfl, hi, htmp⟩ | ⟨-, rfl, hi, -⟩⟩ := hstep.cases
  · exact h.step_again hvalid hstep hitem hw hi htmp
  · exact h.step_placed hvalid hstep hitem hi

/-- **The runs of the loop.** -/
theorem TurnsInv.run (hvalid : ValidRela ss) {parentrc : Rect}
    (hrun : Run (Step ss) (.init parentrc) tr s) : TurnsInv ss tr s :=
  hrun.invariant (TurnsInv.init ss parentrc) fun h hstep => h.step hvalid hstep

/-- The loop is a run, to the end. -/
theorem run_loop {parentrc : Rect} (hrun : Run (Step ss) (.init parentrc) tr s) :
    ∃ tr', Run (Step ss) (.init parentrc) tr' (loop ss s) ∧ ss.length ≤ (loop ss s).i := by
  fun_induction loop ss s generalizing tr with
  | case1 s hnone => exact ⟨tr, hrun, List.getElem?_eq_none_iff.mp hnone⟩
  | case2 s item hitem ih => exact ih (hrun.snoc ⟨item, hitem, rfl, rfl⟩)

/-- **The loop ends.**  No run of it has more than two turns for each item, and one that has not
placed all items can go on.  In a run no item wraps twice; the items that have been placed are those in
front of the index, one after the other and each once; and a rectangle stays as it was assigned.  What
`GetSizes` leaves behind is the end of such a run, with all items placed.

Coordinates have no bound here, and an `int` has 32 bits.  That makes no difference: nothing above
calculates with a coordinate.  All that is used of the test for a wrap is that it fails where `sel->w` is
`0`, and neither that `0` nor the index is the result of an operation on coordinates that could
overflow. -/
theorem turns_end {ss : List ItemRect} (hvalid : ValidRela ss) (parentrc : Rect) :
    (∀ tr s, Run (Step ss) (.init parentrc) tr s →
      tr.length ≤ 2 * ss.length ∧ (s.i < ss.length → ∃ e t, Step ss s e t) ∧
        (wrapped tr).Nodup ∧ placed tr = List.range s.i ∧
        ∀ k rc, Turn.placed k rc ∈ tr → (s.tmp (some k)).rc = rc) ∧
    ∃ tr s, Run (Step ss) (.init parentrc) tr s ∧ s.tmp = getSizes ss parentrc ∧
      s.i = ss.length ∧ placed tr = List.range ss.length := by
  refine ⟨fun tr s hrun => ?_, ?_⟩
  · have h := TurnsInv.run hvalid hrun
    have hleft := h.left
    exact ⟨by omega, exists_step, h.wrapped_nodup, h.placed, h.rc⟩
  · obtain ⟨tr, hrun, hend⟩ := run_loop (Run.nil : Run (Step ss) (.init parentrc) [] _)
    have h := TurnsInv.run hvalid hrun
    have hi := Nat.le_antisymm h.le hend
    exact ⟨tr, _, hrun, rfl, hi, by rw [h.placed, hi]⟩

/-- In an inverted parent too, where the field that is to take the rest gets a negative width. -/
theorem turns_end_inverted :
    ∃ tr s, Run (Step [⟨maxValue, 5, 5, ⟨0, 0, 0, 0⟩⟩, ⟨maxValue, maxValue, 5, ⟨3, 0, 4, 0⟩⟩])
      (.init ⟨10, 0, 0, 0⟩) tr s ∧ s.i = 2 ∧ placed tr = [0, 1] := by
  have hvalid : ValidRela [⟨maxValue, 5, 5, ⟨0, 0, 0, 0⟩⟩, ⟨maxValue, maxValue, 5, ⟨3, 0, 4, 0⟩⟩] := by
    rintro k j ⟨item, hitem, hcont⟩
    have hmem := List.mem_of_getElem? hitem
    revert hcont
    simp only [List.mem_cons, List.not_mem_nil, or_false] at hmem
    rcases hmem with rfl | rfl <;> exact fun hcont => by cases hcont
  obtain ⟨tr, s, hrun, -, hi, hplaced⟩ := (turns_end hvalid ⟨10, 0, 0, 0⟩).2
  exact ⟨tr, s, hrun, hi, hplaced⟩

end Sizes2
end UtilWin
