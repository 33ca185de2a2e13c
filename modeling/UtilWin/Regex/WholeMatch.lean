import UtilWin.Regex.AddTags

/-!
# The tag of the whole match

The whole match is the subexpression `0`.  Its beginning is in `regset` from the start, so the tag `0` is
put in front of the first thing that reads something, or in front of the union or the iteration in which
it is (`front_addTags`).  What is in front of the tag reads nothing, and the tag is passed once.  The end
of the match is in `regset` at the end, and gets the number behind all tags.
-/

namespace UtilWin
namespace Tre

section

variable {a left right : Ast} {sid : Option ℕ} {s : Tagging} {lo lo' id m tag : ℕ} {regset : List ℕ}
  {data : ℕ → SubmatchData}

/-! ## Where the tags of a subexpression come from -/

theorem Tagging.mem_enter : m ∈ (s.enter sid).regset ↔ m ∈ s.regset ∨ ∃ k ∈ sid, m = 2 * k := by
  cases sid <;> simp [enter]

theorem Tagging.mem_setSubmatchEnd :
    m ∈ (s.setSubmatchEnd sid).regset ↔ m ∈ s.regset ∨ ∃ k ∈ sid, m = 2 * k + 1 := by
  cases sid <;> simp [setSubmatchEnd]

/-- Where a subexpression begins stays as it is, unless it is still in `regset`. -/
def Keeps (id : ℕ) (s s' : Tagging) : Prop := 2 * id ∉ s.regset →
  2 * id ∉ s'.regset ∧ (s'.submatchData id).soTag = (s.submatchData id).soTag

theorem Keeps.trans {s s' s'' : Tagging} (h : Keeps id s s') (h' : Keeps id s' s'') :
    Keeps id s s'' := fun hm => ⟨(h' (h hm).1).1, (h' (h hm).1).2.trans (h hm).2⟩

theorem Keeps.congr {s' s'' : Tagging} (h : Keeps id s s') (hregset : s''.regset = s'.regset)
    (hdata : s''.submatchData = s'.submatchData) : Keeps id s s'' := fun hm => by
  rw [hregset, hdata]
  exact h hm

/-- The two sides of a union. -/
theorem Keeps.join {l r s' : Tagging} (hl : Keeps id s l) (hr : Keeps id (l.setRegset []) r)
    (hregset : s'.regset = l.regset ++ r.regset) (hdata : s'.submatchData = r.submatchData) :
    Keeps id s s' := by
  intro hm
  obtain ⟨hl, hsl⟩ := hl hm
  obtain ⟨hr, hsr⟩ := hr List.not_mem_nil
  rw [hregset, hdata, List.mem_append, not_or]
  exact ⟨⟨hl, hr⟩, hsr.trans hsl⟩

theorem keeps_enter (hid : id < lo) (hsid : ∀ k ∈ sid, lo ≤ k) : Keeps id s (s.enter sid) := by
  cases sid with
  | none => exact fun hm => ⟨hm, rfl⟩
  | some k =>
    have hne : id ≠ k := Nat.ne_of_lt (hid.trans_le (hsid k rfl))
    intro hm
    refine ⟨fun hc => ?_, by simp [Tagging.enter, hne]⟩
    rcases Tagging.mem_enter.mp hc with hc | ⟨k', hk', hc⟩
    · exact hm hc
    · obtain rfl : k' = k := (Option.some_inj.mp hk').symm
      omega

theorem keeps_addTag : Keeps id s s.addTag := fun hm => by
  have hdata : s.addTag.submatchData = trePurgeRegset s.regset s.tag s.submatchData := rfl
  rw [hdata, trePurgeRegset_apply, if_neg hm]
  exact ⟨List.not_mem_nil, rfl⟩

theorem keeps_addTagIf : Keeps id s s.addTagIf := by
  rw [Tagging.addTagIf]
  split
  · exact keeps_addTag
  · exact fun hm => ⟨hm, rfl⟩

theorem keeps_setSubmatchEnd : Keeps id s (s.setSubmatchEnd sid) := fun hm => by
  rw [Tagging.setSubmatchEnd_submatchData]
  refine ⟨fun hc => ?_, rfl⟩
  rcases Tagging.mem_setSubmatchEnd.mp hc with hc | ⟨k, -, hc⟩
  · exact hm hc
  · omega

/-- A part with other subexpressions in it. -/
theorem keeps_addTags (hnum : Numbered a lo) (hid : id < lo) : Keeps id s (addTags a s).2 := by
  induction a generalizing s lo with
  | literal sid leaf =>
    have henter : Keeps id s (s.enter sid) := keeps_enter hid hnum
    rw [addTags]
    split
    · exact (henter.trans keeps_addTag).trans keeps_setSubmatchEnd
    · exact henter.trans keeps_setSubmatchEnd
  | catenation sid left right ihl ihr =>
    have henter : Keeps id s (s.enter sid) := keeps_enter hid hnum.1
    have hid' := hid.trans_le (le_below hnum.1)
    have hleft := fun t n => henter.trans ((ihl (s := (s.enter sid).setTags t n) hnum.2.1 hid'))
    have hboth := fun t n t' n' => (hleft t n).trans
      (ihr (s := (addTags left ((s.enter sid).setTags t n)).2.setTags t' n') hnum.2.2 hid')
    rw [addTags]
    exact (hboth _ _ _ _).trans keeps_setSubmatchEnd
  | iteration sid arg min max ih =>
    have henter : Keeps id s (s.enter sid) := keeps_enter hid hnum.1
    have hid' := hid.trans_le (le_below hnum.1)
    have harg := (henter.trans keeps_addTagIf).trans
      (ih (s := (s.enter sid).addTagIf.setDirection .minimize) hnum.2 hid')
    exact harg.trans (keeps_setSubmatchEnd (s := Tagging.setDirection _ .maximize))
  | union sid left right ihl ihr =>
    have henter : Keeps id s (s.enter sid) := keeps_enter hid hnum.1
    have hid' := hid.trans_le (le_below hnum.1)
    rw [addTags]
    simp only
    generalize hm : decide (0 < numSubmatches (.union sid left right)) = m
    have hstart : Keeps id s ((s.enter sid).addTagIf.reserveMarkers m) :=
      (henter.trans keeps_addTagIf).congr (by cases m <;> rfl) Tagging.reserveMarkers_submatchData
    have hleft := hstart.trans (ihl hnum.2.1 hid')
    have hright := @ihr ((addTags left ((s.enter sid).addTagIf.reserveMarkers m)).2.setRegset []) _
      hnum.2.2 hid'
    refine Keeps.trans (hleft.join hright ?_ ?_) keeps_setSubmatchEnd
    · rfl
    · exact Tagging.addMarkers_submatchData

@[simp] theorem Tagging.enter_tagDirections : (s.enter sid).tagDirections = s.tagDirections := by
  cases sid <;> rfl

@[simp] theorem Tagging.setSubmatchEnd_tagDirections :
    (s.setSubmatchEnd sid).tagDirections = s.tagDirections := by
  cases sid <;> rfl

@[simp] theorem Tagging.reserveMarkers_tagDirections {m : Bool} :
    (s.reserveMarkers m).tagDirections = s.tagDirections := by
  cases m <;> rfl

theorem Tagging.addTagIf_tagDirections {k : ℕ} (h : ¬ (s.marked = true ∧ s.tag = k)) :
    s.addTagIf.tagDirections k = s.tagDirections k := by
  rw [Tagging.addTagIf]
  split
  · next hm => exact Function.update_of_ne (fun hk => h ⟨hm, hk.symm⟩) _ _
  · rfl

/-- The directions of the tags that are not put stay as they are. -/
theorem tagDirections_addTags {k : ℕ} (hk : tagCount k (addTags a s).1 = 0) :
    (addTags a s).2.tagDirections k = s.tagDirections k := by
  induction a generalizing s with
  | literal sid leaf =>
    rw [addTags] at hk ⊢
    split at hk
    · next hm =>
      rw [tagCount_treAddTagLeft] at hk
      have hne : k ≠ (s.enter sid).tag := by
        rintro rfl
        simp at hk
      simp only [hm, if_true, Tagging.setSubmatchEnd_tagDirections]
      exact (Function.update_of_ne hne _ _).trans (congrFun Tagging.enter_tagDirections k)
    · next hm =>
      simp only [hm, if_neg, Bool.false_eq_true, Tagging.setSubmatchEnd_tagDirections,
        Tagging.enter_tagDirections, not_false_eq_true]
  | catenation sid left right ihl ihr =>
    rw [addTags] at hk ⊢
    simp only [tagCount, Nat.add_eq_zero_iff] at hk
    rw [Tagging.setSubmatchEnd_tagDirections]
    exact (ihr hk.2).trans ((ihl hk.1).trans (congrFun Tagging.enter_tagDirections k))
  | iteration sid arg min max ih =>
    rw [addTags] at hk ⊢
    simp only [tagCount_addTagIf, tagCount, Nat.add_eq_zero_iff] at hk
    rw [Tagging.setSubmatchEnd_tagDirections]
    refine (ih hk.2).trans ((Tagging.addTagIf_tagDirections fun h => ?_).trans
      (congrFun Tagging.enter_tagDirections k))
    rw [if_pos h] at hk
    exact absurd hk.1 Nat.one_ne_zero
  | union sid left right ihl ihr =>
    rw [addTags] at hk ⊢
    simp only [tagCount_addTagIf, tagCount, Nat.add_eq_zero_iff] at hk
    rw [Tagging.setSubmatchEnd_tagDirections]
    have hadd : (s.enter sid).addTagIf.tagDirections k = s.tagDirections k := by
      refine (Tagging.addTagIf_tagDirections fun h => ?_).trans
        (congrFun Tagging.enter_tagDirections k)
      rw [if_pos h] at hk
      exact absurd hk.1 Nat.one_ne_zero
    obtain ⟨-, hl, hr⟩ := hk
    cases hm : decide (0 < numSubmatches (.union sid left right)) with
    | false =>
      simp only [hm, Bool.false_eq_true, if_false] at hl hr ⊢
      exact (ihr hr).trans ((ihl hl).trans hadd)
    | true =>
      simp only [hm, if_true, tagCount_treAddTagRight, Nat.add_eq_zero_iff] at hl hr ⊢
      have hne : ∀ {t : ℕ}, (if t = k then 1 else 0) = 0 → k ≠ t := by
        rintro t ht rfl
        rw [if_pos rfl] at ht
        exact absurd ht Nat.one_ne_zero
      refine (Function.update_of_ne (hne hr.2) _ _).trans ((Function.update_of_ne (hne hl.2) _ _).trans ?_)
      exact (ihr hr.1).trans ((ihl hl.1).trans hadd)

/-! ## The whole match -/

/-- Leaves at which no tag is put. -/
def Blank : Ast → Prop
  | .literal _ .empty | .literal _ (.assertion _) => True
  | .literal _ (.char _ _) | .literal _ (.backref _ _) | .literal _ (.tag _) => False
  | .catenation _ left right => Blank left ∧ Blank right
  | .iteration _ _ _ _ | .union _ _ _ => False

/-- The tag `0` is in front of everything that is read. -/
def Front : Ast → Prop
  | .literal _ (.tag id) => id = 0
  | .literal _ (.char _ _) | .literal _ (.backref _ _) | .literal _ .empty
  | .literal _ (.assertion _) => False
  | .catenation _ left right => Front left ∨ Blank left ∧ Front right
  | .iteration _ _ _ _ | .union _ _ _ => False

/-- The beginning of the match is still in `regset`. -/
structure Pending (s : Tagging) : Prop where
  regset : 0 ∈ s.regset
  tag : s.tag = 0
  nextTag : 1 ≤ s.nextTag
  direction : s.direction = .minimize

/-- The beginning of the match has got the tag `0`. -/
structure Begun (s : Tagging) : Prop where
  regset : 0 ∉ s.regset
  tag : 1 ≤ s.tag
  nextTag : 1 ≤ s.nextTag
  soTag : (s.submatchData 0).soTag = 0
  direction : s.tagDirections 0 = .minimize

theorem countTags_blank (h : Blank a) {m : Bool} : (countTags a m).1 = 0 := by
  induction a generalizing m with
  | literal _ leaf =>
    cases leaf with
    | char _ _ => exact h.elim
    | backref _ _ => exact h.elim
    | tag _ => exact h.elim
    | empty => rfl
    | assertion _ => rfl
  | catenation _ left right ihl ihr => rw [countTags, ihl h.1, ihr h.2]
  | iteration _ _ _ _ _ => exact h.elim
  | union _ _ _ _ _ => exact h.elim

theorem begun_addTags (h : Begun s) (hnum : Numbered a 1) (htagless : Tagless a) :
    Begun (addTags a s).2 := by
  have hkeep := @keeps_addTags a s 1 0 hnum Nat.one_pos h.regset
  obtain ⟨htag, hnext, hcount⟩ := @dealt_addTags a s htagless
  have htag' := h.tag
  have hnext' := h.nextTag
  have hfree : tagCount 0 (addTags a s).1 = 0 := by
    rw [hcount 0, dealt, if_neg (by omega), if_neg (by omega)]
  refine ⟨hkeep.1, ?_, ?_, hkeep.2.trans h.soTag, (tagDirections_addTags hfree).trans h.direction⟩
  · rw [htag, tagBehind]
    split_ifs <;> omega
  · rw [hnext]
    omega

theorem Pending.begun (h : Pending s) : Begun s.addTag := by
  have hdata : s.addTag.submatchData = trePurgeRegset s.regset s.tag s.submatchData := rfl
  refine ⟨List.not_mem_nil, h.nextTag, Nat.le_add_left 1 _, ?_, ?_⟩
  · rw [hdata, trePurgeRegset_apply, if_pos h.regset, h.tag]
  · simp [Tagging.addTag, h.tag, h.direction]

theorem Pending.addTagIf (h : Pending s) : s.marked = true ∧ s.addTagIf = s.addTag := by
  have hm : s.marked = true := decide_eq_true (List.ne_nil_of_mem h.regset)
  exact ⟨hm, by rw [Tagging.addTagIf, if_pos hm]⟩

theorem Pending.enter (h : Pending s) : Pending (s.enter sid) := by
  refine ⟨Tagging.mem_enter.mpr (.inl h.regset), ?_, ?_, ?_⟩
  · rw [Tagging.enter_tag, h.tag]
  · rw [Tagging.enter_nextTag]
    exact h.nextTag
  · cases sid <;> exact h.direction

theorem Pending.setSubmatchEnd (h : Pending s) : Pending (s.setSubmatchEnd sid) := by
  refine ⟨Tagging.mem_setSubmatchEnd.mpr (.inl h.regset), ?_, ?_, ?_⟩
  · rw [Tagging.setSubmatchEnd_tag, h.tag]
  · rw [Tagging.setSubmatchEnd_nextTag]
    exact h.nextTag
  · cases sid <;> exact h.direction

theorem Begun.setSubmatchEnd (h : Begun s) : Begun (s.setSubmatchEnd sid) := by
  refine ⟨fun hc => ?_, ?_, ?_, ?_, ?_⟩
  · rcases Tagging.mem_setSubmatchEnd.mp hc with hc | ⟨k, -, hc⟩
    · exact h.regset hc
    · omega
  · rw [Tagging.setSubmatchEnd_tag]
    exact h.tag
  · rw [Tagging.setSubmatchEnd_nextTag]
    exact h.nextTag
  · rw [Tagging.setSubmatchEnd_submatchData]
    exact h.soTag
  · rw [Tagging.setSubmatchEnd_tagDirections]
    exact h.direction

theorem Begun.reserveMarkers (h : Begun s) {m : Bool} : Begun (s.reserveMarkers m) := by
  cases m with
  | false => exact h
  | true => exact ⟨h.regset, Nat.le_add_left 1 _, Nat.le_add_left 1 _, h.soTag, h.direction⟩

theorem Begun.addMarkers (h : Begun s) {m : Bool} {l r : ℕ} (hl : 1 ≤ l) (hr : 1 ≤ r) :
    Begun (s.addMarkers m l r) := by
  cases m with
  | false => exact h
  | true =>
    refine ⟨h.regset, h.tag, h.nextTag, h.soTag, ?_⟩
    refine (Function.update_of_ne (by omega) _ _).trans ?_
    exact (Function.update_of_ne (by omega) _ _).trans h.direction

theorem Numbered.root (h : Numbered a lo) : ∀ k ∈ a.sid, lo ≤ k := by
  cases a with
  | literal _ _ => exact h
  | catenation _ _ _ => exact h.1
  | iteration _ _ _ _ => exact h.1
  | union _ _ _ => exact h.1

/-- **The tag `0` comes in front of everything that is read**, if the beginning of the match is in
`regset`. -/
theorem front_addTags (h : Pending (s.enter a.sid)) (hnum : Numbered a lo) (hlo : 1 ≤ below a.sid lo)
    (htagless : Tagless a) :
    Blank a ∧ (addTags a s).1 = a ∧ Pending (addTags a s).2 ∨
      Front (addTags a s).1 ∧ Begun (addTags a s).2 := by
  induction a generalizing s lo with
  | literal sid leaf =>
    obtain ⟨hm, -⟩ := h.addTagIf
    change Pending (s.enter sid) at h
    change (s.enter sid).marked = true at hm
    rw [addTags]
    simp only [hm, Bool.and_true]
    cases leaf with
    | char _ _ => exact .inr ⟨.inl h.tag, h.begun.setSubmatchEnd⟩
    | backref _ _ => exact .inr ⟨.inl h.tag, h.begun.setSubmatchEnd⟩
    | tag _ => exact htagless.elim
    | empty => exact .inl ⟨trivial, rfl, h.setSubmatchEnd⟩
    | assertion _ => exact .inl ⟨trivial, rfl, h.setSubmatchEnd⟩
  | catenation sid left right ihl ihr =>
    change Pending (s.enter sid) at h
    have hl := hnum.2.1.mono hlo
    have hr := hnum.2.2.mono hlo
    have hpend : ∀ {t : Tagging} {n : ℕ}, Pending t → 1 ≤ n → Pending (t.setTags t.tag n) :=
      fun ht hn => ⟨ht.regset, ht.tag, hn, ht.direction⟩
    rw [addTags]
    simp only
    generalize hn : (if (decide (0 < (countTags left (s.enter sid).marked).1) &&
      decide (0 < (countTags right (countTags left (s.enter sid).marked).2).1)) = true
      then (s.enter sid).nextTag + 1 else (s.enter sid).nextTag) = next
    have hnext : 1 ≤ next := by
      have h₁ := h.nextTag
      rw [← hn]
      split <;> omega
    rcases ihl (s := (s.enter sid).setTags (s.enter sid).tag next) (hpend h hnext).enter hl
      (le_below hl.root) htagless.1 with ⟨hblank, htree, hstate⟩ | ⟨hfront, hstate⟩
    · simp only [countTags_blank hblank, Nat.lt_irrefl, decide_false, Bool.false_and,
        Bool.false_eq_true, if_false, Nat.add_zero, htree]
      rcases ihr (s := (addTags left ((s.enter sid).setTags (s.enter sid).tag next)).2.setTags
          (addTags left ((s.enter sid).setTags (s.enter sid).tag next)).2.tag (s.enter sid).nextTag)
        (hpend hstate h.nextTag).enter hr (le_below hr.root) htagless.2 with
        ⟨hblank', htree', hstate'⟩ | ⟨hfront', hstate'⟩
      · exact .inl ⟨⟨hblank, hblank'⟩, by rw [htree'], hstate'.setSubmatchEnd⟩
      · exact .inr ⟨.inr ⟨hblank, hfront'⟩, hstate'.setSubmatchEnd⟩
    · refine .inr ⟨.inl hfront, (begun_addTags ?_ hr htagless.2).setSubmatchEnd⟩
      refine ⟨hstate.regset, ?_, h.nextTag.trans (Nat.le_add_right _ _), hstate.soTag,
        hstate.direction⟩
      rw [Tagging.setTags_tag]
      split
      · exact h.nextTag
      · exact hstate.tag
  | iteration sid arg min max ih =>
    obtain ⟨hm, hadd⟩ := h.addTagIf
    have hbegun := h.begun
    change (s.enter sid).marked = true at hm
    change (s.enter sid).addTagIf = (s.enter sid).addTag at hadd
    change Begun (s.enter sid).addTag at hbegun
    rw [addTags]
    simp only [hm, hadd, if_true]
    refine .inr ⟨.inl h.tag, Begun.setSubmatchEnd ?_⟩
    have harg := begun_addTags (s := (s.enter sid).addTag.setDirection .minimize)
      ⟨hbegun.regset, hbegun.tag, hbegun.nextTag, hbegun.soTag, hbegun.direction⟩
      (hnum.2.mono hlo) htagless
    exact ⟨harg.regset, harg.tag, harg.nextTag, harg.soTag, harg.direction⟩
  | union sid left right ihl ihr =>
    obtain ⟨hm, hadd⟩ := h.addTagIf
    have hbegun := h.begun
    change (s.enter sid).marked = true at hm
    change (s.enter sid).addTagIf = (s.enter sid).addTag at hadd
    change Begun (s.enter sid).addTag at hbegun
    rw [addTags]
    simp only [hm, hadd, if_true]
    refine .inr ⟨.inl h.tag, Begun.setSubmatchEnd ?_⟩
    generalize decide (0 < numSubmatches (.union sid left right)) = m
    have hleft := begun_addTags (s := (s.enter sid).addTag.reserveMarkers m) hbegun.reserveMarkers
      (hnum.2.1.mono hlo) htagless.1
    have hright := begun_addTags
      (s := (addTags left ((s.enter sid).addTag.reserveMarkers m)).2.setRegset [])
      ⟨List.not_mem_nil, hleft.tag, hleft.nextTag, hleft.soTag, hleft.direction⟩
      (hnum.2.2.mono hlo) htagless.2
    have hmark := hright.addMarkers (m := m) h.nextTag (Nat.le_add_left 1 (s.enter sid).nextTag)
    refine ⟨fun hc => ?_, hmark.tag, hmark.nextTag, hmark.soTag, hmark.direction⟩
    rcases List.mem_append.mp hc with hc | hc
    · exact hleft.regset hc
    · exact hright.regset hc

/-- The end of a subexpression is in `regset` behind it. -/
theorem end_mem_addTags {k : ℕ} (h : a.sid = some k) : 2 * k + 1 ∈ (addTags a s).2.regset := by
  have hend : ∀ {t : Tagging} {sid : Option ℕ}, sid = some k →
      2 * k + 1 ∈ (t.setSubmatchEnd sid).regset :=
    fun hsid => Tagging.mem_setSubmatchEnd.mpr (.inr ⟨k, hsid, rfl⟩)
  cases a with
  | literal sid leaf =>
    rw [addTags]
    split
    · exact hend h
    · exact hend h
  | catenation sid _ _ => exact hend h
  | iteration sid _ _ _ => exact hend h
  | union sid _ _ => exact hend h

theorem tagCount_front (h : Front a) : 0 < tagCount 0 a := by
  induction a with
  | literal _ leaf =>
    cases leaf with
    | tag id =>
      obtain rfl : id = 0 := h
      exact Nat.one_pos
    | char _ _ => exact h.elim
    | backref _ _ => exact h.elim
    | empty => exact h.elim
    | assertion _ => exact h.elim
  | catenation _ left right ihl ihr =>
    rw [tagCount]
    rcases h with h | ⟨-, h⟩
    · exact Nat.add_pos_left (ihl h) _
    · exact Nat.add_pos_right _ (ihr h)
  | iteration _ _ _ _ _ => exact h.elim
  | union _ _ _ _ _ => exact h.elim

/-- What `tre_add_tags` makes of the whole match. -/
structure WholeMatch (r : Ast × Tagging) : Prop where
  soTag : (r.2.submatchData 0).soTag = 0
  eoTag : (r.2.submatchData 0).eoTag = r.2.numTags
  front : r.2.numTags = 0 ∧ Blank r.1 ∨
    0 < r.2.numTags ∧ Front r.1 ∧ tagCount 0 r.1 = 1 ∧ r.2.tagDirections 0 = .minimize

/-- **The whole match begins at the tag `0`, and ends at the end.** -/
theorem wholeMatch_treAddTags (hroot : a.sid = some 0) (hnum : Numbered a 0) (htagless : Tagless a) :
    WholeMatch (treAddTags a) := by
  have htags : ∀ k, tagCount k (treAddTags a).1 = if k < (treAddTags a).2.numTags then 1 else 0 :=
    fun k => tagCount_treAddTags htagless
  have htag := tag_addTags_start htagless
  have hend : 1 ∈ (addTags a Tagging.start).2.regset := end_mem_addTags hroot
  have hdata : (treAddTags a).2.submatchData 0 = _ :=
    @trePurgeRegset_apply 0 _ (addTags a Tagging.start).2.regset _
  have hpend : Pending (Tagging.start.enter a.sid) := by
    rw [hroot]
    exact ⟨List.mem_singleton.mpr rfl, rfl, Nat.le_refl _, rfl⟩
  have hlo : 1 ≤ below a.sid 0 := by
    rw [hroot]
    exact Nat.le_refl _
  rcases front_addTags hpend hnum hlo htagless with ⟨hblank, htree, hstate⟩ | ⟨hfront, hstate⟩
  · have hzero : (treAddTags a).2.numTags = 0 := by
      rw [numTags_treAddTags, countTags_blank hblank]
    refine ⟨?_, ?_, .inl ⟨hzero, ?_⟩⟩
    · rw [hdata, if_pos hstate.regset, hstate.tag]
    · rw [hdata, if_pos hend, htag]
    · rw [treAddTags, htree]
      exact hblank
  · have hpos : 0 < (treAddTags a).2.numTags := by
      by_contra hzero
      have hcount := htags 0
      rw [if_neg hzero] at hcount
      exact Nat.ne_of_gt (tagCount_front hfront) hcount
    refine ⟨?_, ?_, .inr ⟨hpos, hfront, ?_, hstate.direction⟩⟩
    · rw [hdata, if_neg hstate.regset, hstate.soTag]
    · rw [hdata, if_pos hend, htag]
    · rw [htags, if_pos hpos]

end

/-! ## In the automaton -/

/-- The tag `0` is in front, and nowhere else. -/
def FrontOnly : Ast → Prop
  | .literal _ (.tag id) => id = 0
  | .literal _ (.char _ _) | .literal _ (.backref _ _) | .literal _ .empty
  | .literal _ (.assertion _) => False
  | .catenation _ left right =>
    FrontOnly left ∧ tagCount 0 right = 0 ∨ Blank left ∧ FrontOnly right
  | .iteration _ _ _ _ | .union _ _ _ => False

section

variable {a left right arg : Ast} {sid : Option ℕ} {e : Expansion} {flags : CopyFlags} {k d : ℕ}
  {acc : List ℕ × Assertions} {min : ℕ} {max : Option ℕ}

theorem tagCount_blank (h : Blank a) : tagCount k a = 0 := by
  induction a with
  | literal _ leaf =>
    cases leaf with
    | tag _ => exact h.elim
    | char _ _ => rfl
    | backref _ _ => rfl
    | empty => rfl
    | assertion _ => rfl
  | catenation _ left right ihl ihr => rw [tagCount, ihl h.1, ihr h.2]
  | iteration _ _ _ _ _ => exact h.elim
  | union _ _ _ _ _ => exact h.elim

theorem frontOnly_of_front (h : Front a) (hone : tagCount 0 a = 1) : FrontOnly a := by
  induction a with
  | literal _ leaf => cases leaf <;> exact h
  | catenation _ left right ihl ihr =>
    rw [tagCount] at hone
    rcases h with h | ⟨hblank, h⟩
    · have hpos := tagCount_front h
      exact .inl ⟨ihl h (by omega), by omega⟩
    · rw [tagCount_blank hblank, Nat.zero_add] at hone
      exact .inr ⟨hblank, ihr h hone⟩
  | iteration _ _ _ _ _ => exact h.elim
  | union _ _ _ _ _ => exact h.elim

theorem tagCount_copyAst (h : tagCount k a = 0) : tagCount k (copyAst flags d a) = 0 := by
  induction a with
  | literal _ leaf =>
    cases leaf with
    | tag id =>
      rw [copyAst, Leaf.copy]
      split
      · rfl
      · exact h
    | char _ _ => rfl
    | backref _ _ => rfl
    | empty => rfl
    | assertion _ => rfl
  | catenation _ left right ihl ihr =>
    obtain ⟨hl, hr⟩ := Nat.add_eq_zero_iff.mp h
    rw [copyAst, tagCount, ihl hl, ihr hr]
  | iteration _ arg _ _ ih => exact ih h
  | union _ left right ihl ihr =>
    obtain ⟨hl, hr⟩ := Nat.add_eq_zero_iff.mp h
    rw [copyAst, tagCount, ihl hl, ihr hr]

/-- No tag is made up when a tree is expanded. -/
theorem tagCount_expandAst (h : tagCount k a = 0) : tagCount k (expandAst a e).1 = 0 := by
  induction a generalizing e with
  | literal _ leaf =>
    cases leaf with
    | tag id => exact h
    | char _ _ => rfl
    | backref _ _ => rfl
    | empty => rfl
    | assertion _ => rfl
  | catenation _ left right ihl ihr =>
    obtain ⟨hl, hr⟩ := Nat.add_eq_zero_iff.mp h
    rw [expandAst, tagCount, ihl hl, ihr hr]
  | union _ left right ihl ihr =>
    obtain ⟨hl, hr⟩ := Nat.add_eq_zero_iff.mp h
    rw [expandAst, tagCount, ihl hl, ihr hr]
  | iteration sid arg min max ih =>
    simp only [expandAst, afterIter]
    split
    · refine unroll_induction (P := fun a => tagCount k a = 0) (fun _ _ => tagCount_copyAst (ih h))
        (fun _ _ h₁ h₂ => ?_) (fun _ h => ?_) (fun _ h => h) (fun _ h => ?_) ‹_›
      · rw [tagCount, h₁, h₂]
      · rw [tagCount, h]
        rfl
      · rwa [tagCount_withSid]
    · exact ih h

theorem firstTag_ne (h : tagCount k a = 0) : firstTag a ≠ some k := by
  induction a with
  | literal _ leaf =>
    cases leaf with
    | tag id =>
      intro hid
      obtain rfl : id = k := Option.some_inj.mp hid
      simp [tagCount] at h
    | char _ _ => exact (Option.some_ne_none k).symm
    | backref _ _ => exact (Option.some_ne_none k).symm
    | empty => exact (Option.some_ne_none k).symm
    | assertion _ => exact (Option.some_ne_none k).symm
  | catenation _ left right ihl ihr =>
    obtain ⟨hl, hr⟩ := Nat.add_eq_zero_iff.mp h
    rw [firstTag, Ne, Option.or_eq_some_iff]
    exact fun hc => hc.elim (ihl hl) fun hc => ihr hr hc.2
  | iteration _ _ _ _ ih => exact ih h
  | union _ left right ihl ihr =>
    obtain ⟨hl, hr⟩ := Nat.add_eq_zero_iff.mp h
    rw [firstTag, Ne, Option.or_eq_some_iff]
    exact fun hc => hc.elim (ihl hl) fun hc => ihr hr hc.2

section

variable {seq : Option Ast} {c : Copying} {n : ℕ}

/-- Only the direction of a tag that is copied changes. -/
theorem direction_treCopyAst (h : tagCount k a = 0) :
    (treCopyAst flags a c).2.tagDirections k = c.tagDirections k := by
  rw [treCopyAst]
  dsimp only
  split
  · cases hid : firstTag a with
    | none => rfl
    | some id =>
      refine Function.update_of_ne (fun hk => firstTag_ne h ?_) _ _
      rw [hid, hk]
  · rfl

theorem direction_required (h : tagCount k a = 0) :
    (required a n seq c).2.tagDirections k = c.tagDirections k := by
  induction n generalizing seq c with
  | zero => rfl
  | succ n ih => exact ih.trans (direction_treCopyAst h)

theorem direction_optional (h : tagCount k a = 0) :
    (optional a n seq c).2.tagDirections k = c.tagDirections k := by
  induction n generalizing seq c with
  | zero => rfl
  | succ n ih => exact ih.trans (direction_treCopyAst h)

theorem direction_behind (h : tagCount k a = 0) :
    (behind a min c max).2.tagDirections k = c.tagDirections k := by
  cases max with
  | none => exact direction_treCopyAst h
  | some m => exact direction_optional h

/-- The direction of a tag that is not in the tree stays when the tree is expanded. -/
theorem direction_expandAst (h : tagCount k a = 0) :
    (expandAst a e).2.tagDirections k = e.tagDirections k := by
  induction a generalizing e with
  | literal _ _ => rfl
  | catenation _ left right ihl ihr =>
    obtain ⟨hl, hr⟩ := Nat.add_eq_zero_iff.mp h
    exact (ihr hr).trans (ihl hl)
  | union _ left right ihl ihr =>
    obtain ⟨hl, hr⟩ := Nat.add_eq_zero_iff.mp h
    exact (ihr hr).trans (ihl hl)
  | iteration sid arg min max ih =>
    simp only [expandAst, afterIter]
    split
    · rw [unroll]
      simp only [direction_behind (tagCount_expandAst (a := arg) h),
        direction_required (tagCount_expandAst (a := arg) h)]
      exact ih h
    · exact ih h

end

theorem direction_frontOnly (h : FrontOnly a) :
    (expandAst a e).2.tagDirections 0 = e.tagDirections 0 := by
  induction a generalizing e with
  | literal _ _ => rfl
  | catenation _ left right ihl ihr =>
    rcases h with ⟨hl, hr⟩ | ⟨hblank, hr⟩
    · exact (direction_expandAst hr).trans (ihl hl)
    · exact (ihr hr).trans (direction_expandAst (tagCount_blank hblank))
  | iteration _ _ _ _ _ => exact h.elim
  | union _ _ _ _ _ => exact h.elim

theorem blank_expandAst (h : Blank a) : Blank (expandAst a e).1 := by
  induction a generalizing e with
  | literal _ leaf => cases leaf <;> exact h
  | catenation _ left right ihl ihr => exact ⟨ihl h.1, ihr h.2⟩
  | iteration _ _ _ _ _ => exact h.elim
  | union _ _ _ _ _ => exact h.elim

theorem frontOnly_expandAst (h : FrontOnly a) : FrontOnly (expandAst a e).1 := by
  induction a generalizing e with
  | literal _ leaf => cases leaf <;> exact h
  | catenation _ left right ihl ihr =>
    exact h.imp (fun h => ⟨ihl h.1, tagCount_expandAst h.2⟩)
      fun h => ⟨blank_expandAst h.1, ihr h.2⟩
  | iteration _ _ _ _ _ => exact h.elim
  | union _ _ _ _ _ => exact h.elim

/-! ### Where the tag is not -/

theorem mem_treMatchEmpty (h : k ∈ acc.1) : k ∈ (treMatchEmpty a acc).1 := by
  induction a generalizing acc with
  | literal _ leaf =>
    cases leaf with
    | tag id =>
      rw [treMatchEmpty]
      split
      · exact h
      · exact List.mem_append_left _ h
    | char _ _ => exact h
    | backref _ _ => exact h
    | empty => exact h
    | assertion _ => exact h
  | catenation _ left right ihl ihr => exact ihl (ihr h)
  | iteration _ arg _ _ ih =>
    rw [treMatchEmpty]
    split
    · exact ih h
    · exact h
  | union _ left right ihl ihr =>
    rw [treMatchEmpty]
    split
    · exact ihl h
    · exact ihr h

theorem notMem_treMatchEmpty (h : tagCount k a = 0) (hacc : k ∉ acc.1) :
    k ∉ (treMatchEmpty a acc).1 := by
  induction a generalizing acc with
  | literal _ leaf =>
    cases leaf with
    | tag id =>
      have hne : k ≠ id := by
        rintro rfl
        simp [tagCount] at h
      rw [treMatchEmpty]
      split
      · exact hacc
      · simpa [hne] using hacc
    | char _ _ => exact hacc
    | backref _ _ => exact hacc
    | empty => exact hacc
    | assertion _ => exact hacc
  | catenation _ left right ihl ihr =>
    obtain ⟨hl, hr⟩ := Nat.add_eq_zero_iff.mp h
    exact ihl hl (ihr hr hacc)
  | iteration _ arg _ _ ih =>
    rw [treMatchEmpty]
    split
    · exact ih h hacc
    · exact hacc
  | union _ left right ihl ihr =>
    obtain ⟨hl, hr⟩ := Nat.add_eq_zero_iff.mp h
    rw [treMatchEmpty]
    split
    · exact ihl hl hacc
    · exact ihr hr hacc

theorem notMem_emptyPath (h : tagCount k a = 0) : k ∉ (emptyPath a).1 :=
  notMem_treMatchEmpty h List.not_mem_nil

theorem notMem_treSetUnion {s1 s2 : List PosAndTags} {tags : List ℕ} {as : Assertions}
    (h₁ : ∀ x ∈ s1, k ∉ x.tags) (htags : k ∉ tags) (h₂ : ∀ x ∈ s2, k ∉ x.tags) :
    ∀ x ∈ treSetUnion s1 s2 tags as, k ∉ x.tags := by
  intro x hx
  rcases position_of_mem_union hx with ⟨y, hy, rfl⟩ | hx
  · exact fun hk => (List.mem_append.mp hk).elim (h₁ y hy) htags
  · exact h₂ x hx

theorem notMem_firstpos (h : tagCount k a = 0) : ∀ x ∈ firstpos a, k ∉ x.tags := by
  induction a with
  | literal _ leaf => cases leaf <;> simp [firstpos, treSetOne]
  | union _ left right ihl ihr =>
    obtain ⟨hl, hr⟩ := Nat.add_eq_zero_iff.mp h
    exact notMem_treSetUnion (ihl hl) List.not_mem_nil (ihr hr)
  | catenation _ left right ihl ihr =>
    obtain ⟨hl, hr⟩ := Nat.add_eq_zero_iff.mp h
    rw [firstpos]
    split
    · exact notMem_treSetUnion (ihr hr) (notMem_emptyPath hl) (ihl hl)
    · exact ihl hl
  | iteration _ arg _ _ ih => exact ih h

theorem notMem_lastpos (h : tagCount k a = 0) : ∀ x ∈ lastpos a, k ∉ x.tags := by
  induction a with
  | literal _ leaf => cases leaf <;> simp [lastpos, treSetOne]
  | union _ left right ihl ihr =>
    obtain ⟨hl, hr⟩ := Nat.add_eq_zero_iff.mp h
    exact notMem_treSetUnion (ihl hl) List.not_mem_nil (ihr hr)
  | catenation _ left right ihl ihr =>
    obtain ⟨hl, hr⟩ := Nat.add_eq_zero_iff.mp h
    rw [lastpos]
    split
    · exact notMem_treSetUnion (ihl hl) (notMem_emptyPath hr) (ihr hr)
    · exact ihr hr
  | iteration _ arg _ _ ih => exact ih h

theorem notMem_treMakeTrans {s1 s2 : List PosAndTags} (h₁ : ∀ x ∈ s1, k ∉ x.tags)
    (h₂ : ∀ x ∈ s2, k ∉ x.tags) : ∀ t ∈ treMakeTrans s1 s2, k ∉ t.2.tags := by
  rintro ⟨p, tr⟩ ht
  obtain ⟨x, hx, y, hy, -, rfl⟩ := mem_treMakeTrans.mp ht
  intro hk
  rcases List.mem_append.mp hk with hk | hk
  · exact h₁ x hx hk
  · exact h₂ y (unhandled_sublist.mem hy) (List.mem_of_mem_filter hk)

theorem notMem_treAstToTnfa (h : tagCount k a = 0) : ∀ t ∈ treAstToTnfa a, k ∉ t.2.tags := by
  rw [treAstToTnfa]
  induction a with
  | literal _ _ => exact fun t ht => absurd ht List.not_mem_nil
  | union _ left right ihl ihr =>
    obtain ⟨hl, hr⟩ := Nat.add_eq_zero_iff.mp h
    exact fun t ht => (List.mem_append.mp ht).elim (ihl hl t) (ihr hr t)
  | catenation _ left right ihl ihr =>
    obtain ⟨hl, hr⟩ := Nat.add_eq_zero_iff.mp h
    intro t ht
    rcases List.mem_append.mp ht with ht | ht
    · exact notMem_treMakeTrans (notMem_lastpos hl) (notMem_firstpos hr) t ht
    · exact (List.mem_append.mp ht).elim (ihl hl t) (ihr hr t)
  | iteration _ arg _ max ih =>
    intro t ht
    rcases List.mem_append.mp ht with ht | ht
    · split at ht
      · exact notMem_treMakeTrans (notMem_lastpos h) (notMem_firstpos h) t ht
      · exact absurd ht List.not_mem_nil
    · exact ih h t ht

/-! ### Where the tag is -/

theorem Blank.empty (h : Blank a) : nullable a = true ∧ firstpos a = [] ∧ lastpos a = [] ∧
    treAstToTnfa a = [] := by
  rw [treAstToTnfa]
  induction a with
  | literal _ leaf =>
    cases leaf with
    | tag _ => exact h.elim
    | char _ _ => exact h.elim
    | backref _ _ => exact h.elim
    | empty => exact ⟨rfl, rfl, rfl, rfl⟩
    | assertion _ => exact ⟨rfl, rfl, rfl, rfl⟩
  | catenation _ left right ihl ihr =>
    obtain ⟨hl₁, hl₂, hl₃, hl₄⟩ := ihl h.1
    obtain ⟨hr₁, hr₂, hr₃, hr₄⟩ := ihr h.2
    simp [nullable, firstpos, lastpos, treAstToTnfaWith, treSetUnion, treMakeTrans, hl₁, hl₂, hl₃,
      hl₄, hr₁, hr₂, hr₃, hr₄]
  | iteration _ _ _ _ _ => exact h.elim
  | union _ _ _ _ _ => exact h.elim

theorem FrontOnly.mem_treMatchEmpty (h : FrontOnly a) : 0 ∈ (treMatchEmpty a acc).1 := by
  induction a generalizing acc with
  | literal _ leaf =>
    cases leaf with
    | tag id =>
      obtain rfl : id = 0 := h
      rw [treMatchEmpty]
      split
      · assumption
      · exact List.mem_append_right _ List.mem_cons_self
    | char _ _ => exact h.elim
    | backref _ _ => exact h.elim
    | empty => exact h.elim
    | assertion _ => exact h.elim
  | catenation _ left right ihl ihr =>
    rw [treMatchEmpty]
    rcases h with h | h
    · exact ihl h.1
    · exact Tre.mem_treMatchEmpty (ihr h.2)
  | iteration _ _ _ _ _ => exact h.elim
  | union _ _ _ _ _ => exact h.elim

/-- Every match begins with the tag. -/
theorem FrontOnly.mem_firstpos (h : FrontOnly a) : ∀ x ∈ firstpos a, 0 ∈ x.tags := by
  induction a with
  | literal _ leaf => cases leaf <;> first | exact h.elim | simp [firstpos]
  | catenation _ left right ihl ihr =>
    rw [firstpos]
    rcases h with ⟨hl, -⟩ | ⟨hl, hr⟩
    · split
      · intro x hx
        rcases position_of_mem_union hx with ⟨y, -, rfl⟩ | hx
        · exact List.mem_append_right _ hl.mem_treMatchEmpty
        · exact ihl hl x hx
      · exact ihl hl
    · obtain ⟨hnull, hfirst, -⟩ := hl.empty
      rw [if_pos hnull, hfirst]
      intro x hx
      rcases position_of_mem_union hx with ⟨y, hy, rfl⟩ | hx
      · exact List.mem_append_left _ (ihr hr y hy)
      · exact absurd hx List.not_mem_nil
  | iteration _ _ _ _ _ => exact h.elim
  | union _ _ _ _ _ => exact h.elim

theorem FrontOnly.notMem_lastpos (h : FrontOnly a) : ∀ x ∈ lastpos a, 0 ∉ x.tags := by
  induction a with
  | literal _ leaf => cases leaf <;> first | exact h.elim | simp [lastpos]
  | catenation _ left right ihl ihr =>
    rw [lastpos]
    rcases h with ⟨hl, hr⟩ | ⟨hl, hr⟩
    · split
      · exact notMem_treSetUnion (ihl hl) (notMem_emptyPath hr) (Tre.notMem_lastpos hr)
      · exact Tre.notMem_lastpos hr
    · obtain ⟨-, -, hlast, -⟩ := hl.empty
      rw [hlast]
      split
      · intro x hx
        exact ihr hr x hx
      · exact ihr hr
  | iteration _ _ _ _ _ => exact h.elim
  | union _ _ _ _ _ => exact h.elim

/-- It is not passed again. -/
theorem FrontOnly.notMem_treAstToTnfa (h : FrontOnly a) : ∀ t ∈ treAstToTnfa a, 0 ∉ t.2.tags := by
  induction a with
  | literal _ _ => exact fun t ht => absurd ht List.not_mem_nil
  | catenation _ left right ihl ihr =>
    intro t ht
    rcases h with ⟨hl, hr⟩ | ⟨hl, hr⟩
    · rcases List.mem_append.mp ht with ht | ht
      · exact notMem_treMakeTrans hl.notMem_lastpos (notMem_firstpos hr) t ht
      · exact (List.mem_append.mp ht).elim (ihl hl t) (Tre.notMem_treAstToTnfa hr t)
    · obtain ⟨-, -, hlast, htrans⟩ := hl.empty
      rcases List.mem_append.mp ht with ht | ht
      · rw [hlast] at ht
        exact absurd ht List.not_mem_nil
      · rcases List.mem_append.mp ht with ht | ht
        · have hnil : treAstToTnfaWith treMakeTrans left = [] := htrans
          rw [hnil] at ht
          exact absurd ht List.not_mem_nil
        · exact ihr hr t ht
  | iteration _ _ _ _ _ => exact h.elim
  | union _ _ _ _ _ => exact h.elim

/-- The automaton puts the tag `0` where a match begins, and leaves it there. -/
theorem frontOnly_compile {position : ℕ} {dirs : ℕ → TagDirection} (h : FrontOnly a) :
    (∀ i ∈ (compile a position dirs).initial, 0 ∈ i.tags) ∧
      ∀ q, ∀ tr ∈ (compile a position dirs).transitions q, 0 ∉ tr.tags := by
  have htree : FrontOnly (.catenation none (treExpandAst a position dirs).1
      (.literal none (.char (treExpandAst a position dirs).2.1 ⟨0, 0, none, []⟩))) :=
    .inl ⟨frontOnly_expandAst h, rfl⟩
  constructor
  · intro i hi
    obtain ⟨x, hx, rfl⟩ := List.mem_map.mp hi
    exact htree.mem_firstpos x hx
  · intro q tr htr
    exact htree.notMem_treAstToTnfa _ (mem_transitions.mp htr)

/-- A tag that is not in the tree is not in the automaton. -/
theorem notMem_compile {position : ℕ} {dirs : ℕ → TagDirection} (h : tagCount k a = 0) :
    (∀ i ∈ (compile a position dirs).initial, k ∉ i.tags) ∧
      ∀ q, ∀ tr ∈ (compile a position dirs).transitions q, k ∉ tr.tags := by
  have htree : tagCount k (.catenation none (treExpandAst a position dirs).1
      (.literal none (.char (treExpandAst a position dirs).2.1 ⟨0, 0, none, []⟩))) = 0 :=
    Nat.add_eq_zero_iff.mpr ⟨tagCount_expandAst h, rfl⟩
  constructor
  · intro i hi
    obtain ⟨x, hx, rfl⟩ := List.mem_map.mp hi
    exact notMem_firstpos htree x hx
  · intro q tr htr
    exact notMem_treAstToTnfa htree _ (mem_transitions.mp htr)

end

end Tre
end UtilWin
