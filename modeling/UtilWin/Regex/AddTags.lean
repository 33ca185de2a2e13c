import UtilWin.Regex.Compiled

/-!
# Tags in the tree

`tre_add_tags` puts tags into the tree, so that the matcher notes where it has passed them.  A tag is put
in front of what reads something if a subexpression begins or ends there: the marks of the subexpressions
that have begun or ended since the last tag are in `regset`, and they get this tag.  What is left at the end
gets the number behind the last tag, which stands for the end of the match.

It runs twice over the tree.  The first time only counts, so that the tables can be allocated, and so that
the numbers for the left side of a catenation are known before its right side is reached.  The second time
puts as many tags as the first has counted, and each number up to that is put once
(`treAddTags_tags`).  What is recorded as the parents of a submatch is what is around it in the tree
(`parents_submatchData`).  A tag reads nothing and asserts nothing, so the tree spans the same as before
(`WithTags.span`), and stays as the compiler needs it (`WithTags.compilable`).

The stack of the source, which holds what is still to be done, is a recursion.  The minimal tags, which no
pattern of this parser has, and running out of memory are left out.
-/

namespace UtilWin
namespace Tre

/-- `tre_submatch_data_t`. -/
structure SubmatchData where
  soTag : ℕ
  eoTag : ℕ
  parents : List ℕ
  deriving DecidableEq

/-- `num_submatches`: how many nodes of the tree have a `submatch_id`. -/
def numSubmatches : Ast → ℕ
  | .literal sid _ => sid.toList.length
  | .catenation sid left right => numSubmatches left + numSubmatches right + sid.toList.length
  | .iteration sid arg _ _ => numSubmatches arg + sid.toList.length
  | .union sid left right => numSubmatches left + numSubmatches right + sid.toList.length

/-- `!IS_SPECIAL(lit) || IS_BACKREF(lit)`. -/
def Leaf.isTagged : Leaf → Bool
  | char _ _ => true
  | backref _ _ => true
  | empty => false
  | assertion _ => false
  | tag _ => false

/-- `tre_add_tag_left`. -/
def treAddTagLeft (node : Ast) (tagId : ℕ) : Ast :=
  .catenation node.sid (.literal none (.tag tagId)) (node.withSid none)

/-- `tre_add_tag_right`. -/
def treAddTagRight (node : Ast) (tagId : ℕ) : Ast :=
  .catenation node.sid (node.withSid none) (.literal none (.tag tagId))

/-! ## The first pass -/

/-- The first pass of `tre_add_tags`: `num_tags` of a node, and whether there is something in `regset`
behind it, if there is something in front of it or not. -/
def countTags : Ast → Bool → ℕ × Bool
  | .literal sid leaf, marked =>
    let marked := marked || sid.isSome
    let adds := leaf.isTagged && marked
    (if adds then 1 else 0, (marked && !adds) || sid.isSome)
  | .catenation sid left right, marked =>
    let l := countTags left (marked || sid.isSome)
    let r := countTags right l.2
    (l.1 + r.1, r.2 || sid.isSome)
  | .iteration sid arg _ _, marked =>
    let a := countTags arg false
    (a.1 + if marked || sid.isSome then 1 else 0, a.2 || sid.isSome)
  | .union sid left right, marked =>
    let l := countTags left false
    let r := countTags right false
    (l.1 + r.1 + (if marked || sid.isSome then 1 else 0) +
      (if 0 < numSubmatches (.union sid left right) then 2 else 0), l.2 || r.2 || sid.isSome)

/-! ## The second pass -/

/-- The variables of `tre_add_tags`, and the tables it fills.  Of `regset` it is the visible part; the mark
of the beginning of a subexpression is twice its number, that of its end is one more. -/
structure Tagging where
  regset : List ℕ
  parents : List ℕ
  tag : ℕ
  nextTag : ℕ
  numTags : ℕ
  direction : TagDirection
  submatchData : ℕ → SubmatchData
  tagDirections : ℕ → TagDirection

/-- A tag for a mark. -/
def SubmatchData.mark (d : SubmatchData) (m tag : ℕ) : SubmatchData :=
  if m % 2 = 0 then { d with soTag := tag } else { d with eoTag := tag }

/-- `tre_purge_regset`, which leaves `regset` empty. -/
def trePurgeRegset (regset : List ℕ) (tag : ℕ) (data : ℕ → SubmatchData) : ℕ → SubmatchData :=
  regset.foldl (fun data m => Function.update data (m / 2) ((data (m / 2)).mark m tag)) data

namespace Tagging

variable (s : Tagging)

/-- Whether there is something in `regset`. -/
def marked : Bool := s.regset ≠ []

/-- The next tags. -/
def setTags (tag nextTag : ℕ) : Tagging := { s with tag := tag, nextTag := nextTag }

def setDirection (direction : TagDirection) : Tagging := { s with direction := direction }

def setRegset (regset : List ℕ) : Tagging := { s with regset := regset }

/-- What is done first for a node with a `submatch_id`. -/
def enter (sid : Option ℕ) : Tagging :=
  sid.elim s fun id =>
    { s with
      regset := s.regset ++ [2 * id]
      parents := s.parents ++ [id]
      submatchData := Function.update s.submatchData id
        { s.submatchData id with parents := s.parents } }

/-- `ADDTAGS_SET_SUBMATCH_END`. -/
def setSubmatchEnd (sid : Option ℕ) : Tagging :=
  sid.elim s fun id => { s with regset := s.regset ++ [2 * id + 1], parents := s.parents.dropLast }

/-- A tag has been added. -/
def addTag : Tagging :=
  { s with
    regset := []
    tag := s.nextTag
    nextTag := s.nextTag + 1
    numTags := s.numTags + 1
    submatchData := trePurgeRegset s.regset s.tag s.submatchData
    tagDirections := Function.update s.tagDirections s.tag s.direction }

/-- The tag in front of an iteration or a union, if there is something in `regset`. -/
def addTagIf : Tagging := if s.marked then s.addTag else s

/-- The tags behind the two sides of a union are kept back. -/
def reserveMarkers (markers : Bool) : Tagging :=
  if markers then s.setTags (s.nextTag + 1) (s.nextTag + 2) else s

/-- The tags behind the two sides of a union. -/
def addMarkers (markers : Bool) (tagLeft tagRight : ℕ) : Tagging :=
  if markers then
    { s with
      numTags := s.numTags + 2
      tagDirections := Function.update (Function.update s.tagDirections tagLeft .maximize) tagRight
        .maximize }
  else s

end Tagging

/-- The second pass of `tre_add_tags`. -/
def addTags : Ast → Tagging → Ast × Tagging
  | .literal sid leaf, s =>
    let s := s.enter sid
    if leaf.isTagged && s.marked then
      (treAddTagLeft (.literal sid leaf) s.tag, s.addTag.setSubmatchEnd sid)
    else (.literal sid leaf, s.setSubmatchEnd sid)
  | .catenation sid left right, s =>
    let s := s.enter sid
    let countLeft := countTags left s.marked
    -- if there are tags on both sides, the next tag is kept back for the right one
    let reserved : Bool := 0 < countLeft.1 && 0 < (countTags right countLeft.2).1
    let l := addTags left (s.setTags s.tag (if reserved then s.nextTag + 1 else s.nextTag))
    let r := addTags right
      (l.2.setTags (if reserved then s.nextTag else l.2.tag) (s.nextTag + countLeft.1))
    (.catenation sid l.1 r.1, r.2.setSubmatchEnd sid)
  | .iteration sid arg min max, s =>
    let s := s.enter sid
    let a := addTags arg (s.addTagIf.setDirection .minimize)
    let node : Ast := .iteration sid a.1 min max
    (if s.marked then treAddTagLeft node s.tag else node,
      (a.2.setDirection .maximize).setSubmatchEnd sid)
  | .union sid left right, s =>
    let s := s.enter sid
    let tagLeft := if s.marked then s.nextTag else s.tag
    let tagRight := if s.marked then s.nextTag + 1 else s.nextTag
    let markers : Bool := 0 < numSubmatches (.union sid left right)
    let l := addTags left (s.addTagIf.reserveMarkers markers)
    -- what the left side leaves in `regset` is not visible on the right side
    let r := addTags right (l.2.setRegset [])
    let node : Ast :=
      .union sid (if markers then treAddTagRight l.1 tagLeft else l.1)
        (if markers then treAddTagRight r.1 tagRight else r.1)
    (if s.marked then treAddTagLeft node s.tag else node,
      (((r.2.addMarkers markers tagLeft tagRight).setRegset
        (l.2.regset ++ r.2.regset)).setDirection .maximize).setSubmatchEnd sid)

/-- The state at the start. -/
def Tagging.start : Tagging where
  regset := []
  parents := []
  tag := 0
  nextTag := 1
  numTags := 0
  direction := .minimize
  submatchData := fun _ => ⟨0, 0, []⟩
  tagDirections := fun _ => .maximize

/-- `tre_add_tags`: the tree and, of the `tre_tnfa_t`, `num_tags`, `submatch_data` and `tag_directions`.
The `end_tag` is `num_tags`.  A direction that has not been set is not `TRE_TAG_MINIMIZE`. -/
def treAddTags (tree : Ast) : Ast × Tagging :=
  let r := addTags tree Tagging.start
  (r.1, { r.2 with
    regset := []
    submatchData := trePurgeRegset r.2.regset r.2.tag r.2.submatchData })

/-! ## How many tags there are -/

/-- How often a tag is in the tree. -/
def tagCount (k : ℕ) : Ast → ℕ
  | .literal _ (.tag id) => if id = k then 1 else 0
  | .literal _ (.char _ _) | .literal _ (.backref _ _) | .literal _ .empty
  | .literal _ (.assertion _) => 0
  | .catenation _ left right => tagCount k left + tagCount k right
  | .iteration _ arg _ _ => tagCount k arg
  | .union _ left right => tagCount k left + tagCount k right

/-- There are no tags in the tree. -/
def Tagless : Ast → Prop
  | .literal _ (.tag _) => False
  | .literal _ (.char _ _) | .literal _ (.backref _ _) | .literal _ .empty
  | .literal _ (.assertion _) => True
  | .catenation _ left right => Tagless left ∧ Tagless right
  | .iteration _ arg _ _ => Tagless arg
  | .union _ left right => Tagless left ∧ Tagless right

section

variable {a left right : Ast} {sid : Option ℕ} {s : Tagging} {k tagId : ℕ} {r : Ast × Tagging}

@[simp] theorem tagCount_withSid : tagCount k (a.withSid sid) = tagCount k a := by
  cases a with
  | literal _ leaf => cases leaf <;> rfl
  | catenation _ _ _ => rfl
  | iteration _ _ _ _ => rfl
  | union _ _ _ => rfl

@[simp] theorem tagCount_treAddTagLeft :
    tagCount k (treAddTagLeft a tagId) = (if tagId = k then 1 else 0) + tagCount k a := by
  simp [treAddTagLeft, tagCount]

@[simp] theorem tagCount_treAddTagRight :
    tagCount k (treAddTagRight a tagId) = tagCount k a + if tagId = k then 1 else 0 := by
  simp [treAddTagRight, tagCount]

namespace Tagging

@[simp] theorem enter_tag : (s.enter sid).tag = s.tag := by cases sid <;> rfl
@[simp] theorem enter_nextTag : (s.enter sid).nextTag = s.nextTag := by cases sid <;> rfl
@[simp] theorem enter_numTags : (s.enter sid).numTags = s.numTags := by cases sid <;> rfl
@[simp] theorem setSubmatchEnd_tag : (s.setSubmatchEnd sid).tag = s.tag := by cases sid <;> rfl

@[simp] theorem setSubmatchEnd_nextTag : (s.setSubmatchEnd sid).nextTag = s.nextTag := by
  cases sid <;> rfl

@[simp] theorem setSubmatchEnd_numTags : (s.setSubmatchEnd sid).numTags = s.numTags := by
  cases sid <;> rfl

@[simp] theorem setTags_tag {t n : ℕ} : (s.setTags t n).tag = t := rfl
@[simp] theorem setTags_nextTag {t n : ℕ} : (s.setTags t n).nextTag = n := rfl
@[simp] theorem marked_setTags {t n : ℕ} : (s.setTags t n).marked = s.marked := rfl
@[simp] theorem setDirection_tag {d : TagDirection} : (s.setDirection d).tag = s.tag := rfl
@[simp] theorem setDirection_nextTag {d : TagDirection} : (s.setDirection d).nextTag = s.nextTag := rfl
@[simp] theorem marked_setDirection {d : TagDirection} : (s.setDirection d).marked = s.marked := rfl
@[simp] theorem setRegset_tag {l : List ℕ} : (s.setRegset l).tag = s.tag := rfl
@[simp] theorem setRegset_nextTag {l : List ℕ} : (s.setRegset l).nextTag = s.nextTag := rfl
@[simp] theorem marked_setRegset_nil : (s.setRegset []).marked = false := rfl

theorem marked_setRegset_append {l r : Tagging} :
    (s.setRegset (l.regset ++ r.regset)).marked = (l.marked || r.marked) := by
  simp only [marked, setRegset, ne_eq, List.append_eq_nil_iff, not_and_or, Bool.decide_or]

@[simp] theorem setTags_numTags {t n : ℕ} : (s.setTags t n).numTags = s.numTags := rfl

@[simp] theorem setDirection_numTags {d : TagDirection} : (s.setDirection d).numTags = s.numTags := rfl

@[simp] theorem setRegset_numTags {l : List ℕ} : (s.setRegset l).numTags = s.numTags := rfl

@[simp] theorem addTagIf_numTags : s.addTagIf.numTags = s.numTags + if s.marked then 1 else 0 := by
  rw [addTagIf]
  split <;> rfl

@[simp] theorem reserveMarkers_numTags {m : Bool} : (s.reserveMarkers m).numTags = s.numTags := by
  cases m <;> rfl

@[simp] theorem addMarkers_numTags {m : Bool} {l r : ℕ} :
    (s.addMarkers m l r).numTags = s.numTags + if m then 2 else 0 := by
  cases m <;> rfl

@[simp] theorem addMarkers_tag {m : Bool} {l r : ℕ} : (s.addMarkers m l r).tag = s.tag := by
  cases m <;> rfl

@[simp] theorem addMarkers_nextTag {m : Bool} {l r : ℕ} :
    (s.addMarkers m l r).nextTag = s.nextTag := by
  cases m <;> rfl

@[simp] theorem marked_reserveMarkers {m : Bool} : (s.reserveMarkers m).marked = s.marked := by
  cases m <;> rfl

@[simp] theorem marked_enter : (s.enter sid).marked = (s.marked || sid.isSome) := by
  cases sid with
  | none => exact (Bool.or_false _).symm
  | some id => simp [enter, marked]

@[simp] theorem marked_setSubmatchEnd : (s.setSubmatchEnd sid).marked = (s.marked || sid.isSome) := by
  cases sid with
  | none => exact (Bool.or_false _).symm
  | some id => simp [setSubmatchEnd, marked]

end Tagging

/-- How often a tag is put: `n` tags are the current one, and then those from `next` on. -/
def dealt (tag next n k : ℕ) : ℕ :=
  (if 0 < n ∧ k = tag then 1 else 0) + if next ≤ k ∧ k + 1 < next + n then 1 else 0

/-- The current tag behind `n` tags. -/
def tagBehind (tag next n : ℕ) : ℕ := if n = 0 then tag else next + n - 1

/-- The tags of one part, and then those of another one. -/
theorem dealt_append {tag next m n : ℕ} :
    dealt tag next m k + dealt (tagBehind tag next m) (next + m) n k = dealt tag next (m + n) k := by
  simp only [dealt, tagBehind]
  split_ifs <;> omega

theorem tagBehind_append {tag next m n : ℕ} :
    tagBehind (tagBehind tag next m) (next + m) n = tagBehind tag next (m + n) := by
  simp only [tagBehind]
  split_ifs <;> omega

/-- `n` tags are put, from the current tag and the next one on. -/
structure Dealt (tag next n : ℕ) (count : ℕ → ℕ) (tag' next' : ℕ) : Prop where
  tag_eq : tag' = tagBehind tag next n
  next_eq : next' = next + n
  count_eq : ∀ k, count k = dealt tag next n k

section

variable {tag next tag' next' tag'' next'' m n : ℕ} {c d : ℕ → ℕ}

theorem Dealt.trans (h : Dealt tag next m c tag' next') (h' : Dealt tag' next' n d tag'' next'') :
    Dealt tag next (m + n) (fun k => c k + d k) tag'' next'' := by
  refine ⟨?_, ?_, fun k => ?_⟩
  · rw [h'.tag_eq, h.tag_eq, h.next_eq, tagBehind_append]
  · rw [h'.next_eq, h.next_eq, Nat.add_assoc]
  · rw [h.count_eq, h'.count_eq, h.tag_eq, h.next_eq, dealt_append]

theorem Dealt.congr (h : Dealt tag next m c tag' next') (hn : n = m) (hc : ∀ k, d k = c k) :
    Dealt tag next n d tag' next' := by
  subst hn
  exact ⟨h.tag_eq, h.next_eq, fun k => (hc k).trans (h.count_eq k)⟩

theorem dealt_none : Dealt tag next 0 (fun _ => 0) tag next := by
  refine ⟨rfl, rfl, fun k => ?_⟩
  simp only [dealt]
  split_ifs <;> omega

theorem dealt_one : Dealt tag next 1 (fun k => if tag = k then 1 else 0) next (next + 1) := by
  refine ⟨rfl, rfl, fun k => ?_⟩
  simp only [dealt]
  split_ifs <;> omega

/-- The tags of two parts, if the next tag is kept back for the second one. -/
theorem Dealt.reserved (h : Dealt tag (next + 1) m c tag' next')
    (h' : Dealt next (next + m) n d tag'' next'') (hm : 0 < m) (hn : 0 < n) :
    Dealt tag next (m + n) (fun k => c k + d k) tag'' next'' := by
  refine ⟨?_, ?_, fun k => ?_⟩
  · rw [h'.tag_eq]
    simp only [tagBehind]
    split_ifs <;> omega
  · rw [h'.next_eq, Nat.add_assoc]
  · rw [h.count_eq, h'.count_eq]
    simp only [dealt]
    split_ifs <;> omega

theorem dealt_addTagIf : Dealt s.tag s.nextTag (if s.marked then 1 else 0)
    (fun k => if s.marked ∧ s.tag = k then 1 else 0) s.addTagIf.tag s.addTagIf.nextTag := by
  rw [Tagging.addTagIf]
  split
  · next hm => simpa [hm, Tagging.addTag] using dealt_one
  · next hm => simpa [hm] using dealt_none

/-- The tags that are kept back are the two behind the one in front. -/
theorem dealt_reserveMarkers (markers : Bool) :
    Dealt s.addTagIf.tag s.addTagIf.nextTag (if markers then 2 else 0)
      (fun k =>
        (if markers ∧ (if s.marked then s.nextTag else s.tag) = k then 1 else 0) +
          if markers ∧ (if s.marked then s.nextTag + 1 else s.nextTag) = k then 1 else 0)
      (s.addTagIf.reserveMarkers markers).tag (s.addTagIf.reserveMarkers markers).nextTag := by
  rw [Tagging.addTagIf]
  cases markers with
  | false => simpa [Tagging.reserveMarkers] using dealt_none
  | true =>
    split
    · next hm =>
      have htwo := (@dealt_one s.nextTag (s.nextTag + 1)).trans dealt_one
      simpa [hm, Tagging.reserveMarkers, Tagging.addTag] using htwo
    · next hm =>
      have htwo := (@dealt_one s.tag s.nextTag).trans dealt_one
      simpa [hm, Tagging.reserveMarkers] using htwo

end

theorem tagCount_tagless (h : Tagless a) : tagCount k a = 0 := by
  induction a with
  | literal _ leaf =>
    cases leaf with
    | tag _ => exact h.elim
    | char _ _ => rfl
    | backref _ _ => rfl
    | empty => rfl
    | assertion _ => rfl
  | catenation _ left right ihl ihr => rw [tagCount, ihl h.1, ihr h.2]
  | iteration _ arg _ _ ih => exact ih h
  | union _ left right ihl ihr => rw [tagCount, ihl h.1, ihr h.2]

@[simp] theorem Tagging.marked_addTagIf : s.addTagIf.marked = false := by
  rw [Tagging.addTagIf]
  split
  · rfl
  · exact Bool.eq_false_iff.mpr ‹_›

theorem tagCount_addTagIf {m : Bool} : tagCount k (if m then treAddTagLeft a tagId else a) =
    (if m ∧ tagId = k then 1 else 0) + tagCount k a := by
  cases m <;> simp

@[simp] theorem Tagging.marked_addTag : s.addTag.marked = false := rfl

/-- The two passes agree on where there is something in `regset`. -/
theorem marked_addTags : (addTags a s).2.marked = (countTags a s.marked).2 := by
  induction a generalizing s with
  | literal sid leaf =>
    rw [addTags, countTags]
    simp only [Tagging.marked_enter]
    split
    · next hm => simp [hm]
    · next hm => simp [hm]
  | catenation sid left right ihl ihr =>
    rw [addTags, countTags]
    simp only [Tagging.marked_setSubmatchEnd, ihr, Tagging.marked_setTags, ihl, Tagging.marked_enter]
  | iteration sid arg min max ih =>
    rw [addTags, countTags]
    simp only [Tagging.marked_setSubmatchEnd, Tagging.marked_setDirection, ih,
      Tagging.marked_addTagIf]
  | union sid left right ihl ihr =>
    rw [addTags, countTags]
    simp only [Tagging.marked_setSubmatchEnd, Tagging.marked_setDirection,
      Tagging.marked_setRegset_append, ihl, ihr, Tagging.marked_reserveMarkers,
      Tagging.marked_addTagIf, Tagging.marked_setRegset_nil]

/-- **As many tags are put as have been counted**, and each of them once. -/
theorem dealt_addTags (h : Tagless a) : Dealt s.tag s.nextTag (countTags a s.marked).1
    (fun k => tagCount k (addTags a s).1) (addTags a s).2.tag (addTags a s).2.nextTag := by
  induction a generalizing s with
  | literal sid leaf =>
    have hcount : ∀ k, tagCount k (.literal sid leaf) = 0 := fun k => tagCount_tagless h
    rw [addTags, countTags]
    simp only [Tagging.marked_enter]
    split
    · simp only [tagCount_treAddTagLeft, hcount, Tagging.setSubmatchEnd_tag,
        Tagging.setSubmatchEnd_nextTag, Tagging.enter_tag, Nat.add_zero]
      simpa [Tagging.addTag] using dealt_one
    · simp only [hcount, Tagging.setSubmatchEnd_tag, Tagging.setSubmatchEnd_nextTag,
        Tagging.enter_tag, Tagging.enter_nextTag]
      exact dealt_none
  | catenation sid left right ihl ihr =>
    have hl := fun t n => @ihl ((s.enter sid).setTags t n) h.1
    have hr := fun (s' : Tagging) t n => @ihr (s'.setTags t n) h.2
    rw [addTags, countTags]
    simp only [Tagging.marked_setTags, Tagging.setTags_tag, Tagging.setTags_nextTag,
      Tagging.marked_enter, Tagging.setSubmatchEnd_tag, Tagging.setSubmatchEnd_nextTag,
      Tagging.enter_tag, Tagging.enter_nextTag] at hl hr ⊢
    split
    · next hres =>
      obtain ⟨hm, hn⟩ := Bool.and_eq_true_iff.mp hres
      have hleft := hl s.tag (s.nextTag + 1)
      have hright := hr (addTags left ((s.enter sid).setTags s.tag (s.nextTag + 1))).2 s.nextTag
        (s.nextTag + (countTags left (s.marked || sid.isSome)).1)
      rw [marked_addTags, Tagging.marked_setTags, Tagging.marked_enter] at hright
      exact hleft.reserved hright (of_decide_eq_true hm) (of_decide_eq_true hn)
    · have hleft := hl s.tag s.nextTag
      have hright := hr (addTags left ((s.enter sid).setTags s.tag s.nextTag)).2
        (addTags left ((s.enter sid).setTags s.tag s.nextTag)).2.tag
        (s.nextTag + (countTags left (s.marked || sid.isSome)).1)
      rw [marked_addTags, Tagging.marked_setTags, Tagging.marked_enter, ← hleft.next_eq] at hright
      rw [← hleft.next_eq]
      exact hleft.trans hright
  | iteration sid arg min max ih =>
    have hadd := @dealt_addTagIf (s.enter sid)
    have harg := @ih ((s.enter sid).addTagIf.setDirection .minimize) h
    have hboth := hadd.trans harg
    rw [addTags, countTags]
    simp only [Tagging.setSubmatchEnd_tag, Tagging.setSubmatchEnd_nextTag, Tagging.marked_setDirection,
      Tagging.marked_addTagIf, Tagging.marked_enter, Tagging.enter_tag, Tagging.enter_nextTag,
      Tagging.setDirection_tag, Tagging.setDirection_nextTag] at hboth ⊢
    refine hboth.congr (Nat.add_comm _ _) fun k => ?_
    rw [tagCount_addTagIf]
    rfl
  | union sid left right ihl ihr =>
    have hadd := @dealt_addTagIf (s.enter sid)
    have hmark := @dealt_reserveMarkers (s.enter sid) (0 < numSubmatches (.union sid left right))
    have hleft := @ihl ((s.enter sid).addTagIf.reserveMarkers
      (0 < numSubmatches (.union sid left right))) h.1
    have hright := @ihr ((addTags left ((s.enter sid).addTagIf.reserveMarkers
      (0 < numSubmatches (.union sid left right)))).2.setRegset []) h.2
    have hall := ((hadd.trans hmark).trans hleft).trans hright
    rw [addTags, countTags]
    simp only [Tagging.setSubmatchEnd_tag, Tagging.setSubmatchEnd_nextTag, Tagging.setDirection_tag,
      Tagging.setDirection_nextTag, Tagging.setRegset_tag, Tagging.setRegset_nextTag,
      Tagging.marked_setRegset_nil, Tagging.marked_reserveMarkers,
      Tagging.addMarkers_tag, Tagging.addMarkers_nextTag, Tagging.marked_addTagIf,
      Tagging.marked_enter, Tagging.enter_tag, Tagging.enter_nextTag] at hall ⊢
    refine hall.congr (by simp only [decide_eq_true_eq]; omega) fun k => ?_
    rw [tagCount_addTagIf, tagCount]
    cases decide (0 < numSubmatches (.union sid left right)) with
    | false => simp [Nat.add_assoc]
    | true =>
      simp only [if_true, tagCount_treAddTagRight, true_and]
      omega

theorem numTags_addTags : (addTags a s).2.numTags = s.numTags + (countTags a s.marked).1 := by
  induction a generalizing s with
  | literal sid leaf =>
    rw [addTags, countTags]
    simp only [Tagging.marked_enter]
    split <;> simp [Tagging.addTag]
  | catenation sid left right ihl ihr =>
    rw [addTags, countTags]
    simp only [Tagging.setSubmatchEnd_numTags, ihr, Tagging.setTags_numTags, ihl, marked_addTags,
      Tagging.marked_setTags, Tagging.marked_enter, Tagging.enter_numTags, Nat.add_assoc]
  | iteration sid arg min max ih =>
    rw [addTags, countTags]
    simp only [Tagging.setSubmatchEnd_numTags, Tagging.setDirection_numTags, ih,
      Tagging.addTagIf_numTags, Tagging.marked_setDirection, Tagging.marked_addTagIf,
      Tagging.marked_enter, Tagging.enter_numTags]
    omega
  | union sid left right ihl ihr =>
    rw [addTags, countTags]
    simp only [Tagging.setSubmatchEnd_numTags, Tagging.setDirection_numTags,
      Tagging.setRegset_numTags, Tagging.addMarkers_numTags, ihr, ihl, Tagging.reserveMarkers_numTags,
      Tagging.addTagIf_numTags, Tagging.marked_setRegset_nil, Tagging.marked_reserveMarkers,
      Tagging.marked_addTagIf, Tagging.marked_enter, Tagging.enter_numTags, decide_eq_true_eq]
    omega

end

/-! ## Nothing else is changed -/

/-- A tree with tags put into it. -/
inductive WithTags : Ast → Ast → Prop
  | literal (sid sid' : Option ℕ) (leaf : Leaf) : WithTags (.literal sid leaf) (.literal sid' leaf)
  | catenation (sid sid' : Option ℕ) {l l' r r' : Ast} : WithTags l l' → WithTags r r' →
    WithTags (.catenation sid l r) (.catenation sid' l' r')
  | iteration (sid sid' : Option ℕ) {a a' : Ast} (min : ℕ) (max : Option ℕ) : WithTags a a' →
    WithTags (.iteration sid a min max) (.iteration sid' a' min max)
  | union (sid sid' : Option ℕ) {l l' r r' : Ast} : WithTags l l' → WithTags r r' →
    WithTags (.union sid l r) (.union sid' l' r')
  | left (sid sid' : Option ℕ) (id : ℕ) {a a' : Ast} : WithTags a a' →
    WithTags a (.catenation sid (.literal sid' (.tag id)) a')
  | right (sid sid' : Option ℕ) (id : ℕ) {a a' : Ast} : WithTags a a' →
    WithTags a (.catenation sid a' (.literal sid' (.tag id)))

section

variable {a a' : Ast} {sid : Option ℕ} {s : Tagging} {tagId lo hi p : ℕ} {T : Type} {R : Reading T}
  {m : Bool}

theorem WithTags.refl : WithTags a a := by
  induction a with
  | literal sid leaf => exact .literal sid sid leaf
  | catenation sid _ _ ihl ihr => exact .catenation sid sid ihl ihr
  | iteration sid _ min max ih => exact .iteration sid sid min max ih
  | union sid _ _ ihl ihr => exact .union sid sid ihl ihr

theorem WithTags.withSid (h : WithTags a a') : WithTags a (a'.withSid sid) := by
  cases h with
  | literal sid' _ leaf => exact .literal sid' sid leaf
  | catenation sid' _ hl hr => exact .catenation sid' sid hl hr
  | iteration sid' _ min max h => exact .iteration sid' sid min max h
  | union sid' _ hl hr => exact .union sid' sid hl hr
  | left _ sid' id h => exact .left sid sid' id h
  | right _ sid' id h => exact .right sid sid' id h

theorem WithTags.treAddTagLeft (h : WithTags a a') :
    WithTags a (if m then treAddTagLeft a' tagId else a') := by
  cases m with
  | false => exact h
  | true => exact .left _ none tagId h.withSid

theorem WithTags.treAddTagRight (h : WithTags a a') :
    WithTags a (if m then treAddTagRight a' tagId else a') := by
  cases m with
  | false => exact h
  | true => exact .right _ none tagId h.withSid

theorem withTags_addTags : WithTags a (addTags a s).1 := by
  induction a generalizing s with
  | literal sid leaf =>
    rw [addTags]
    split
    · exact .left _ none _ (.literal _ _ _)
    · exact .literal _ _ _
  | catenation sid left right ihl ihr => exact .catenation _ _ ihl ihr
  | iteration sid arg min max ih => exact (WithTags.iteration _ _ min max ih).treAddTagLeft
  | union sid left right ihl ihr =>
    exact (WithTags.union _ _ ihl.treAddTagRight ihr.treAddTagRight).treAddTagLeft

theorem WithTags.positions (h : WithTags a a') : positions a' = positions a := by
  induction h with
  | literal _ _ _ => rfl
  | catenation _ _ _ _ ihl ihr => rw [Tre.positions, Tre.positions, ihl, ihr]
  | iteration _ _ _ _ _ ih => exact ih
  | union _ _ _ _ ihl ihr => rw [Tre.positions, Tre.positions, ihl, ihr]
  | left _ _ _ _ ih => exact ih
  | right _ _ _ _ ih => exact (List.append_nil _).trans ih

/-- **Tags do not change what a tree spans.** -/
theorem WithTags.span (h : WithTags a a') : Span R a' = Span R a := by
  induction h with
  | literal _ _ leaf => cases leaf <;> rfl
  | catenation _ _ _ _ ihl ihr => simp only [Span, ihl, ihr]
  | iteration _ _ _ _ _ ih => simp only [Span, ih]
  | union _ _ _ _ ihl ihr => simp only [Span, ihl, ihr]
  | left _ _ _ _ ih =>
    funext t u
    simp [Span, ih]
  | right _ _ _ _ ih =>
    funext t u
    simp [Span, ih]

theorem WithTags.bounded (h : WithTags a a') (hb : Bounded a) : Bounded a' := by
  induction h with
  | literal _ _ _ => trivial
  | catenation _ _ _ _ ihl ihr => exact ⟨ihl hb.1, ihr hb.2⟩
  | iteration _ _ _ _ _ ih => exact ⟨ih hb.1, hb.2⟩
  | union _ _ _ _ ihl ihr => exact ⟨ihl hb.1, ihr hb.2⟩
  | left _ _ _ _ ih => exact ⟨trivial, ih hb⟩
  | right _ _ _ _ ih => exact ⟨ih hb, trivial⟩

theorem WithTags.noBackrefs (h : WithTags a a') (hb : NoBackrefs a) : NoBackrefs a' := by
  induction h with
  | literal _ _ leaf => cases leaf <;> exact hb
  | catenation _ _ _ _ ihl ihr => exact ⟨ihl hb.1, ihr hb.2⟩
  | iteration _ _ _ _ _ ih => exact ih hb
  | union _ _ _ _ ihl ihr => exact ⟨ihl hb.1, ihr hb.2⟩
  | left _ _ _ _ ih => exact ⟨trivial, ih hb⟩
  | right _ _ _ _ ih => exact ⟨ih hb, trivial⟩

theorem WithTags.uncounted (h : WithTags a a') (hu : Uncounted a) : Uncounted a' := by
  induction h with
  | literal _ _ _ => trivial
  | catenation _ _ _ _ ihl ihr => exact ⟨ihl hu.1, ihr hu.2⟩
  | iteration _ _ _ _ _ ih => exact ⟨ih hu.1, hu.2⟩
  | union _ _ _ _ ihl ihr => exact ⟨ihl hu.1, ihr hu.2⟩
  | left _ _ _ _ ih => exact ⟨trivial, ih hu⟩
  | right _ _ _ _ ih => exact ⟨ih hu, trivial⟩

theorem WithTags.nullable (h : WithTags a a') : nullable a' = nullable a := by
  induction h with
  | literal _ _ leaf => cases leaf <;> rfl
  | catenation _ _ _ _ ihl ihr => rw [Tre.nullable, Tre.nullable, ihl, ihr]
  | iteration _ _ _ _ _ ih => rw [Tre.nullable, Tre.nullable, ih]
  | union _ _ _ _ ihl ihr => rw [Tre.nullable, Tre.nullable, ihl, ihr]
  | left _ _ _ _ ih => exact ih
  | right _ _ _ _ ih => exact (Bool.and_true _).trans ih

theorem WithTags.emptyPath (h : WithTags a a') : (emptyPath a').2 = (emptyPath a).2 := by
  induction h with
  | literal _ _ leaf => cases leaf <;> rfl
  | catenation _ _ _ _ ihl ihr => rw [emptyPath_catenation, emptyPath_catenation, ihl, ihr]
  | iteration _ _ _ _ h ih => rw [emptyPath_iteration, emptyPath_iteration, ih, h.nullable]
  | union _ _ hl _ ihl ihr => rw [emptyPath_union, emptyPath_union, ihl, ihr, hl.nullable]
  | left _ sid' id _ ih =>
    have hvoid : Void (.literal sid' (.tag id)) := trivial
    rw [emptyPath_catenation, ih, hvoid.passes.assertions]
    exact BitVec.or_zero
  | right _ sid' id _ ih =>
    have hvoid : Void (.literal sid' (.tag id)) := trivial
    rw [emptyPath_catenation, ih, hvoid.passes.assertions]
    exact BitVec.zero_or

theorem WithTags.oneWay (h : WithTags a a') (hone : OneWay a) : OneWay a' := by
  induction h with
  | literal _ _ _ => trivial
  | catenation _ _ _ _ ihl ihr => exact ⟨ihl hone.1, ihr hone.2⟩
  | iteration _ _ _ _ h ih =>
    refine ⟨ih hone.1, fun hnull => ?_⟩
    rw [h.emptyPath]
    exact hone.2 (h.nullable ▸ hnull)
  | union _ _ hl hr ihl ihr =>
    refine ⟨ihl hone.1, ihr hone.2.1, fun hleft hright => ?_⟩
    rw [hl.emptyPath, hr.emptyPath]
    exact hone.2.2 (hl.nullable ▸ hleft) (hr.nullable ▸ hright)
  | left _ _ _ _ ih => exact ⟨trivial, ih hone⟩
  | right _ _ _ _ ih => exact ⟨ih hone, trivial⟩

theorem WithTags.void (h : WithTags a a') (hv : Void a) : Void a' := by
  induction h with
  | literal _ _ leaf => cases leaf <;> exact hv
  | catenation _ _ _ _ ihl ihr => exact ⟨ihl hv.1, ihr hv.2⟩
  | iteration _ _ _ _ _ _ => exact hv.elim
  | union _ _ _ _ _ _ => exact hv.elim
  | left _ _ _ _ ih => exact ⟨trivial, ih hv⟩
  | right _ _ _ _ ih => exact ⟨ih hv, trivial⟩

theorem WithTags.oneState (h : WithTags a a') (hone : OneState p a) : OneState p a' := by
  induction h with
  | literal _ _ leaf => cases leaf <;> exact hone
  | catenation _ _ hl hr ihl ihr =>
    exact hone.imp (fun h => ⟨hl.void h.1, ihr h.2⟩) fun h => ⟨ihl h.1, hr.void h.2⟩
  | iteration _ _ _ _ _ _ => exact hone.elim
  | union _ _ _ _ ihl ihr => exact ⟨ihl hone.1, ihr hone.2⟩
  | left _ _ _ _ ih => exact .inl ⟨trivial, ih hone⟩
  | right _ _ _ _ ih => exact .inr ⟨ih hone, trivial⟩

theorem laid_tag {id : ℕ} : Laid (.literal sid (.tag id)) p p :=
  ⟨Nat.le_refl _, fun _ hq => absurd hq List.not_mem_nil⟩

theorem WithTags.laid (h : WithTags a a') (hlaid : Laid a lo hi) : Laid a' lo hi := by
  induction h generalizing lo hi with
  | literal _ _ _ => exact hlaid
  | catenation _ _ _ _ ihl ihr =>
    exact Apart.mono hlaid (fun _ => ⟨ihl, ihl⟩) fun _ => ⟨ihr, ihr⟩
  | iteration _ _ _ _ _ ih => exact ih hlaid
  | union _ _ hl hr ihl ihr =>
    rcases hlaid with ⟨p, hlo, hhi, h₁, h₂⟩ | hlaid
    · exact .inl ⟨p, hlo, hhi, hl.oneState h₁, hr.oneState h₂⟩
    · exact .inr (Apart.mono hlaid (fun _ => ⟨ihl, ihl⟩) fun _ => ⟨ihr, ihr⟩)
  | left _ _ _ _ ih => exact ⟨lo, .inl ⟨laid_tag, ih hlaid⟩⟩
  | right _ _ _ _ ih => exact ⟨hi, .inl ⟨ih hlaid, laid_tag⟩⟩

theorem WithTags.ready (h : WithTags a a') (hready : Ready a lo hi) : Ready a' lo hi := by
  induction h generalizing lo hi with
  | literal _ _ _ => exact hready
  | catenation _ _ _ _ ihl ihr =>
    obtain ⟨mid, hl, hr⟩ := hready
    exact ⟨mid, ihl hl, ihr hr⟩
  | iteration _ _ _ _ h _ =>
    obtain ⟨hun, lo', hi', hlo, hhi, hlaid, hlen⟩ := hready
    exact ⟨h.uncounted hun, lo', hi', hlo, hhi, h.laid hlaid, h.positions ▸ hlen⟩
  | union _ _ hl hr ihl ihr =>
    rcases hready with ⟨p, hlo, hhi, h₁, h₂⟩ | ⟨mid, h₁, h₂⟩
    · exact .inl ⟨p, hlo, hhi, hl.oneState h₁, hr.oneState h₂⟩
    · exact .inr ⟨mid, ihl h₁, ihr h₂⟩
  | left _ sid' id _ ih =>
    have htag : Laid (.literal sid' (.tag id)) lo lo := laid_tag
    exact ⟨lo, htag, ih hready⟩
  | right _ sid' id _ ih =>
    have htag : Laid (.literal sid' (.tag id)) hi hi := laid_tag
    exact ⟨hi, ih hready, htag⟩

/-- A tree stays as the compiler needs it. -/
theorem WithTags.compilable {position : ℕ} (h : WithTags a a') (hc : Compilable a position) :
    Compilable a' position :=
  ⟨h.ready hc.ready, h.noBackrefs hc.noBackrefs, h.bounded hc.bounded⟩

end

/-! ## The subexpressions -/

/-- The numbers inside of a subexpression are greater. -/
def below (sid : Option ℕ) (lo : ℕ) : ℕ := sid.elim lo (· + 1)

/-- The subexpressions in the tree have numbers from `lo` on, and each has a smaller one than those in
it. -/
def Numbered : Ast → ℕ → Prop
  | .literal sid _ => fun lo => ∀ k ∈ sid, lo ≤ k
  | .catenation sid left right => fun lo =>
    (∀ k ∈ sid, lo ≤ k) ∧ Numbered left (below sid lo) ∧ Numbered right (below sid lo)
  | .iteration sid arg _ _ => fun lo => (∀ k ∈ sid, lo ≤ k) ∧ Numbered arg (below sid lo)
  | .union sid left right => fun lo =>
    (∀ k ∈ sid, lo ≤ k) ∧ Numbered left (below sid lo) ∧ Numbered right (below sid lo)

/-- How many subexpressions of the tree have this number. -/
def sidCount (k : ℕ) : Ast → ℕ
  | .literal sid _ => if sid = some k then 1 else 0
  | .catenation sid left right => (if sid = some k then 1 else 0) + sidCount k left + sidCount k right
  | .iteration sid arg _ _ => (if sid = some k then 1 else 0) + sidCount k arg
  | .union sid left right => (if sid = some k then 1 else 0) + sidCount k left + sidCount k right

/-- What is around a subexpression, at a node: nothing if it is the node itself, and otherwise the node and what
is around it in the parts of the node. -/
def aroundAt (id : ℕ) (sid : Option ℕ) (inner : Option (List ℕ)) : Option (List ℕ) :=
  if sid = some id then some [] else inner.map (sid.toList ++ ·)

/-- The numbers of the subexpressions around the one with the number `id`, from the outside to the inside. -/
def around (id : ℕ) : Ast → Option (List ℕ)
  | .literal sid _ => aroundAt id sid none
  | .catenation sid left right => aroundAt id sid ((around id left).or (around id right))
  | .iteration sid arg _ _ => aroundAt id sid (around id arg)
  | .union sid left right => aroundAt id sid ((around id left).or (around id right))

section

variable {a left right : Ast} {sid : Option ℕ} {s : Tagging} {lo lo' id m tag : ℕ} {regset : List ℕ}
  {data : ℕ → SubmatchData}

theorem below_mono (h : lo ≤ lo') : below sid lo ≤ below sid lo' := by
  cases sid with
  | none => exact h
  | some k => exact Nat.le_refl _

theorem le_below (h : ∀ k ∈ sid, lo ≤ k) : lo ≤ below sid lo := by
  cases sid with
  | none => exact Nat.le_refl _
  | some k => exact Nat.le_succ_of_le (h k rfl)

theorem Numbered.mono (h : Numbered a lo') (hle : lo ≤ lo') : Numbered a lo := by
  induction a generalizing lo lo' with
  | literal _ _ => exact fun k hk => hle.trans (h k hk)
  | catenation _ _ _ ihl ihr =>
    exact ⟨fun k hk => hle.trans (h.1 k hk), ihl h.2.1 (below_mono hle), ihr h.2.2 (below_mono hle)⟩
  | iteration _ _ _ _ ih => exact ⟨fun k hk => hle.trans (h.1 k hk), ih h.2 (below_mono hle)⟩
  | union _ _ _ ihl ihr =>
    exact ⟨fun k hk => hle.trans (h.1 k hk), ihl h.2.1 (below_mono hle), ihr h.2.2 (below_mono hle)⟩

/-! ### Which subexpression is in which -/

@[simp] theorem Tagging.addTagIf_parents : s.addTagIf.parents = s.parents := by
  rw [addTagIf]
  split <;> rfl

/-- What has been entered is left again. -/
theorem parents_addTags : (addTags a s).2.parents = s.parents := by
  have hleave : ∀ {s s' : Tagging} {sid : Option ℕ}, s'.parents = (s.enter sid).parents →
      (s'.setSubmatchEnd sid).parents = s.parents := by
    intro s s' sid h
    cases sid with
    | none => exact h
    | some id => exact (congrArg List.dropLast h).trans List.dropLast_concat
  induction a generalizing s with
  | literal sid leaf =>
    rw [addTags]
    split
    · exact hleave rfl
    · exact hleave rfl
  | catenation sid left right ihl ihr => exact hleave (ihr.trans ihl)
  | iteration sid arg min max ih => exact hleave (ih.trans Tagging.addTagIf_parents)
  | union sid left right ihl ihr =>
    have hres : ∀ {s : Tagging} {m : Bool}, (s.reserveMarkers m).parents = s.parents := by
      intro s m
      cases m <;> rfl
    have hadd : ∀ {s : Tagging} {m : Bool} {l r : ℕ}, (s.addMarkers m l r).parents = s.parents := by
      intro s m l r
      cases m <;> rfl
    exact hleave (hadd.trans (ihr.trans (ihl.trans (hres.trans Tagging.addTagIf_parents))))

/-- **What `tre_purge_regset` does**: whatever is in `regset` gets the tag, and nothing else changes. -/
theorem trePurgeRegset_apply : trePurgeRegset regset tag data id =
    ⟨if 2 * id ∈ regset then tag else (data id).soTag,
      if 2 * id + 1 ∈ regset then tag else (data id).eoTag, (data id).parents⟩ := by
  rw [trePurgeRegset]
  induction regset generalizing data with
  | nil => simp
  | cons m regset ih =>
    rw [List.foldl_cons, ih, Function.update_apply]
    by_cases hid : id = m / 2
    · rw [if_pos hid, ← hid, SubmatchData.mark]
      by_cases hm : m % 2 = 0
      · have hstart : 2 * id = m := by omega
        simp [hm, hstart]
      · have hstart : 2 * id ≠ m := by omega
        have hend : 2 * id + 1 = m := by omega
        simp [hm, hstart, hend]
    · have hne : 2 * id ≠ m := by omega
      have hne' : 2 * id + 1 ≠ m := by omega
      simp [hid, hne, hne']

@[simp] theorem Tagging.setSubmatchEnd_submatchData :
    (s.setSubmatchEnd sid).submatchData = s.submatchData := by
  cases sid <;> rfl

@[simp] theorem Tagging.reserveMarkers_submatchData {m : Bool} :
    (s.reserveMarkers m).submatchData = s.submatchData := by
  cases m <;> rfl

@[simp] theorem Tagging.addMarkers_submatchData {m : Bool} {l r : ℕ} :
    (s.addMarkers m l r).submatchData = s.submatchData := by
  cases m <;> rfl

@[simp] theorem Tagging.reserveMarkers_parents {m : Bool} :
    (s.reserveMarkers m).parents = s.parents := by
  cases m <;> rfl

theorem Tagging.enter_parents : (s.enter sid).parents = s.parents ++ sid.toList := by
  cases sid with
  | none => exact (List.append_nil _).symm
  | some k => rfl

theorem Tagging.parents_enter : ((s.enter sid).submatchData id).parents =
    if sid = some id then s.parents else (s.submatchData id).parents := by
  cases sid with
  | none => rfl
  | some k =>
    simp only [Tagging.enter, Option.elim_some, Function.update_apply, Option.some_inj, eq_comm]
    split <;> rfl

@[simp] theorem Tagging.parents_addTag :
    (s.addTag.submatchData id).parents = (s.submatchData id).parents := by
  show (trePurgeRegset s.regset s.tag s.submatchData id).parents = _
  rw [trePurgeRegset_apply]

@[simp] theorem Tagging.parents_addTagIf :
    (s.addTagIf.submatchData id).parents = (s.submatchData id).parents := by
  rw [addTagIf]
  split
  · exact parents_addTag
  · rfl

theorem aroundAt_eq_none_iff {inner : Option (List ℕ)} :
    aroundAt id sid inner = none ↔ (if sid = some id then 1 else 0) = 0 ∧ inner = none := by
  rw [aroundAt]
  split
  · simp
  · simp

theorem around_eq_none_iff : around id a = none ↔ sidCount id a = 0 := by
  induction a with
  | literal sid leaf => rw [around, aroundAt_eq_none_iff, sidCount, and_iff_left rfl]
  | catenation sid left right ihl ihr =>
    rw [around, aroundAt_eq_none_iff, sidCount, Option.or_eq_none_iff, ihl, ihr, Nat.add_eq_zero_iff,
      Nat.add_eq_zero_iff, and_assoc]
  | iteration sid arg min max ih =>
    rw [around, aroundAt_eq_none_iff, sidCount, ih, Nat.add_eq_zero_iff]
  | union sid left right ihl ihr =>
    rw [around, aroundAt_eq_none_iff, sidCount, Option.or_eq_none_iff, ihl, ihr, Nat.add_eq_zero_iff,
      Nat.add_eq_zero_iff, and_assoc]

/-- What has been recorded behind the parts of a node is what is recorded behind the node. -/
theorem elim_aroundAt {inner : Option (List ℕ)} (h : sid = some id → inner = none) :
    inner.elim ((s.enter sid).submatchData id).parents ((s.enter sid).parents ++ ·) =
      (aroundAt id sid inner).elim (s.submatchData id).parents (s.parents ++ ·) := by
  rw [Tagging.parents_enter, Tagging.enter_parents, aroundAt]
  split
  · next hsid => simp [h hsid]
  · cases inner <;> simp

/-- Of the two parts of a node one at most has the subexpression, and none if it is the node. -/
theorem elim_around_or (h : (if sid = some id then 1 else 0) + sidCount id left + sidCount id right ≤ 1) :
    (sid = some id → (around id left).or (around id right) = none) ∧ ∀ old ps : List ℕ,
      (around id right).elim ((around id left).elim old (ps ++ ·)) (ps ++ ·) =
        ((around id left).or (around id right)).elim old (ps ++ ·) := by
  refine ⟨fun hsid => ?_, fun old ps => ?_⟩
  · rw [if_pos hsid] at h
    rw [Option.or_eq_none_iff, around_eq_none_iff, around_eq_none_iff]
    omega
  · cases hl : around id left with
    | none => rfl
    | some l =>
      have hne : sidCount id left ≠ 0 := fun hzero => by
        rw [around_eq_none_iff.mpr hzero] at hl
        cases hl
      rw [around_eq_none_iff.mpr (by omega : sidCount id right = 0)]
      rfl

/-- **What is around a subexpression is recorded for it**: what is around the tree, and then what is around
the subexpression in the tree. -/
theorem parents_submatchData (hone : sidCount id a ≤ 1) :
    ((addTags a s).2.submatchData id).parents =
      (around id a).elim (s.submatchData id).parents (s.parents ++ ·) := by
  induction a generalizing s with
  | literal sid leaf =>
    have hself := @elim_aroundAt sid s id none fun _ => rfl
    rw [addTags, around]
    split
    · rw [Tagging.setSubmatchEnd_submatchData, Tagging.parents_addTag]
      exact hself
    · rw [Tagging.setSubmatchEnd_submatchData]
      exact hself
  | catenation sid left right ihl ihr =>
    rw [sidCount] at hone
    obtain ⟨hnone, hor⟩ := elim_around_or hone
    have hleft := fun t n => @ihl ((s.enter sid).setTags t n) (by omega)
    have hright := fun t n t' n' =>
      @ihr ((addTags left ((s.enter sid).setTags t n)).2.setTags t' n') (by omega)
    rw [addTags, Tagging.setSubmatchEnd_submatchData, around, ← elim_aroundAt hnone, ← hor]
    refine (hright _ _ _ _).trans ?_
    show (around id right).elim ((addTags left _).2.submatchData id).parents
      ((addTags left _).2.parents ++ ·) = _
    rw [hleft, parents_addTags]
    rfl
  | iteration sid arg min max ih =>
    rw [sidCount] at hone
    have harg := @ih ((s.enter sid).addTagIf.setDirection .minimize) (by omega)
    have hnone : sid = some id → around id arg = none := by
      intro hsid
      rw [if_pos hsid] at hone
      exact around_eq_none_iff.mpr (by omega)
    rw [addTags, Tagging.setSubmatchEnd_submatchData, around, ← elim_aroundAt hnone]
    refine harg.trans ?_
    show (around id arg).elim ((s.enter sid).addTagIf.submatchData id).parents
      ((s.enter sid).addTagIf.parents ++ ·) = _
    rw [Tagging.parents_addTagIf, Tagging.addTagIf_parents]
  | union sid left right ihl ihr =>
    rw [sidCount] at hone
    obtain ⟨hnone, hor⟩ := elim_around_or hone
    have hleft := fun m => @ihl ((s.enter sid).addTagIf.reserveMarkers m) (by omega)
    have hright := fun m => @ihr
      ((addTags left ((s.enter sid).addTagIf.reserveMarkers m)).2.setRegset []) (by omega)
    rw [addTags, Tagging.setSubmatchEnd_submatchData, around, ← elim_aroundAt hnone, ← hor]
    refine (congrArg (fun d : ℕ → SubmatchData => (d id).parents)
      Tagging.addMarkers_submatchData).trans ((hright _).trans ?_)
    show (around id right).elim ((addTags left _).2.submatchData id).parents
      ((addTags left _).2.parents ++ ·) = _
    rw [hleft, parents_addTags, Tagging.reserveMarkers_submatchData, Tagging.parents_addTagIf,
      Tagging.reserveMarkers_parents, Tagging.addTagIf_parents]

/-- At a node that has a smaller number than what is in it. -/
theorem lt_of_mem_aroundAt {inner : Option (List ℕ)} {ps : List ℕ} (hlo : ∀ k ∈ sid, lo ≤ k)
    (h : aroundAt id sid inner = some ps)
    (hinner : ∀ qs, inner = some qs → below sid lo ≤ id ∧ ∀ j ∈ qs, j < id) :
    lo ≤ id ∧ ∀ j ∈ ps, j < id := by
  rw [aroundAt] at h
  split at h
  · next hsid =>
    cases h
    exact ⟨hlo id hsid, fun j hj => absurd hj List.not_mem_nil⟩
  · obtain ⟨qs, hqs, rfl⟩ := Option.map_eq_some_iff.mp h
    obtain ⟨hle, hlt⟩ := hinner qs hqs
    refine ⟨(le_below hlo).trans hle, fun j hj => ?_⟩
    rcases List.mem_append.mp hj with hj | hj
    · obtain rfl : sid = some j := Option.mem_toList.mp hj
      exact hle
    · exact hlt j hj

/-- Whatever is around a subexpression has a smaller number. -/
theorem lt_of_mem_around (hnum : Numbered a lo) {ps : List ℕ} (h : around id a = some ps) :
    lo ≤ id ∧ ∀ j ∈ ps, j < id := by
  induction a generalizing lo ps with
  | literal sid leaf => exact lt_of_mem_aroundAt hnum h fun qs hqs => by cases hqs
  | catenation sid left right ihl ihr =>
    refine lt_of_mem_aroundAt hnum.1 h fun qs hqs => ?_
    rcases Option.or_eq_some_iff.mp hqs with hl | ⟨-, hr⟩
    · exact ihl hnum.2.1 hl
    · exact ihr hnum.2.2 hr
  | iteration sid arg min max ih => exact lt_of_mem_aroundAt hnum.1 h fun qs hqs => ih hnum.2 hqs
  | union sid left right ihl ihr =>
    refine lt_of_mem_aroundAt hnum.1 h fun qs hqs => ?_
    rcases Option.or_eq_some_iff.mp hqs with hl | ⟨-, hr⟩
    · exact ihl hnum.2.1 hl
    · exact ihr hnum.2.2 hr

end

/-! ## What the submatches refer to -/

/-- A tag of a submatch is as before, or one in the tree. -/
def Refers (a : Ast) (data data' : ℕ → SubmatchData) : Prop :=
  ∀ id, ((data' id).soTag = (data id).soTag ∨ 0 < tagCount (data' id).soTag a) ∧
    ((data' id).eoTag = (data id).eoTag ∨ 0 < tagCount (data' id).eoTag a)

section

variable {a b c left right : Ast} {sid : Option ℕ} {s : Tagging} {data data' data'' : ℕ → SubmatchData}

theorem Refers.refl : Refers a data data := fun _ => ⟨.inl rfl, .inl rfl⟩

theorem Refers.mono (h : Refers a data data') (hc : ∀ k, tagCount k a ≤ tagCount k c) :
    Refers c data data' := fun id =>
  ⟨(h id).1.imp_right fun hk => hk.trans_le (hc _), (h id).2.imp_right fun hk => hk.trans_le (hc _)⟩

theorem Refers.trans (h : Refers a data data') (h' : Refers a data' data'') : Refers a data data'' := by
  intro id
  constructor
  · rcases (h' id).1 with heq | hpos
    · rw [heq]
      exact (h id).1
    · exact .inr hpos
  · rcases (h' id).2 with heq | hpos
    · rw [heq]
      exact (h id).2
    · exact .inr hpos

theorem refers_enter : Refers a s.submatchData (s.enter sid).submatchData := by
  intro id
  cases sid with
  | none => exact ⟨.inl rfl, .inl rfl⟩
  | some k =>
    by_cases hid : id = k
    · subst hid
      simp [Tagging.enter]
    · simp [Tagging.enter, hid]

theorem refers_addTag (h : 0 < tagCount s.tag a) : Refers a s.submatchData s.addTag.submatchData := by
  intro id
  have hdata : s.addTag.submatchData = trePurgeRegset s.regset s.tag s.submatchData := rfl
  rw [hdata, trePurgeRegset_apply]
  constructor
  · dsimp only
    split
    · exact .inr h
    · exact .inl rfl
  · dsimp only
    split
    · exact .inr h
    · exact .inl rfl

theorem refers_addTagIf (h : s.marked = true → 0 < tagCount s.tag a) :
    Refers a s.submatchData s.addTagIf.submatchData := by
  rw [Tagging.addTagIf]
  split
  · exact refers_addTag (h ‹_›)
  · exact Refers.refl

/-- **Whatever a submatch refers to is a tag in the tree**, if it has not been so before. -/
theorem refers_addTags : Refers (addTags a s).1 s.submatchData (addTags a s).2.submatchData := by
  induction a generalizing s with
  | literal sid leaf =>
    rw [addTags]
    split
    · simp only [Tagging.setSubmatchEnd_submatchData]
      exact refers_enter.trans (refers_addTag (by rw [tagCount_treAddTagLeft, if_pos rfl]; omega))
    · simp only [Tagging.setSubmatchEnd_submatchData]
      exact refers_enter
  | catenation sid left right ihl ihr =>
    have hleft : ∀ t n, Refers (addTags left ((s.enter sid).setTags t n)).1 (s.enter sid).submatchData
        (addTags left ((s.enter sid).setTags t n)).2.submatchData := fun _ _ => ihl
    have hright : ∀ t n t' n', Refers
        (addTags right ((addTags left ((s.enter sid).setTags t n)).2.setTags t' n')).1
        (addTags left ((s.enter sid).setTags t n)).2.submatchData
        (addTags right ((addTags left ((s.enter sid).setTags t n)).2.setTags t' n')).2.submatchData :=
      fun _ _ _ _ => ihr
    simp only [addTags, Tagging.setSubmatchEnd_submatchData]
    refine refers_enter.trans ((hleft _ _).mono fun k => ?_) |>.trans ((hright _ _ _ _).mono fun k => ?_)
    · rw [tagCount]
      exact Nat.le_add_right _ _
    · rw [tagCount]
      exact Nat.le_add_left _ _
  | iteration sid arg min max ih =>
    simp only [addTags, Tagging.setSubmatchEnd_submatchData]
    refine refers_enter.trans ((refers_addTagIf fun hm => ?_).trans
      ((ih (s := (s.enter sid).addTagIf.setDirection .minimize)).mono fun k => ?_))
    · rw [if_pos hm, tagCount_treAddTagLeft, if_pos rfl]
      omega
    · rw [tagCount_addTagIf, tagCount]
      exact Nat.le_add_left _ _
  | union sid left right ihl ihr =>
    have hmarkers : ∀ {a : Ast} {k t : ℕ} {m : Bool}, tagCount k a ≤
        tagCount k (if m then treAddTagRight a t else a) := by
      intro a k t m
      cases m <;> simp
    have hleft : ∀ m, Refers (addTags left ((s.enter sid).addTagIf.reserveMarkers m)).1
        (s.enter sid).addTagIf.submatchData
        (addTags left ((s.enter sid).addTagIf.reserveMarkers m)).2.submatchData :=
      fun _ => Tagging.reserveMarkers_submatchData ▸ ihl
    have hright : ∀ m, Refers
        (addTags right ((addTags left ((s.enter sid).addTagIf.reserveMarkers m)).2.setRegset [])).1
        (addTags left ((s.enter sid).addTagIf.reserveMarkers m)).2.submatchData
        (addTags right
          ((addTags left ((s.enter sid).addTagIf.reserveMarkers m)).2.setRegset [])).2.submatchData :=
      fun _ => ihr
    have hdata : ∀ {s : Tagging} {m : Bool} {l r : ℕ} {regset : List ℕ} {d : TagDirection},
        ((((s.addMarkers m l r).setRegset regset).setDirection d).setSubmatchEnd sid).submatchData =
          s.submatchData :=
      Tagging.setSubmatchEnd_submatchData.trans Tagging.addMarkers_submatchData
    rw [addTags, hdata]
    refine (refers_enter.trans (refers_addTagIf fun hm => ?_)).trans
      ((hleft _).mono fun k => ?_) |>.trans ((hright _).mono fun k => ?_)
    · rw [if_pos hm, tagCount_treAddTagLeft, if_pos rfl]
      omega
    · rw [tagCount_addTagIf, tagCount]
      exact hmarkers.trans ((Nat.le_add_right _ _).trans (Nat.le_add_left _ _))
    · rw [tagCount_addTagIf, tagCount]
      exact hmarkers.trans ((Nat.le_add_left _ _).trans (Nat.le_add_left _ _))

end

/-! ## The whole tree -/

theorem numTags_treAddTags {tree : Ast} :
    (treAddTags tree).2.numTags = (countTags tree false).1 :=
  numTags_addTags.trans (Nat.zero_add _)

theorem tagCount_treAddTags {tree : Ast} {k : ℕ} (h : Tagless tree) :
    tagCount k (treAddTags tree).1 = if k < (treAddTags tree).2.numTags then 1 else 0 := by
  have hk : tagCount k (treAddTags tree).1 = dealt 0 1 (countTags tree false).1 k :=
    (dealt_addTags h).count_eq k
  rw [numTags_treAddTags, hk]
  simp only [dealt]
  split_ifs <;> omega

/-- The tag that comes next is the `end_tag`. -/
theorem tag_addTags_start {tree : Ast} (h : Tagless tree) :
    (addTags tree Tagging.start).2.tag = (treAddTags tree).2.numTags := by
  rw [(dealt_addTags h).tag_eq, numTags_treAddTags]
  show tagBehind 0 1 (countTags tree false).1 = _
  simp only [tagBehind]
  split_ifs <;> omega

/-- What a submatch refers to is a tag, or the end of the match. -/
theorem submatchData_le {tree : Ast} {id : ℕ} (h : Tagless tree) :
    ((treAddTags tree).2.submatchData id).soTag ≤ (treAddTags tree).2.numTags ∧
      ((treAddTags tree).2.submatchData id).eoTag ≤ (treAddTags tree).2.numTags := by
  have hle : ∀ k, k = 0 ∨ 0 < tagCount k (addTags tree Tagging.start).1 →
      k ≤ (treAddTags tree).2.numTags := by
    rintro k (rfl | hk)
    · exact Nat.zero_le _
    · have hcount : tagCount k (addTags tree Tagging.start).1 = _ := tagCount_treAddTags h
      by_contra hlt
      rw [hcount, if_neg (fun hk => hlt hk.le)] at hk
      exact absurd hk (Nat.lt_irrefl 0)
  have hdata : (treAddTags tree).2.submatchData id = _ :=
    @trePurgeRegset_apply id _ (addTags tree Tagging.start).2.regset _
  obtain ⟨hso, heo⟩ := @refers_addTags tree Tagging.start id
  rw [hdata, tag_addTags_start h]
  constructor
  · dsimp only
    split
    · exact Nat.le_refl _
    · exact hle _ hso
  · dsimp only
    split
    · exact Nat.le_refl _
    · exact hle _ heo

/-- **The tags of the tree are the numbers below `num_tags`**, each of them once, and `num_tags` is what the
first pass has counted.  The submatches refer to these tags and to the `end_tag`. -/
theorem treAddTags_tags (tree : Ast) (h : Tagless tree) :
    (treAddTags tree).2.numTags = (countTags tree false).1 ∧
      (∀ k, tagCount k (treAddTags tree).1 = if k < (treAddTags tree).2.numTags then 1 else 0) ∧
      ∀ id, ((treAddTags tree).2.submatchData id).soTag ≤ (treAddTags tree).2.numTags ∧
        ((treAddTags tree).2.submatchData id).eoTag ≤ (treAddTags tree).2.numTags :=
  ⟨numTags_treAddTags, fun _ => tagCount_treAddTags h, fun _ => submatchData_le h⟩

/-- The pattern `a*`, as the whole match. -/
theorem treAddTags_tags_star :
    let r := treAddTags (.iteration (some 0) (.literal none (.char 0 ⟨0x61, 0x61, none, []⟩)) 0 none)
    ∀ k, tagCount k r.1 = if k < r.2.numTags then 1 else 0 :=
  (treAddTags_tags (.iteration (some 0) (.literal none (.char 0 ⟨0x61, 0x61, none, []⟩)) 0 none)
    trivial).2.1

end Tre
end UtilWin
