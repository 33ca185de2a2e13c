import UtilWin.Regex.Positions

/-!
# From the tree to the automaton

`tre_compute_nfl` finds for every part of the tree whether it matches the empty string, and the
positions at which a match of the part can begin and end.  From these `tre_ast_to_tnfa` makes the
transitions: where one part follows another, and where a part follows itself.  It runs twice, first to
count, then to fill the tables that have been allocated by the counts (`treAstToTnfa_room`).

What has to be asserted on the way through a part that is passed over is put to the positions behind it.
If there are several ways through the part, `tre_match_empty` takes one.

A state of the automaton is an array of transitions that begins at an offset of its own; here it is
named by its position.  The first pass of `tre_match_empty`, which counts tags to allocate room for
them, is left out.
-/

namespace UtilWin
namespace Tre

open Glob (Str has)

/-- `tre_pos_and_tags_t`.  Its `code_min`, `code_max`, `class` and `neg_classes` are `lit`, and `-1` for
`backref` is `none`. -/
structure PosAndTags where
  position : ℕ
  lit : Literal
  tags : List ℕ
  assertions : Assertions
  backref : Option ℕ
  deriving DecidableEq

/-- `tre_set_one`. -/
def treSetOne (position : ℕ) (lit : Literal) (backref : Option ℕ) : List PosAndTags :=
  [⟨position, lit, [], 0, backref⟩]

/-- `tre_set_union`. -/
def treSetUnion (set1 set2 : List PosAndTags) (tags : List ℕ) (assertions : Assertions) :
    List PosAndTags :=
  set1.map (fun p =>
    { p with tags := p.tags ++ tags, assertions := p.assertions ||| assertions }) ++ set2

/-- `nullable`. -/
def nullable : Ast → Bool
  | .literal _ (.char _ _) => false
  | .literal _ (.backref _ _) => false
  | .literal _ .empty => true
  | .literal _ (.assertion _) => true
  | .literal _ (.tag _) => true
  | .catenation _ left right => nullable left && nullable right
  | .iteration _ arg min _ => min = 0 || nullable arg
  | .union _ left right => nullable left || nullable right

/-- `tre_match_empty`, which adds to the tags and assertions.  The source asserts that it is not called
for a part that is not nullable. -/
def treMatchEmpty : Ast → List ℕ × Assertions → List ℕ × Assertions
  | .literal _ (.tag id), acc => (if id ∈ acc.1 then acc.1 else acc.1 ++ [id], acc.2)
  | .literal _ (.assertion a), acc => (acc.1, acc.2 ||| a.bit)
  | .literal _ .empty, acc => acc
  | .literal _ (.char _ _), acc => acc
  | .literal _ (.backref _ _), acc => acc
  | .union _ left right, acc =>
    if nullable left then treMatchEmpty left acc else treMatchEmpty right acc
  -- the right side is on top of the stack
  | .catenation _ left right, acc => treMatchEmpty left (treMatchEmpty right acc)
  | .iteration _ arg _ _, acc => if nullable arg then treMatchEmpty arg acc else acc

/-- The tags and assertions on the way through a part that is passed over. -/
def emptyPath (ast : Ast) : List ℕ × Assertions := treMatchEmpty ast ([], 0)

/-- `firstpos`. -/
def firstpos : Ast → List PosAndTags
  | .literal _ (.char position lit) =>
    treSetOne position ⟨lit.codeMin, lit.codeMax, none, []⟩ none
  | .literal _ (.backref position _) => treSetOne position ⟨0, treCharMax, none, []⟩ none
  | .literal _ .empty => []
  | .literal _ (.assertion _) => []
  | .literal _ (.tag _) => []
  | .union _ left right => treSetUnion (firstpos left) (firstpos right) [] 0
  | .iteration _ arg _ _ => firstpos arg
  | .catenation _ left right =>
    if nullable left then
      treSetUnion (firstpos right) (firstpos left) (emptyPath left).1 (emptyPath left).2
    else firstpos left

/-- `lastpos`. -/
def lastpos : Ast → List PosAndTags
  | .literal _ (.char position lit) => treSetOne position lit none
  | .literal _ (.backref position number) =>
    treSetOne position ⟨0, treCharMax, none, []⟩ (some number)
  | .literal _ .empty => []
  | .literal _ (.assertion _) => []
  | .literal _ (.tag _) => []
  | .union _ left right => treSetUnion (lastpos left) (lastpos right) [] 0
  | .iteration _ arg _ _ => lastpos arg
  | .catenation _ left right =>
    if nullable right then
      treSetUnion (lastpos left) (lastpos right) (emptyPath right).1 (emptyPath right).2
    else lastpos right

/-! ## Transitions -/

/-- The conversion to a `tre_cint_t`, which has 16 bits on Windows. -/
def cint (code : ℤ) : ℤ := code % 0x10000

/-- `tre_tnfa_transition_t`. -/
structure Transition where
  codeMin : ℤ
  codeMax : ℤ
  stateId : ℕ
  tags : List ℕ
  assertions : Assertions
  cls : Option Str
  backref : Option ℕ
  negClasses : List Str
  deriving DecidableEq

/-- The transition that `tre_make_trans` makes from one position to another. -/
def transition (p1 p2 : PosAndTags) : Transition where
  codeMin := cint p1.lit.codeMin
  codeMax := cint p1.lit.codeMax
  stateId := p2.position
  tags := p1.tags ++ p2.tags.filter (· ∉ p1.tags)
  assertions := p1.assertions ||| p2.assertions |||
    (if p1.lit.cls.isSome then assertCharClass else 0) |||
    (if p1.lit.negClasses ≠ [] then assertCharClassNeg else 0) |||
    if p1.backref.isSome then assertBackref else 0
  cls := if p1.backref.isSome then none else p1.lit.cls
  backref := p1.backref
  negClasses := p1.lit.negClasses

/-- The positions that `tre_make_trans` does not skip, with `prev_p2_pos`. -/
def unhandled (prevP2Pos : Option ℕ) : List PosAndTags → List PosAndTags
  | [] => []
  | p2 :: rest =>
    if prevP2Pos = some p2.position then unhandled prevP2Pos rest
    else p2 :: unhandled (some p2.position) rest

/-- `tre_make_trans`: the transitions in the order in which they are written, with the states they
leave. -/
def treMakeTrans (p1 p2 : List PosAndTags) : List (ℕ × Transition) :=
  p1.flatMap fun p => (unhandled none p2).map fun q => (p.position, transition p q)

/-- `tre_make_trans` without tables: the states whose count grows. -/
def treMakeTransCounts (p1 p2 : List PosAndTags) : List ℕ :=
  p1.flatMap fun p => p2.map fun _ => p.position

/-- `tre_ast_to_tnfa`, with what `tre_make_trans` does as a parameter. -/
def treAstToTnfaWith {α : Type} (makeTrans : List PosAndTags → List PosAndTags → List α) :
    Ast → List α
  | .literal _ _ => []
  | .union _ left right =>
    treAstToTnfaWith makeTrans left ++ treAstToTnfaWith makeTrans right
  | .catenation _ left right =>
    makeTrans (lastpos left) (firstpos right) ++
      (treAstToTnfaWith makeTrans left ++ treAstToTnfaWith makeTrans right)
  | .iteration _ arg _ max =>
    (if max = none then makeTrans (lastpos arg) (firstpos arg) else []) ++
      treAstToTnfaWith makeTrans arg

/-- `tre_ast_to_tnfa`. -/
def treAstToTnfa : Ast → List (ℕ × Transition) := treAstToTnfaWith treMakeTrans

/-- `tre_ast_to_tnfa` without tables. -/
def treAstToTnfaCounts : Ast → List ℕ := treAstToTnfaWith treMakeTransCounts

/-- An entry of the array `initial`. -/
structure Initial where
  stateId : ℕ
  tags : List ℕ
  assertions : Assertions
  deriving DecidableEq

/-- Of a `tre_tnfa_t`, the automaton. -/
structure Tnfa where
  /-- The array of transitions that begins at the offset of a state. -/
  transitions : ℕ → List Transition
  initial : List Initial
  final : ℕ
  numStates : ℕ

/-- The part of `regcomp` behind `tre_expand_ast`, for a tree with `position` positions. -/
def toTnfa (ast : Ast) (position : ℕ) : Tnfa :=
  let tree : Ast := .catenation none ast (.literal none (.char position ⟨0, 0, none, []⟩))
  { transitions := fun state =>
      (treAstToTnfa tree).filterMap fun t => if t.1 = state then some t.2 else none
    initial := (firstpos tree).map fun p => ⟨p.position, p.tags, p.assertions⟩
    final := ((lastpos tree).head?.map PosAndTags.position).getD 0
    numStates := position + 1 }

/-! ## The room for the transitions -/

variable {a left right : Ast} {p q state : ℕ} {s s1 s2 : List PosAndTags} {prev : Option ℕ}

theorem unhandled_sublist : (unhandled prev s).Sublist s := by
  induction s generalizing prev with
  | nil => exact List.Sublist.refl []
  | cons p2 rest ih =>
    rw [unhandled]
    split
    · exact ih.cons p2
    · exact ih.cons_cons p2

/-- The transitions from a state in a list of transitions with their states. -/
theorem count_fst (l : List (ℕ × Transition)) :
    (l.filterMap fun t => if t.1 = state then some t.2 else none).length =
      (l.map Prod.fst).count state := by
  induction l with
  | nil => rfl
  | cons t l ih =>
    rw [List.filterMap_cons, List.map_cons, List.count_cons]
    by_cases h : t.1 = state
    · simp [h, ih]
    · simp [h, ih]

/-- One call of `tre_make_trans` writes at most as many transitions from a state as it has
counted. -/
theorem treMakeTrans_room :
    ((treMakeTrans s1 s2).map Prod.fst).count state ≤ (treMakeTransCounts s1 s2).count state := by
  induction s1 with
  | nil => exact Nat.le_refl _
  | cons p s1 ih =>
    have hone : (((unhandled none s2).map fun q => (p.position, transition p q)).map
        Prod.fst).count state ≤ (s2.map fun _ => p.position).count state := by
      rw [List.map_map]
      exact List.Sublist.count_le _ (unhandled_sublist.map _)
    simp only [treMakeTrans, treMakeTransCounts, List.flatMap_cons, List.map_append,
      List.count_append] at ih ⊢
    exact Nat.add_le_add hone ih

theorem treAstToTnfa_count :
    ((treAstToTnfa a).map Prod.fst).count state ≤ (treAstToTnfaCounts a).count state := by
  simp only [treAstToTnfa, treAstToTnfaCounts]
  induction a with
  | literal _ _ => exact Nat.le_refl _
  | union _ left right ihl ihr =>
    simp only [treAstToTnfaWith, List.map_append, List.count_append]
    exact Nat.add_le_add ihl ihr
  | catenation _ left right ihl ihr =>
    simp only [treAstToTnfaWith, List.map_append, List.count_append]
    exact Nat.add_le_add treMakeTrans_room (Nat.add_le_add ihl ihr)
  | iteration _ arg _ max ih =>
    simp only [treAstToTnfaWith, List.map_append, List.count_append]
    refine Nat.add_le_add ?_ ih
    split
    · exact treMakeTrans_room
    · exact Nat.le_refl _

theorem position_of_mem_union {tags : List ℕ} {as : Assertions} {x : PosAndTags}
    (h : x ∈ treSetUnion s1 s2 tags as) :
    (∃ y ∈ s1, x = { y with tags := y.tags ++ tags, assertions := y.assertions ||| as }) ∨
      x ∈ s2 := by
  rcases List.mem_append.mp h with h | h
  · obtain ⟨y, hy, rfl⟩ := List.mem_map.mp h
    exact .inl ⟨y, hy, rfl⟩
  · exact .inr h

/-- Where a match begins is a position of the tree. -/
theorem firstpos_mem : ∀ x ∈ firstpos a, x.position ∈ positions a := by
  induction a with
  | literal _ leaf => cases leaf <;> simp [firstpos, treSetOne, positions, Leaf.positions]
  | union _ left right ihl ihr =>
    intro x hx
    rcases position_of_mem_union hx with ⟨y, hy, rfl⟩ | hx
    · exact List.mem_append_left _ (ihl y hy)
    · exact List.mem_append_right _ (ihr x hx)
  | catenation _ left right ihl ihr =>
    intro x hx
    rw [firstpos] at hx
    split at hx
    · rcases position_of_mem_union hx with ⟨y, hy, rfl⟩ | hx
      · exact List.mem_append_right _ (ihr y hy)
      · exact List.mem_append_left _ (ihl x hx)
    · exact List.mem_append_left _ (ihl x hx)
  | iteration _ arg _ _ ih => exact ih

/-- Where a match ends is a position of the tree. -/
theorem lastpos_mem : ∀ x ∈ lastpos a, x.position ∈ positions a := by
  induction a with
  | literal _ leaf => cases leaf <;> simp [lastpos, treSetOne, positions, Leaf.positions]
  | union _ left right ihl ihr =>
    intro x hx
    rcases position_of_mem_union hx with ⟨y, hy, rfl⟩ | hx
    · exact List.mem_append_left _ (ihl y hy)
    · exact List.mem_append_right _ (ihr x hx)
  | catenation _ left right ihl ihr =>
    intro x hx
    rw [lastpos] at hx
    split at hx
    · rcases position_of_mem_union hx with ⟨y, hy, rfl⟩ | hx
      · exact List.mem_append_left _ (ihl y hy)
      · exact List.mem_append_right _ (ihr x hx)
    · exact List.mem_append_right _ (ihr x hx)
  | iteration _ arg _ _ ih => exact ih

theorem mem_treMakeTrans {tr : Transition} :
    (p, tr) ∈ treMakeTrans s1 s2 ↔
      ∃ x ∈ s1, ∃ y ∈ unhandled none s2, x.position = p ∧ transition x y = tr := by
  simp [treMakeTrans]

/-- A transition goes from a position of the tree to another one. -/
theorem treAstToTnfa_mem {tr : Transition} (h : (p, tr) ∈ treAstToTnfa a) :
    p ∈ positions a ∧ tr.stateId ∈ positions a := by
  rw [treAstToTnfa] at h
  induction a with
  | literal _ _ => exact absurd h List.not_mem_nil
  | union _ left right ihl ihr =>
    rcases List.mem_append.mp h with h | h
    · exact (ihl h).imp (List.mem_append_left _) (List.mem_append_left _)
    · exact (ihr h).imp (List.mem_append_right _) (List.mem_append_right _)
  | catenation _ left right ihl ihr =>
    rcases List.mem_append.mp h with h | h
    · obtain ⟨x, hx, y, hy, rfl, rfl⟩ := mem_treMakeTrans.mp h
      exact ⟨List.mem_append_left _ (lastpos_mem x hx),
        List.mem_append_right _ (firstpos_mem y (unhandled_sublist.mem hy))⟩
    · rcases List.mem_append.mp h with h | h
      · exact (ihl h).imp (List.mem_append_left _) (List.mem_append_left _)
      · exact (ihr h).imp (List.mem_append_right _) (List.mem_append_right _)
  | iteration _ arg _ max ih =>
    rcases List.mem_append.mp h with h | h
    · split at h
      · obtain ⟨x, hx, y, hy, rfl, rfl⟩ := mem_treMakeTrans.mp h
        exact ⟨lastpos_mem x hx, firstpos_mem y (unhandled_sublist.mem hy)⟩
      · exact absurd h List.not_mem_nil
    · exact ih h

theorem mem_transitions {ast : Ast} {position : ℕ} {tr : Transition} :
    tr ∈ (toTnfa ast position).transitions state ↔
      (state, tr) ∈ treAstToTnfa
        (.catenation none ast (.literal none (.char position ⟨0, 0, none, []⟩))) := by
  rw [toTnfa, List.mem_filterMap]
  constructor
  · rintro ⟨⟨p, tr'⟩, hmem, h⟩
    split at h
    · next hp =>
      obtain rfl : p = state := hp
      obtain rfl : tr' = tr := Option.some_inj.mp h
      exact hmem
    · cases h
  · intro h
    exact ⟨(state, tr), h, if_pos rfl⟩

/-- **The tables of the automaton are large enough.**  For a tree with its positions below `position`,
the pass that fills the tables writes no more transitions to a state than the pass before has counted
for it, and all states that occur are below `numStates`. -/
theorem toTnfa_room (ast : Ast) (position : ℕ) (h : ∀ p ∈ positions ast, p < position) :
    let tnfa := toTnfa ast position
    (∀ state, (tnfa.transitions state).length ≤ (treAstToTnfaCounts
      (.catenation none ast (.literal none (.char position ⟨0, 0, none, []⟩)))).count state) ∧
    (∀ state, ∀ tr ∈ tnfa.transitions state, state < tnfa.numStates ∧ tr.stateId < tnfa.numStates) ∧
    (∀ i ∈ tnfa.initial, i.stateId < tnfa.numStates) ∧ tnfa.final = position := by
  have hlt : ∀ p ∈ positions (.catenation none ast (.literal none (.char position ⟨0, 0, none, []⟩))),
      p < position + 1 := by
    intro p hp
    rcases List.mem_append.mp hp with hp | hp
    · exact Nat.lt_succ_of_lt (h p hp)
    · rw [List.mem_singleton.mp hp]
      exact Nat.lt_succ_self position
  refine ⟨fun state => ?_, fun state tr htr => ?_, fun i hi => ?_, rfl⟩
  · rw [toTnfa, count_fst]
    exact treAstToTnfa_count
  · obtain ⟨h₁, h₂⟩ := treAstToTnfa_mem (mem_transitions.mp htr)
    exact ⟨hlt _ h₁, hlt _ h₂⟩
  · obtain ⟨x, hx, rfl⟩ := List.mem_map.mp hi
    exact hlt _ (firstpos_mem x hx)

end Tre
end UtilWin
