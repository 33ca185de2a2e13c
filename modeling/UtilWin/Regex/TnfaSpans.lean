import UtilWin.Regex.Tnfa

/-!
# The automaton and the tree

Every part of a tree is a fragment of the automaton: it is entered at the positions of `firstpos` and
left at those of `lastpos`, the transitions that `tre_ast_to_tnfa` makes for it lead from one of its
positions to another, and it may be passed by if it is nullable and what is asserted on the way holds.

Putting two parts together is putting the fragments together: a catenation is a sequence, a union
are alternatives, and an iteration is a loop, with another condition for being passed by.  The only
part of the automaton for which this is not so is a bracket expression.  Its leaves have one position
in common, and together they are one state.

So the automaton finds nothing that the tree does not span (`span_of_frag`).  It finds everything if
there is only one way to pass a part by (`frag_of_span`): `tre_match_empty` takes the left one of two
alternatives, and takes a part that is repeated in preference to leaving it out, and what is asserted
there is then asserted in any case.
-/

namespace UtilWin
namespace Tre

open Glob (Str has)

/-! ## Sets of assertions -/

variable {T : Type} {R : Reading T} {a left right arg : Ast} {sid : Option ℕ} {t u : T} {p q : ℕ}
  {as bs : Assertions} {min : ℕ} {max : Option ℕ}

theorem has_or {f : BitVec 32} : has (as ||| bs) f = (has as f || has bs f) := by
  rw [Bool.eq_iff_iff, Bool.or_eq_true]
  simp only [has, decide_eq_true_eq, BitVec.and_or_distrib_right, ne_eq, BitVec.ofNat_eq_ofNat,
    BitVec.or_eq_zero_iff, not_and_or]

/-- The assertions of a bitmap hold. -/
def HoldsAll (R : Reading T) (as : Assertions) (t : T) : Prop :=
  ∀ x : Assertion, has as x.bit = true → R.holds x t

@[simp] theorem holdsAll_zero : HoldsAll R 0#32 t := fun x h => by simp [has] at h

@[simp] theorem holdsAll_or : HoldsAll R (as ||| bs) t ↔ HoldsAll R as t ∧ HoldsAll R bs t := by
  constructor
  · intro h
    exact ⟨fun x hx => h x (by rw [has_or, hx, Bool.true_or]),
      fun x hx => h x (by rw [has_or, hx, Bool.or_true])⟩
  · rintro ⟨ha, hb⟩ x hx
    rw [has_or, Bool.or_eq_true] at hx
    exact hx.elim (ha x) (hb x)

theorem has_bit {x y : Assertion} : has x.bit y.bit = true ↔ x = y := by
  cases x <;> cases y <;> decide

@[simp] theorem holdsAll_bit {x : Assertion} : HoldsAll R x.bit t ↔ R.holds x t := by
  constructor
  · intro h
    exact h x (has_bit.mpr rfl)
  · intro h y hy
    rwa [← has_bit.mp hy]

/-- The bits about classes assert nothing by themselves. -/
theorem holdsAll_mark {c : Prop} [Decidable c] :
    HoldsAll R (if c then assertCharClass else 0) t ∧
      HoldsAll R (if c then assertCharClassNeg else 0) t := by
  have hcls : ∀ x : Assertion, has assertCharClass x.bit ≠ true := by
    intro x
    cases x <;> decide
  have hneg : ∀ x : Assertion, has assertCharClassNeg x.bit ≠ true := by
    intro x
    cases x <;> decide
  constructor <;> split <;> first | exact holdsAll_zero | skip
  · exact fun x h => absurd h (hcls x)
  · exact fun x h => absurd h (hneg x)

/-! ## Parts of the tree as fragments -/

/-- The literal with its codes as a transition has them. -/
def Literal.cint (lit : Literal) : Literal :=
  { lit with codeMin := Tre.cint lit.codeMin, codeMax := Tre.cint lit.codeMax }

/-- The reading of the literals as transitions have them. -/
def Reading.cint (R : Reading T) : Reading T := { R with reads := fun lit => R.reads lit.cint }

/-- A transition can be taken, from one time to the other. -/
def Fires (R : Reading T) (tr : Transition) (t u : T) : Prop :=
  R.reads ⟨tr.codeMin, tr.codeMax, tr.cls, tr.negClasses⟩ t u ∧ HoldsAll R tr.assertions u

/-- A part of the tree as a part of the automaton. -/
def frag (R : Reading T) (a : Ast) : Fragment ℕ T where
  states := {p | p ∈ positions a}
  enter q t := ∃ x ∈ firstpos a, x.position = q ∧ HoldsAll R x.assertions t
  leave q t u := ∃ x ∈ lastpos a, x.position = q ∧ R.reads x.lit.cint t u ∧ HoldsAll R x.assertions u
  move q t q' u := ∃ tr, (q, tr) ∈ treAstToTnfa a ∧ tr.stateId = q' ∧ Fires R tr t u
  empty t := nullable a = true ∧ HoldsAll R (emptyPath a).2 t
  enter_mem := by
    rintro q t ⟨x, hx, rfl, -⟩
    exact firstpos_mem x hx
  leave_mem := by
    rintro q t u ⟨x, hx, rfl, -⟩
    exact lastpos_mem x hx
  move_mem := by
    rintro q t q' u ⟨tr, htr, rfl, -⟩
    exact treAstToTnfa_mem htr

theorem frag_apart (h : ∀ p ∈ positions left, p ∉ positions right) :
    (frag R left).Apart (frag R right) := h

/-- There are no back references in the tree. -/
def NoBackrefs : Ast → Prop
  | .literal _ (.backref _ _) => False
  | .literal _ (.char _ _) | .literal _ .empty | .literal _ (.assertion _)
  | .literal _ (.tag _) => True
  | .catenation _ left right => NoBackrefs left ∧ NoBackrefs right
  | .iteration _ arg _ _ => NoBackrefs arg
  | .union _ left right => NoBackrefs left ∧ NoBackrefs right

theorem exists_mem_treSetUnion {s1 s2 : List PosAndTags} {tags : List ℕ}
    {P : Literal → Assertions → Prop} :
    (∃ x ∈ treSetUnion s1 s2 tags as, x.position = q ∧ P x.lit x.assertions) ↔
      (∃ x ∈ s1, x.position = q ∧ P x.lit (x.assertions ||| as)) ∨
        ∃ x ∈ s2, x.position = q ∧ P x.lit x.assertions := by
  constructor
  · rintro ⟨x, hx, hq, hP⟩
    rcases position_of_mem_union hx with ⟨y, hy, rfl⟩ | hx
    · exact .inl ⟨y, hy, hq, hP⟩
    · exact .inr ⟨x, hx, hq, hP⟩
  · rintro (⟨x, hx, hq, hP⟩ | ⟨x, hx, hq, hP⟩)
    · exact ⟨_, List.mem_append_left _ (List.mem_map_of_mem hx), hq, hP⟩
    · exact ⟨x, List.mem_append_right _ hx, hq, hP⟩

theorem lastpos_backref (h : NoBackrefs a) : ∀ x ∈ lastpos a, x.backref = none := by
  induction a with
  | literal _ leaf =>
    cases leaf with
    | backref _ _ => exact h.elim
    | char _ _ => simp [lastpos, treSetOne]
    | empty => simp [lastpos]
    | assertion _ => simp [lastpos]
    | tag _ => simp [lastpos]
  | union _ left right ihl ihr =>
    intro x hx
    rcases position_of_mem_union hx with ⟨y, hy, rfl⟩ | hx
    · exact ihl h.1 y hy
    · exact ihr h.2 x hx
  | catenation _ left right ihl ihr =>
    intro x hx
    rw [lastpos] at hx
    split at hx
    · rcases position_of_mem_union hx with ⟨y, hy, rfl⟩ | hx
      · exact ihl h.1 y hy
      · exact ihr h.2 x hx
    · exact ihr h.2 x hx
  | iteration _ arg _ _ ih => exact ih h

/-- A transition is taken when its label is read, and what was asserted at both of its ends holds
behind it. -/
theorem fires_transition {x y : PosAndTags} (hx : x.backref = none) :
    Fires R (transition x y) t u ↔
      R.reads x.lit.cint t u ∧ HoldsAll R x.assertions u ∧ HoldsAll R y.assertions u := by
  have hcls := (holdsAll_mark (R := R) (t := u) (c := x.lit.cls.isSome = true)).1
  have hneg := (holdsAll_mark (R := R) (t := u) (c := x.lit.negClasses ≠ [])).2
  simp only [BitVec.ofNat_eq_ofNat] at hcls hneg
  simp only [Fires, transition, hx, Option.isSome_none, Bool.false_eq_true, if_false, holdsAll_or,
    hcls, hneg, BitVec.ofNat_eq_ofNat, holdsAll_zero, and_true]
  rfl

/-! ### Passing a part by -/

/-- The assertions are added to those that are there. -/
theorem treMatchEmpty_snd (acc : List ℕ × Assertions) :
    (treMatchEmpty a acc).2 = acc.2 ||| (emptyPath a).2 := by
  rw [emptyPath]
  induction a generalizing acc with
  | literal _ leaf => cases leaf <;> simp [treMatchEmpty]
  | union _ left right ihl ihr =>
    simp only [treMatchEmpty]
    split
    · exact ihl acc
    · exact ihr acc
  | catenation _ left right ihl ihr =>
    simp only [treMatchEmpty]
    rw [ihl, ihr, ihl (treMatchEmpty right ([], 0)), BitVec.or_assoc]
  | iteration _ arg _ _ ih =>
    simp only [treMatchEmpty]
    split
    · exact ih acc
    · simp

theorem emptyPath_catenation :
    (emptyPath (.catenation sid left right)).2 = (emptyPath right).2 ||| (emptyPath left).2 := by
  rw [emptyPath, treMatchEmpty, treMatchEmpty_snd]
  rfl

theorem emptyPath_union : (emptyPath (.union sid left right)).2 =
    if nullable left then (emptyPath left).2 else (emptyPath right).2 := by
  rw [emptyPath, treMatchEmpty]
  split <;> rfl

theorem emptyPath_iteration : (emptyPath (.iteration sid arg min max)).2 =
    if nullable arg then (emptyPath arg).2 else 0 := by
  rw [emptyPath, treMatchEmpty]
  split <;> rfl

/-! ### Putting parts together -/

open Fragment

/-- Entries with the same position assert the same, so nothing is lost where one of them is skipped. -/
def Uniform (s : List PosAndTags) : Prop :=
  ∀ x ∈ s, ∀ y ∈ s, x.position = y.position → x.assertions = y.assertions

theorem exists_unhandled {s : List PosAndTags} {x : PosAndTags} (hx : x ∈ s) (prev : Option ℕ) :
    (∃ y ∈ unhandled prev s, y.position = x.position) ∨ prev = some x.position := by
  induction s generalizing prev with
  | nil => exact absurd hx List.not_mem_nil
  | cons p2 rest ih =>
    rw [unhandled]
    rcases List.mem_cons.mp hx with rfl | hx
    · split
      · exact .inr ‹_›
      · exact .inl ⟨x, List.mem_cons_self, rfl⟩
    · split
      · exact ih hx prev
      · rcases ih hx (some p2.position) with ⟨y, hy, hpos⟩ | hpos
        · exact .inl ⟨y, List.mem_cons_of_mem _ hy, hpos⟩
        · exact .inl ⟨p2, List.mem_cons_self, Option.some_inj.mp hpos⟩

/-- **The transitions of one call of `tre_make_trans`** lead from where the one part is left to where
the other one is entered. -/
theorem exists_mem_treMakeTrans {s1 s2 : List PosAndTags} (h1 : ∀ x ∈ s1, x.backref = none)
    (h2 : Uniform s2) :
    (∃ tr, (p, tr) ∈ treMakeTrans s1 s2 ∧ tr.stateId = q ∧ Fires R tr t u) ↔
      (∃ x ∈ s1, x.position = p ∧ R.reads x.lit.cint t u ∧ HoldsAll R x.assertions u) ∧
        ∃ y ∈ s2, y.position = q ∧ HoldsAll R y.assertions u := by
  constructor
  · rintro ⟨tr, htr, rfl, hfires⟩
    obtain ⟨x, hx, y, hy, rfl, rfl⟩ := mem_treMakeTrans.mp htr
    obtain ⟨hreads, has, has'⟩ := (fires_transition (h1 x hx)).mp hfires
    exact ⟨⟨x, hx, rfl, hreads, has⟩, y, unhandled_sublist.mem hy, rfl, has'⟩
  · rintro ⟨⟨x, hx, rfl, hreads, has⟩, y, hy, rfl, has'⟩
    rcases exists_unhandled hy none with ⟨z, hz, hpos⟩ | hpos
    · have hassert := h2 z (unhandled_sublist.mem hz) y hy hpos
      refine ⟨transition x z, mem_treMakeTrans.mpr ⟨x, hx, z, hz, rfl, rfl⟩, hpos, ?_⟩
      exact (fires_transition (h1 x hx)).mpr ⟨hreads, has, hassert ▸ has'⟩
    · cases hpos

/-- The parts of a tree are told by their positions, bracket expressions apart. -/
def Linear : Ast → Prop
  | .literal _ _ => True
  | .catenation _ left right =>
    Linear left ∧ Linear right ∧ ∀ p ∈ positions left, p ∉ positions right
  | .iteration _ arg _ _ => Linear arg
  | .union _ left right => (∃ p, OneState p left ∧ OneState p right) ∨
    (Linear left ∧ Linear right ∧ ∀ p ∈ positions left, p ∉ positions right)

theorem Apart.disjoint {lo hi : ℕ} (h : Apart (Laid left) (Laid right) lo hi) :
    ∀ p ∈ positions left, p ∉ positions right := by
  obtain ⟨mid, ⟨h₁, h₂⟩ | ⟨h₂, h₁⟩⟩ := h
  all_goals
    intro p hl hr
    have hl := h₁.mem p hl
    have hr := h₂.mem p hr
    omega

/-- A tree whose parts have intervals of their own. -/
theorem Laid.linear {lo hi : ℕ} (h : Laid a lo hi) : Linear a := by
  have sides : ∀ {A B : ℕ → ℕ → Prop} {lo hi : ℕ}, Apart A B lo hi →
      (∃ x y, A x y) ∧ ∃ x y, B x y := by
    rintro A B lo hi ⟨mid, ⟨h₁, h₂⟩ | ⟨h₁, h₂⟩⟩
    · exact ⟨⟨_, _, h₁⟩, _, _, h₂⟩
    · exact ⟨⟨_, _, h₂⟩, _, _, h₁⟩
  induction a generalizing lo hi with
  | literal _ _ => trivial
  | catenation _ left right ihl ihr =>
    obtain ⟨⟨_, _, hl⟩, _, _, hr⟩ := sides h
    exact ⟨ihl hl, ihr hr, h.disjoint⟩
  | iteration _ arg _ _ ih => exact ih h
  | union _ left right ihl ihr =>
    rcases h with ⟨p, -, -, hone⟩ | h
    · exact .inl ⟨p, hone⟩
    · obtain ⟨⟨_, _, hl⟩, _, _, hr⟩ := sides h
      exact .inr ⟨ihl hl, ihr hr, h.disjoint⟩

theorem OneState.not_nullable (h : OneState p a) : nullable a = false := by
  induction a with
  | literal _ leaf =>
    cases leaf with
    | char _ _ => rfl
    | empty => exact h.elim
    | assertion _ => exact h.elim
    | tag _ => exact h.elim
    | backref _ _ => exact h.elim
  | catenation _ left right ihl ihr =>
    rw [nullable]
    rcases h with ⟨-, hr⟩ | ⟨hl, -⟩
    · rw [ihr hr, Bool.and_false]
    · rw [ihl hl, Bool.false_and]
  | iteration _ _ _ _ => exact h.elim
  | union _ left right ihl ihr => rw [nullable, ihl h.1, ihr h.2, Bool.or_self]

/-- A part that can always be passed by, and in no other way. -/
structure Passes (a : Ast) : Prop where
  nullable : nullable a = true
  assertions : (emptyPath a).2 = 0
  firstpos : firstpos a = []
  lastpos : lastpos a = []
  transitions : treAstToTnfa a = []

theorem Void.passes (h : Void a) : Passes a := by
  induction a with
  | literal _ leaf =>
    cases leaf with
    | char _ _ => exact h.elim
    | empty => exact ⟨rfl, rfl, rfl, rfl, rfl⟩
    | assertion _ => exact h.elim
    | tag _ => exact ⟨rfl, rfl, rfl, rfl, rfl⟩
    | backref _ _ => exact h.elim
  | catenation _ left right ihl ihr =>
    specialize ihl h.1
    specialize ihr h.2
    have htrans : treAstToTnfaWith treMakeTrans left = [] := ihl.transitions
    have htrans' : treAstToTnfaWith treMakeTrans right = [] := ihr.transitions
    constructor
    · rw [Tre.nullable, ihl.nullable, ihr.nullable, Bool.and_self]
    · rw [emptyPath_catenation, ihl.assertions, ihr.assertions]
      rfl
    · rw [Tre.firstpos, if_pos ihl.nullable, ihl.firstpos, ihr.firstpos]
      rfl
    · rw [Tre.lastpos, if_pos ihr.nullable, ihl.lastpos, ihr.lastpos]
      rfl
    · rw [treAstToTnfa, treAstToTnfaWith, ihl.lastpos, htrans, htrans']
      rfl
  | iteration _ _ _ _ => exact h.elim
  | union _ _ _ => exact h.elim

theorem Void.span (h : Void a) : Span R a = Eq := by
  induction a with
  | literal _ leaf =>
    cases leaf with
    | char _ _ => exact h.elim
    | empty => rfl
    | assertion _ => exact h.elim
    | tag _ => rfl
    | backref _ _ => exact h.elim
  | catenation _ left right ihl ihr =>
    funext t u
    simp [Span, ihl h.1, ihr h.2]
  | iteration _ _ _ _ => exact h.elim
  | union _ _ _ => exact h.elim

theorem OneState.firstpos (h : OneState p a) :
    ∀ x ∈ firstpos a, x.position = p ∧ x.assertions = 0 := by
  induction a with
  | literal _ leaf =>
    cases leaf with
    | char q _ =>
      intro x hx
      rw [List.mem_singleton.mp hx]
      exact ⟨h, rfl⟩
    | empty => exact h.elim
    | assertion _ => exact h.elim
    | tag _ => exact h.elim
    | backref _ _ => exact h.elim
  | catenation _ left right ihl ihr =>
    rw [Tre.firstpos]
    rcases h with ⟨hl, hr⟩ | ⟨hl, -⟩
    · rw [if_pos hl.passes.nullable, hl.passes.firstpos, treSetUnion, List.append_nil]
      intro x hx
      obtain ⟨y, hy, rfl⟩ := List.mem_map.mp hx
      obtain ⟨hpos, hassert⟩ := ihr hr y hy
      exact ⟨hpos, by rw [hassert, hl.passes.assertions]; rfl⟩
    · rw [if_neg (by rw [hl.not_nullable]; exact Bool.false_ne_true)]
      exact ihl hl
  | iteration _ _ _ _ => exact h.elim
  | union _ left right ihl ihr =>
    intro x hx
    rcases position_of_mem_union hx with ⟨y, hy, rfl⟩ | hx
    · obtain ⟨hpos, hassert⟩ := ihl h.1 y hy
      exact ⟨hpos, by rw [hassert]; rfl⟩
    · exact ihr h.2 x hx

/-- Two parts with positions of their own. -/
theorem uniform_treSetUnion {s1 s2 : List PosAndTags} {tags : List ℕ} (h1 : Uniform s1)
    (h2 : Uniform s2) (hne : ∀ x ∈ s1, ∀ y ∈ s2, x.position ≠ y.position) :
    Uniform (treSetUnion s1 s2 tags as) := by
  intro x hx y hy hpos
  rcases position_of_mem_union hx with ⟨x', hx', rfl⟩ | hx'
  · rcases position_of_mem_union hy with ⟨y', hy', rfl⟩ | hy'
    · exact congrArg (· ||| as) (h1 x' hx' y' hy' hpos)
    · exact absurd hpos (hne x' hx' y hy')
  · rcases position_of_mem_union hy with ⟨y', hy', rfl⟩ | hy'
    · exact absurd hpos.symm (hne y' hy' x hx')
    · exact h2 x hx' y hy' hpos

/-- What is asserted in front of a position of the tree does not depend on the entry. -/
theorem uniform_firstpos (h : Linear a) : Uniform (firstpos a) := by
  induction a with
  | literal _ leaf =>
    cases leaf <;> simp [Uniform, firstpos, treSetOne]
  | catenation _ left right ihl ihr =>
    obtain ⟨hl, hr, hdisj⟩ := h
    rw [firstpos]
    split
    · refine uniform_treSetUnion (ihr hr) (ihl hl) fun x hx y hy hpos => ?_
      exact hdisj _ (firstpos_mem y hy) (hpos ▸ firstpos_mem x hx)
    · exact ihl hl
  | iteration _ arg _ _ ih => exact ih h
  | union _ left right ihl ihr =>
    rcases h with ⟨p, hl, hr⟩ | ⟨hl, hr, hdisj⟩
    · intro x hx y hy _
      have hone : OneState p (.union none left right) := ⟨hl, hr⟩
      rw [(hone.firstpos x hx).2, (hone.firstpos y hy).2]
    · refine uniform_treSetUnion (ihl hl) (ihr hr) fun x hx y hy hpos => ?_
      exact hdisj _ (firstpos_mem x hx) (hpos ▸ firstpos_mem y hy)

theorem enter_union : (frag R (.union sid left right)).enter q t ↔
    (frag R left).enter q t ∨ (frag R right).enter q t := by
  have h := @exists_mem_treSetUnion q 0 (firstpos left) (firstpos right) []
    fun _ as => HoldsAll R as t
  simpa [frag, firstpos] using h

theorem leave_union : (frag R (.union sid left right)).leave q t u ↔
    (frag R left).leave q t u ∨ (frag R right).leave q t u := by
  have h := @exists_mem_treSetUnion q 0 (lastpos left) (lastpos right) []
    fun lit as => R.reads lit.cint t u ∧ HoldsAll R as u
  simpa [frag, lastpos] using h

theorem move_union {q' : ℕ} : (frag R (.union sid left right)).move q t q' u ↔
    (frag R left).move q t q' u ∨ (frag R right).move q t q' u := by
  simp [frag, treAstToTnfa, treAstToTnfaWith, or_and_right, exists_or]

/-- A tag in front of a part that is not nullable makes no difference. -/
theorem frag_void_left (h : Void left) (hn : nullable right = false) :
    frag R (.catenation sid left right) = frag R right := by
  apply Fragment.ext
  · ext x
    simp [frag, positions, h.positions]
  · funext q t
    have hunion := @exists_mem_treSetUnion q (emptyPath left).2 (firstpos right) [] (emptyPath left).1
      fun _ as => HoldsAll R as t
    simpa [frag, firstpos, h.passes.nullable, h.passes.firstpos, h.passes.assertions] using hunion
  · funext q t u
    simp [frag, lastpos, hn]
  · funext q t q' u
    have htrans : treAstToTnfaWith treMakeTrans left = [] := h.passes.transitions
    simp [frag, treAstToTnfa, treAstToTnfaWith, treMakeTrans, h.passes.lastpos, htrans]
  · funext t
    simp [frag, nullable, hn]

/-- A tag behind a part that is not nullable makes no difference. -/
theorem frag_void_right (h : Void right) (hn : nullable left = false) :
    frag R (.catenation sid left right) = frag R left := by
  apply Fragment.ext
  · ext x
    simp [frag, positions, h.positions]
  · funext q t
    simp [frag, firstpos, hn]
  · funext q t u
    have hunion := @exists_mem_treSetUnion q (emptyPath right).2 (lastpos left) [] (emptyPath right).1
      fun lit as => R.reads lit.cint t u ∧ HoldsAll R as u
    simpa [frag, lastpos, h.passes.nullable, h.passes.lastpos, h.passes.assertions] using hunion
  · funext q t q' u
    have htrans : treAstToTnfaWith treMakeTrans right = [] := h.passes.transitions
    simp [frag, treAstToTnfa, treAstToTnfaWith, treMakeTrans, unhandled, h.passes.firstpos, htrans]
  · funext t
    simp [frag, nullable, hn]

/-- **A bracket expression is one state.** -/
theorem frag_oneState (h : OneState p a) : frag R a = one p (Span R.cint a) := by
  induction a with
  | literal _ leaf =>
    cases leaf with
    | char q lit =>
      obtain rfl : q = p := h
      ext <;> simp [frag, firstpos, lastpos, treSetOne, positions, Leaf.positions, treAstToTnfa,
        treAstToTnfaWith, nullable, Span, Reading.cint, eq_comm]
    | empty => exact h.elim
    | assertion _ => exact h.elim
    | tag _ => exact h.elim
    | backref _ _ => exact h.elim
  | catenation sid left right ihl ihr =>
    rcases h with ⟨hl, hr⟩ | ⟨hl, hr⟩
    · rw [frag_void_left hl hr.not_nullable, ihr hr]
      congr 1
      funext t u
      simp [Span, hl.span]
    · rw [frag_void_right hr hl.not_nullable, ihl hl]
      congr 1
      funext t u
      simp [Span, hr.span]
  | iteration _ _ _ _ => exact h.elim
  | union _ left right ihl ihr =>
    specialize ihl h.1
    specialize ihr h.2
    apply Fragment.ext
    · ext x
      have hl : x ∈ positions left ↔ x = p := Set.ext_iff.mp (congrArg Fragment.states ihl) x
      have hr : x ∈ positions right ↔ x = p := Set.ext_iff.mp (congrArg Fragment.states ihr) x
      simp [frag, positions, hl, hr]
    · funext q t
      simp [enter_union, ihl, ihr]
    · funext q t u
      simp [leave_union, ihl, ihr, Span, ← and_or_left]
    · funext q t q' u
      simp [move_union, ihl, ihr]
    · funext t
      simp [frag, nullable, h.1.not_nullable, h.2.not_nullable]

/-- **A union is two alternatives**, but for the condition for being passed by. -/
theorem frag_union : frag R (.union sid left right) =
    (alt (frag R left) (frag R right)).withEmpty (frag R (.union sid left right)).empty := by
  apply Fragment.ext
  · ext x
    simp [frag, positions]
  · funext q t
    simp [enter_union]
  · funext q t u
    simp [leave_union]
  · funext q t q' u
    simp [move_union]
  · rfl

theorem enter_catenation : (frag R (.catenation sid left right)).enter q t ↔
    (frag R left).enter q t ∨ ((frag R left).empty t ∧ (frag R right).enter q t) := by
  have h := @exists_mem_treSetUnion q (emptyPath left).2 (firstpos right) (firstpos left)
    (emptyPath left).1 fun _ as => HoldsAll R as t
  by_cases hnull : nullable left = true
  · simp only [frag, firstpos, hnull, if_true, true_and, h, holdsAll_or]
    grind
  · simp [frag, firstpos, hnull]

theorem leave_catenation : (frag R (.catenation sid left right)).leave q t u ↔
    (frag R right).leave q t u ∨ ((frag R left).leave q t u ∧ (frag R right).empty u) := by
  have h := @exists_mem_treSetUnion q (emptyPath right).2 (lastpos left) (lastpos right)
    (emptyPath right).1 fun lit as => R.reads lit.cint t u ∧ HoldsAll R as u
  by_cases hnull : nullable right = true
  · simp only [frag, lastpos, hnull, if_true, true_and, h, holdsAll_or]
    grind
  · simp [frag, lastpos, hnull]

/-- **A catenation is a sequence.** -/
theorem frag_catenation (hback : NoBackrefs left) (hlin : Linear right) :
    frag R (.catenation sid left right) = seq (frag R left) (frag R right) := by
  apply Fragment.ext
  · ext x
    simp [frag, positions]
  · funext q t
    simp [enter_catenation]
  · funext q t u
    simp [leave_catenation]
  · funext q t q' u
    have h := @exists_mem_treMakeTrans T R t u q q' _ _ (lastpos_backref hback)
      (uniform_firstpos hlin)
    simp only [frag, treAstToTnfa, treAstToTnfaWith, List.mem_append, or_and_right, exists_or,
      seq_move, h]
    grind
  · funext t
    simp only [frag, nullable, seq_empty, emptyPath_catenation, holdsAll_or, Bool.and_eq_true]
    grind

/-- **An iteration is a loop**, but for the condition for being passed by. -/
theorem frag_star (hback : NoBackrefs arg) (hlin : Linear arg) :
    frag R (.iteration sid arg min none) =
      (loop (frag R arg)).withEmpty (frag R (.iteration sid arg min none)).empty := by
  apply Fragment.ext
  · rfl
  · rfl
  · rfl
  · funext q t q' u
    have h := @exists_mem_treMakeTrans T R t u q q' _ _ (lastpos_backref hback)
      (uniform_firstpos hlin)
    simp only [frag, treAstToTnfa, treAstToTnfaWith, if_true, List.mem_append, or_and_right,
      exists_or, withEmpty_move, loop_move, h]
    grind
  · rfl

theorem frag_question {m : ℕ} : frag R (.iteration sid arg min (some m)) =
    (frag R arg).withEmpty (frag R (.iteration sid arg min (some m))).empty := by
  apply Fragment.ext
  · rfl
  · rfl
  · rfl
  · funext q t q' u
    simp [frag, treAstToTnfa, treAstToTnfaWith]
  · rfl

theorem span_frag_literal {leaf : Leaf} (h : NoBackrefs (.literal sid leaf)) :
    (frag R (.literal sid leaf)).Span t u ↔ Tre.Span R.cint (.literal sid leaf) t u := by
  cases leaf with
  | char p lit =>
    have hone : OneState p (.literal sid (.char p lit)) := rfl
    rw [frag_oneState hone, span_one]
  | backref _ _ => exact h.elim
  | empty =>
    simp [Fragment.Span, frag, firstpos, emptyPath, treMatchEmpty, nullable, Tre.Span]
  | assertion x =>
    simp [Fragment.Span, frag, firstpos, emptyPath, treMatchEmpty, nullable, Tre.Span, Reading.cint]
  | tag id =>
    simp [Fragment.Span, frag, firstpos, emptyPath, treMatchEmpty, nullable, Tre.Span]

/-! ## The automaton finds nothing else -/

/-- The iterations that are left by `tre_expand_ast`: `*`, `+`, `?`, and once. -/
theorem bounds_of_uncounted (h : expands min max = false) (hmax : ∀ m ∈ max, min ≤ m ∧ 1 ≤ m) :
    (min = 0 ∨ min = 1) ∧ (max = none ∨ max = some 1) := by
  rw [expands, Bool.or_eq_false_iff] at h
  obtain ⟨h₁, h₂⟩ := h
  refine ⟨?_, ?_⟩
  · have := of_decide_eq_false h₁
    omega
  · cases max with
    | none => exact .inl rfl
    | some m =>
      have := of_decide_eq_false h₂
      have := hmax m rfl
      exact .inr (congrArg some (by omega))

/-- Where a union may be passed by, one side of it may be. -/
theorem empty_union (h : (frag R (.union sid left right)).empty t) :
    (frag R left).empty t ∨ (frag R right).empty t := by
  obtain ⟨hnull, hholds⟩ := h
  rw [emptyPath_union] at hholds
  rw [nullable, Bool.or_eq_true] at hnull
  by_cases hl : nullable left = true
  · rw [if_pos hl] at hholds
    exact .inl ⟨hl, hholds⟩
  · rw [if_neg hl] at hholds
    exact .inr ⟨hnull.resolve_left hl, hholds⟩

/-- Where an iteration that is not optional may be passed by, its part may be. -/
theorem empty_iteration (hmin : min ≠ 0) (h : (frag R (.iteration sid arg min max)).empty t) :
    (frag R arg).empty t := by
  obtain ⟨hnull, hholds⟩ := h
  rw [nullable, Bool.or_eq_true, decide_eq_true_eq] at hnull
  have hnull := hnull.resolve_left hmin
  rw [emptyPath_iteration, if_pos hnull] at hholds
  exact ⟨hnull, hholds⟩

/-- What the part of the automaton spans is spanned by the part of the tree. -/
theorem span_of_frag (hlin : Linear a) (hback : NoBackrefs a) (hun : Uncounted a) (hb : Bounded a)
    (h : (frag R a).Span t u) : Span R.cint a t u := by
  induction a generalizing t u with
  | literal sid leaf => exact (span_frag_literal hback).mp h
  | catenation sid left right ihl ihr =>
    obtain ⟨hl, hr, hdisj⟩ := hlin
    rw [frag_catenation hback.1 hr, span_seq (frag_apart hdisj)] at h
    obtain ⟨v, hv, h⟩ := h
    exact ⟨v, ihl hl hback.1 hun.1 hb.1 hv, ihr hr hback.2 hun.2 hb.2 h⟩
  | union sid left right ihl ihr =>
    rcases hlin with ⟨p, hone⟩ | ⟨hl, hr, hdisj⟩
    · have hone : OneState p (.union sid left right) := hone
      rwa [frag_oneState hone, span_one] at h
    · have h : (frag R left).Span t u ∨ (frag R right).Span t u := by
        rw [frag_union] at h
        rcases span_of_withEmpty h with ⟨rfl, he⟩ | h
        · exact (empty_union he).imp (fun he => .inl ⟨rfl, he⟩) (fun he => .inl ⟨rfl, he⟩)
        · exact (span_alt (frag_apart hdisj)).mp h
      exact h.imp (ihl hl hback.1 hun.1 hb.1) (ihr hr hback.2 hun.2 hb.2)
  | iteration sid arg min max ih =>
    have hlin' : Linear arg := hlin
    have hback' : NoBackrefs arg := hback
    obtain ⟨hmin, rfl | rfl⟩ := bounds_of_uncounted hun.2 hb.2
    · rw [frag_star hback' hlin'] at h
      have h : (t = u ∧ (frag R (.iteration sid arg min none)).empty t) ∨
          Relation.TransGen (Span R.cint arg) t u :=
        (span_of_withEmpty h).imp id fun h =>
          (span_loop.mp h).lift id fun _ _ h => ih hlin hback hun.1 hb.1 h
      rw [Span]
      rcases hmin with rfl | rfl
      · rw [times_zero_none]
        exact h.imp And.left id
      · rw [times_one_none]
        rcases h with ⟨rfl, he⟩ | h
        · exact .single (ih hlin hback hun.1 hb.1 (.inl ⟨rfl, empty_iteration Nat.one_ne_zero he⟩))
        · exact h
    · rw [frag_question] at h
      have h : (t = u ∧ (frag R (.iteration sid arg min (some 1))).empty t) ∨
          Span R.cint arg t u :=
        (span_of_withEmpty h).imp id fun h => ih hlin hback hun.1 hb.1 h
      rw [Span]
      rcases hmin with rfl | rfl
      · rw [times_zero_one]
        exact h.imp And.left id
      · rw [times_one_one]
        rcases h with ⟨rfl, he⟩ | h
        · exact ih hlin hback hun.1 hb.1 (.inl ⟨rfl, empty_iteration Nat.one_ne_zero he⟩)
        · exact h

/-! ## The automaton finds everything -/

/-- There is one way to pass a part by: of two alternatives that may be empty, the right one asserts
what the left one asserts, and an empty repetition asserts nothing. -/
def OneWay : Ast → Prop
  | .literal _ _ => True
  | .catenation _ left right => OneWay left ∧ OneWay right
  | .iteration _ arg _ _ => OneWay arg ∧ (nullable arg = true → (emptyPath arg).2 = 0)
  | .union _ left right => OneWay left ∧ OneWay right ∧
    (nullable left = true → nullable right = true →
      (emptyPath left).2 ||| (emptyPath right).2 = (emptyPath right).2)

theorem empty_union_iff (h : OneWay (.union sid left right)) :
    (frag R (.union sid left right)).empty t ↔
      (frag R left).empty t ∨ (frag R right).empty t := by
  refine ⟨empty_union, ?_⟩
  simp only [frag, nullable, emptyPath_union]
  rintro (⟨hl, he⟩ | ⟨hr, he⟩)
  · exact ⟨by rw [hl, Bool.true_or], by rwa [if_pos hl]⟩
  · refine ⟨by rw [hr, Bool.or_true], ?_⟩
    split
    · rw [← h.2.2 ‹_› hr, holdsAll_or] at he
      exact he.1
    · exact he

theorem empty_iteration_of (h : OneWay (.iteration sid arg min max))
    (hnull : min = 0 ∨ nullable arg = true) : (frag R (.iteration sid arg min max)).empty t := by
  refine ⟨by simpa [nullable] using hnull, ?_⟩
  rw [emptyPath_iteration]
  split
  · rw [h.2 ‹_›]
    exact holdsAll_zero
  · exact holdsAll_zero

/-- What the part of the tree spans is spanned by the part of the automaton. -/
theorem frag_of_span (hlin : Linear a) (hback : NoBackrefs a) (hun : Uncounted a) (hb : Bounded a)
    (hone : OneWay a) (h : Span R.cint a t u) : (frag R a).Span t u := by
  induction a generalizing t u with
  | literal sid leaf => exact (span_frag_literal hback).mpr h
  | catenation sid left right ihl ihr =>
    obtain ⟨hl, hr, hdisj⟩ := hlin
    rw [frag_catenation hback.1 hr, span_seq (frag_apart hdisj)]
    obtain ⟨v, hv, h⟩ := h
    exact ⟨v, ihl hl hback.1 hun.1 hb.1 hone.1 hv, ihr hr hback.2 hun.2 hb.2 hone.2 h⟩
  | union sid left right ihl ihr =>
    rcases hlin with ⟨p, hp⟩ | ⟨hl, hr, hdisj⟩
    · have hp : OneState p (.union sid left right) := hp
      rwa [frag_oneState hp, span_one]
    · rw [frag_union, span_withEmpty fun t he => (empty_union_iff hone).mpr he,
        span_alt (frag_apart hdisj)]
      exact .inr (h.imp (ihl hl hback.1 hun.1 hb.1 hone.1) (ihr hr hback.2 hun.2 hb.2 hone.2.1))
  | iteration sid arg min max ih =>
    have hlin' : Linear arg := hlin
    have hback' : NoBackrefs arg := hback
    have himp : ∀ {t u}, Span R.cint arg t u → (frag R arg).Span t u :=
      fun h => ih hlin hback hun.1 hb.1 hone.1 h
    obtain ⟨hmin, rfl | rfl⟩ := bounds_of_uncounted hun.2 hb.2
    · rw [frag_star hback' hlin', span_withEmpty (fun t he => empty_iteration_of hone (.inr (And.left he))),
        span_loop]
      rw [Span] at h
      rcases hmin with rfl | rfl
      · rw [times_zero_none] at h
        refine h.imp (fun h => ⟨h, empty_iteration_of hone (.inl rfl)⟩) fun h => ?_
        exact h.lift id fun _ _ h => himp h
      · rw [times_one_none] at h
        exact .inr (h.lift id fun _ _ h => himp h)
    · rw [frag_question, span_withEmpty (fun t he => empty_iteration_of hone (.inr (And.left he)))]
      rw [Span] at h
      rcases hmin with rfl | rfl
      · rw [times_zero_one] at h
        exact h.imp (fun h => ⟨h, empty_iteration_of hone (.inl rfl)⟩) himp
      · rw [times_one_one] at h
        exact .inr (himp h)

end Tre
end UtilWin
