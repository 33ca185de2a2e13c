import UtilWin.Regex.TnfaSpans

/-!
# What the compiled automaton accepts

What is asked of a tree for its automaton to be right is asked of the tree before it is expanded, so
it has to be carried through the expansion.  An unrolled iteration is put together from copies in a few
ways, and a property that all of these keep is kept by unrolling (`unroll_induction`).  Whether a tree
is nullable is a matter of what it spans in a reading in which nothing is read and everything holds, so it
is kept because spans are.

Then the automaton accepts what is between two times only if the tree spans it (`span_of_accepts`), and
if there is only one way to pass each part by, whenever it does (`accepts_iff_span`).
-/

namespace UtilWin
namespace Tre

variable {T : Type} {R : Reading T} {a arg : Ast} {sid : Option ℕ} {flags : CopyFlags} {d q : ℕ}
  {e : Expansion} {min : ℕ} {max : Option ℕ} {t u : T}

/-! ## Through the expansion -/

section

variable {P : Ast → Prop} (hcopy : ∀ flags d, P (copyAst flags d arg))
  (hcat : ∀ s t, P s → P t → P (.catenation none s t))
  (hopt : ∀ s, P s → P (.union none (.literal none .empty) s))

include hcopy hcat in
theorem required_induction {n : ℕ} {seq : Option Ast} {c : Copying} (hseq : ∀ s ∈ seq, P s) :
    ∀ s ∈ (required arg n seq c).1, P s := by
  induction n generalizing seq c with
  | zero => exact hseq
  | succ n ih =>
    refine ih fun s hs => ?_
    cases seq with
    | none =>
      obtain rfl := Option.some_inj.mp hs
      exact hcopy _ _
    | some s' =>
      obtain rfl := Option.some_inj.mp hs
      exact hcat _ _ (hseq s' rfl) (hcopy _ _)

include hcopy hcat hopt in
theorem optional_induction {n : ℕ} {seq : Option Ast} {c : Copying} (hseq : ∀ s ∈ seq, P s) :
    ∀ s ∈ (optional arg n seq c).1, P s := by
  induction n generalizing seq c with
  | zero => exact hseq
  | succ n ih =>
    refine ih fun s hs => ?_
    obtain rfl := Option.some_inj.mp hs
    cases seq with
    | none => exact hopt _ (hcopy _ _)
    | some s' => exact hopt _ (hcat _ _ (hcopy _ _) (hseq s' rfl))

include hcat in
theorem joined_induction {seq1 seq2 : Option Ast} (h : seq1.isSome ∨ seq2.isSome)
    (h₁ : ∀ s ∈ seq1, P s) (h₂ : ∀ s ∈ seq2, P s) : P (joined arg seq1 seq2) := by
  cases seq1 with
  | none =>
    cases seq2 with
    | none => simp at h
    | some s => exact h₂ s rfl
  | some s =>
    cases seq2 with
    | none => exact h₁ s rfl
    | some s' => exact hcat s s' (h₁ s rfl) (h₂ s' rfl)

include hcopy hcat hopt in
/-- A property of the copies that the ways of putting them together keep. -/
theorem unroll_induction (hstar : ∀ s, P s → P (.iteration none s 0 none))
    (hsid : ∀ s, P s → P (s.withSid sid)) (hexp : expands min max = true) :
    P (unroll sid arg min max d e).1 := by
  have h₁ : ∀ s ∈ (required arg min none ⟨d, d, e.maxPos, e.tagDirections⟩).1, P s :=
    required_induction hcopy hcat (by simp)
  have h₂ : ∀ s ∈ (behind arg min
      (required arg min none ⟨d, d, e.maxPos, e.tagDirections⟩).2 max).1, P s := by
    cases max with
    | none =>
      intro s hs
      obtain rfl := Option.some_inj.mp hs
      exact hstar _ (hcopy _ _)
    | some m => exact optional_induction hcopy hcat hopt (by simp)
  exact hsid _ (joined_induction hcat (unroll_isSome hexp _ _) h₁ h₂)

end

theorem uncounted_copyAst : Uncounted (copyAst flags d a) ↔ Uncounted a := by
  induction a with
  | literal _ _ => exact Iff.rfl
  | catenation _ left right ihl ihr => exact and_congr ihl ihr
  | iteration _ arg min max ih => exact and_congr ih Iff.rfl
  | union _ left right ihl ihr => exact and_congr ihl ihr

theorem bounded_copyAst : Bounded (copyAst flags d a) ↔ Bounded a := by
  induction a with
  | literal _ _ => exact Iff.rfl
  | catenation _ left right ihl ihr => exact and_congr ihl ihr
  | iteration _ arg min max ih => exact and_congr ih Iff.rfl
  | union _ left right ihl ihr => exact and_congr ihl ihr

theorem noBackrefs_copyAst (h : NoBackrefs a) : NoBackrefs (copyAst flags d a) := by
  induction a with
  | literal _ leaf =>
    cases leaf with
    | tag _ =>
      simp only [copyAst, Leaf.copy]
      split <;> trivial
    | backref _ _ => exact h.elim
    | char _ _ => trivial
    | empty => trivial
    | assertion _ => trivial
  | catenation _ left right ihl ihr => exact ⟨ihl h.1, ihr h.2⟩
  | iteration _ arg _ _ ih => exact ih h
  | union _ left right ihl ihr => exact ⟨ihl h.1, ihr h.2⟩

/-- **Nothing is counted in an expanded tree.** -/
theorem uncounted_expandAst : Uncounted (expandAst a e).1 := by
  induction a generalizing e with
  | literal _ _ => trivial
  | catenation _ left right ihl ihr => exact ⟨ihl, ihr⟩
  | union _ left right ihl ihr => exact ⟨ihl, ihr⟩
  | iteration sid arg min max ih =>
    simp only [expandAst, afterIter]
    split
    · exact unroll_induction (P := Uncounted) (fun _ _ => uncounted_copyAst.mpr ih)
        (fun _ _ h₁ h₂ => ⟨h₁, h₂⟩) (fun _ h => ⟨trivial, h⟩) (fun _ h => ⟨h, rfl⟩)
        (fun s h => by cases s <;> exact h) ‹_›
    · exact ⟨ih, Bool.eq_false_iff.mpr ‹_›⟩

theorem bounded_expandAst (h : Bounded a) : Bounded (expandAst a e).1 := by
  induction a generalizing e with
  | literal _ _ => trivial
  | catenation _ left right ihl ihr => exact ⟨ihl h.1, ihr h.2⟩
  | union _ left right ihl ihr => exact ⟨ihl h.1, ihr h.2⟩
  | iteration sid arg min max ih =>
    simp only [expandAst, afterIter]
    split
    · exact unroll_induction (P := Bounded) (fun _ _ => bounded_copyAst.mpr (ih h.1))
        (fun _ _ h₁ h₂ => ⟨h₁, h₂⟩) (fun _ h => ⟨trivial, h⟩) (fun _ h => ⟨h, by simp⟩)
        (fun s h => by cases s <;> exact h) ‹_›
    · exact ⟨ih h.1, h.2⟩

theorem noBackrefs_expandAst (h : NoBackrefs a) : NoBackrefs (expandAst a e).1 := by
  induction a generalizing e with
  | literal _ leaf =>
    cases leaf with
    | backref _ _ => exact h.elim
    | char _ _ => trivial
    | empty => trivial
    | assertion _ => trivial
    | tag _ => trivial
  | catenation _ left right ihl ihr => exact ⟨ihl h.1, ihr h.2⟩
  | union _ left right ihl ihr => exact ⟨ihl h.1, ihr h.2⟩
  | iteration sid arg min max ih =>
    simp only [expandAst, afterIter]
    split
    · exact unroll_induction (P := NoBackrefs) (fun _ _ => noBackrefs_copyAst (ih h))
        (fun _ _ h₁ h₂ => ⟨h₁, h₂⟩) (fun _ h => ⟨trivial, h⟩) (fun _ h => h)
        (fun s h => by
          cases s with
          | literal _ leaf => cases leaf <;> exact h
          | catenation _ _ _ => exact h
          | iteration _ _ _ _ => exact h
          | union _ _ _ => exact h) ‹_›
    · exact ih h

/-! ### Nullable parts -/

/-- The reading in which nothing is read and everything holds. -/
def Reading.nothing : Reading Unit where
  reads _ _ _ := False
  refers _ _ _ := False
  holds _ _ := True

/-- A tree is nullable if it spans nothing. -/
theorem span_nothing (h : Bounded a) : Span Reading.nothing a () () ↔ nullable a = true := by
  induction a with
  | literal _ leaf => cases leaf <;> simp [Span, Reading.nothing, nullable]
  | catenation _ left right ihl ihr =>
    rw [nullable, Bool.and_eq_true, ← ihl h.1, ← ihr h.2]
    constructor
    · rintro ⟨v, hv⟩
      exact hv
    · exact fun hv => ⟨(), hv⟩
  | union _ left right ihl ihr =>
    rw [nullable, Bool.or_eq_true, ← ihl h.1, ← ihr h.2]
    rfl
  | iteration _ arg min max ih =>
    rw [nullable, Bool.or_eq_true, decide_eq_true_eq, ← ih h.1]
    constructor
    · rintro ⟨_ | n, hmin, -, hrep⟩
      · exact .inl (Nat.le_zero.mp hmin)
      · obtain ⟨v, hv, -⟩ := hrep
        exact .inr hv
    · rintro (rfl | harg)
      · exact ⟨0, Nat.le_refl 0, fun m _ => Nat.zero_le m, rfl⟩
      · have hrep : ∀ n, Repeats (Span Reading.nothing arg) n () () := by
          intro n
          induction n with
          | zero => rfl
          | succ n ih => exact ⟨(), harg, ih⟩
        exact ⟨min, Nat.le_refl min, fun m hm => (h.2 m hm).1, hrep min⟩

theorem nullable_expandAst (h : Bounded a) : nullable (expandAst a e).1 = nullable a := by
  rw [Bool.eq_iff_iff, ← span_nothing (bounded_expandAst h), ← span_nothing h, span_expandAst h]

theorem nullable_copyAst : nullable (copyAst flags d a) = nullable a := by
  induction a with
  | literal _ leaf =>
    cases leaf with
    | tag _ =>
      simp only [copyAst, Leaf.copy]
      split <;> rfl
    | backref _ _ => rfl
    | char _ _ => rfl
    | empty => rfl
    | assertion _ => rfl
  | catenation _ left right ihl ihr => simp only [copyAst, nullable, ihl, ihr]
  | iteration _ arg _ _ ih => simp only [copyAst, nullable, ih]
  | union _ left right ihl ihr => simp only [copyAst, nullable, ihl, ihr]

theorem emptyPath_copyAst : (emptyPath (copyAst flags d a)).2 = (emptyPath a).2 := by
  induction a with
  | literal _ leaf =>
    cases leaf with
    | tag _ =>
      simp only [copyAst, Leaf.copy]
      split <;> rfl
    | backref _ _ => rfl
    | char _ _ => rfl
    | empty => rfl
    | assertion _ => rfl
  | catenation _ left right ihl ihr => simp only [copyAst, emptyPath_catenation, ihl, ihr]
  | iteration _ arg _ _ ih => simp only [copyAst, emptyPath_iteration, nullable_copyAst, ih]
  | union _ left right ihl ihr => simp only [copyAst, emptyPath_union, nullable_copyAst, ihl, ihr]

theorem oneWay_copyAst : OneWay (copyAst flags d a) ↔ OneWay a := by
  induction a with
  | literal _ _ => exact Iff.rfl
  | catenation _ left right ihl ihr => exact and_congr ihl ihr
  | iteration _ arg _ _ ih =>
    simp only [copyAst, OneWay, nullable_copyAst, emptyPath_copyAst, ih]
  | union _ left right ihl ihr =>
    simp only [copyAst, OneWay, nullable_copyAst, emptyPath_copyAst, ihl, ihr]

/-- The ways to pass a part by that does not assert anything if it is empty. -/
structure Passed (a : Ast) : Prop where
  oneWay : OneWay a
  emptyPath : nullable a = true → (emptyPath a).2 = 0

theorem passed_withSid : Passed (a.withSid sid) ↔ Passed a := by
  have hpath : emptyPath (a.withSid sid) = emptyPath a ∧ nullable (a.withSid sid) = nullable a ∧
      (OneWay (a.withSid sid) ↔ OneWay a) := by
    cases a with
    | literal _ leaf => cases leaf <;> exact ⟨rfl, rfl, Iff.rfl⟩
    | catenation _ _ _ => exact ⟨rfl, rfl, Iff.rfl⟩
    | iteration _ _ _ _ => exact ⟨rfl, rfl, Iff.rfl⟩
    | union _ _ _ => exact ⟨rfl, rfl, Iff.rfl⟩
  obtain ⟨h₁, h₂, h₃⟩ := hpath
  constructor
  · exact fun h => ⟨h₃.mp h.1, h₁ ▸ h₂ ▸ h.2⟩
  · exact fun h => ⟨h₃.mpr h.1, h₁ ▸ h₂ ▸ h.2⟩

theorem passed_iteration (h : Passed arg) : Passed (.iteration sid arg min max) := by
  refine ⟨⟨h.1, h.2⟩, fun _ => ?_⟩
  rw [emptyPath_iteration]
  split
  · exact h.2 ‹_›
  · rfl

theorem passed_unroll (h : Passed arg) (hexp : expands min max = true) :
    Passed (unroll sid arg min max d e).1 := by
  refine unroll_induction (P := Passed) (fun flags d => ?_) (fun s t hs ht => ?_) (fun s hs => ?_)
    (fun s hs => ?_) (fun s hs => ?_) hexp
  · refine ⟨oneWay_copyAst.mpr h.1, ?_⟩
    rw [nullable_copyAst, emptyPath_copyAst]
    exact h.2
  · refine ⟨⟨hs.1, ht.1⟩, fun hnull => ?_⟩
    rw [nullable, Bool.and_eq_true] at hnull
    rw [emptyPath_catenation, hs.2 hnull.1, ht.2 hnull.2]
    rfl
  · refine ⟨⟨trivial, hs.1, fun _ _ => ?_⟩, fun _ => rfl⟩
    exact BitVec.zero_or
  · exact passed_iteration hs
  · exact passed_withSid.mpr hs

theorem passed_afterIter (h : Passed arg) : Passed (afterIter sid arg min max d e).1 := by
  rw [afterIter]
  split
  · exact passed_unroll h ‹_›
  · exact passed_iteration h

/-- There is one way to pass a part by after the expansion if there was one before. -/
theorem oneWay_expandAst (h : OneWay a) (hb : Bounded a) :
    OneWay (expandAst a e).1 ∧
      (nullable a = true → (emptyPath (expandAst a e).1).2 = (emptyPath a).2) := by
  induction a generalizing e with
  | literal _ leaf => exact ⟨trivial, fun _ => by cases leaf <;> rfl⟩
  | catenation _ left right ihl ihr =>
    obtain ⟨hl, hl'⟩ := ihl (e := e) h.1 hb.1
    obtain ⟨hr, hr'⟩ := ihr (e := (expandAst left e).2) h.2 hb.2
    refine ⟨⟨hl, hr⟩, fun hnull => ?_⟩
    rw [nullable, Bool.and_eq_true] at hnull
    rw [expandAst, emptyPath_catenation, emptyPath_catenation, hl' hnull.1, hr' hnull.2]
  | union _ left right ihl ihr =>
    obtain ⟨hl, hl'⟩ := ihl (e := e) h.1 hb.1
    obtain ⟨hr, hr'⟩ := ihr (e := (expandAst left e).2) h.2.1 hb.2
    refine ⟨⟨hl, hr, ?_⟩, fun hnull => ?_⟩
    · rw [nullable_expandAst hb.1, nullable_expandAst hb.2]
      intro hnl hnr
      rw [hl' hnl, hr' hnr]
      exact h.2.2 hnl hnr
    · rw [expandAst, emptyPath_union, emptyPath_union, nullable_expandAst hb.1]
      split
      · exact hl' ‹_›
      · rw [nullable, Bool.or_eq_true] at hnull
        exact hr' (hnull.resolve_left ‹_›)
  | iteration sid arg min max ih =>
    have hpassed : Passed (expandAst (.iteration sid arg min max) e).1 := by
      refine passed_afterIter ⟨(ih h.1 hb.1).1, fun hnull => ?_⟩
      rw [nullable_expandAst hb.1] at hnull
      rw [(ih h.1 hb.1).2 hnull, h.2 hnull]
    refine ⟨hpassed.1, fun hnull => ?_⟩
    rw [hpassed.2 (by rwa [nullable_expandAst hb]), emptyPath_iteration]
    split
    · exact (h.2 ‹_›).symm
    · rfl

/-! ## The automaton -/

namespace Tnfa

variable (R) (tnfa : Tnfa)

/-- From a state at a time, the final state can be reached at another time. -/
inductive Arrives : ℕ → T → T → Prop
  | here (t : T) : Arrives tnfa.final t t
  | step {q : ℕ} {t t' u : T} {tr : Transition} : tr ∈ tnfa.transitions q → Fires R tr t t' →
      Arrives tr.stateId t' u → Arrives q t u

/-- The automaton accepts what is between two times. -/
def Accepts (t u : T) : Prop :=
  ∃ i ∈ tnfa.initial, HoldsAll R i.assertions t ∧ tnfa.Arrives R i.stateId t u

end Tnfa

/-- With the dummy for the final state, the automaton is the fragment of the tree in front of it. -/
theorem accepts_toTnfa {position : ℕ} (hpos : position ∉ positions a) (hback : NoBackrefs a) :
    (toTnfa a position).Accepts R t u ↔ (frag R a).Span t u := by
  have hdummy : OneState position (.literal none (.char position ⟨0, 0, none, []⟩)) := rfl
  have hlin : Linear (.literal none (.char position ⟨0, 0, none, []⟩)) := trivial
  have hfrag : frag R (.catenation none a (.literal none (.char position ⟨0, 0, none, []⟩))) =
      Fragment.seq (frag R a) (Fragment.one position (Span R.cint
        (.literal none (.char position ⟨0, 0, none, []⟩)))) := by
    rw [frag_catenation hback hlin, frag_oneState hdummy]
  rw [← Fragment.arrives_iff_span hpos, ← hfrag]
  have harrives : ∀ {q t}, (toTnfa a position).Arrives R q t u ↔
      (frag R (.catenation none a (.literal none (.char position ⟨0, 0, none, []⟩)))).Arrives
        position q t u := by
    intro q t
    constructor
    · intro h
      induction h with
      | here t => exact .here t
      | step htr hfires _ ih => exact .move ⟨_, mem_transitions.mp htr, rfl, hfires⟩ ih
    · intro h
      induction h with
      | here t => exact .here t
      | move h _ ih =>
        obtain ⟨tr, htr, rfl, hfires⟩ := h
        exact .step (mem_transitions.mpr htr) hfires ih
  constructor
  · rintro ⟨i, hi, hholds, h⟩
    obtain ⟨x, hx, rfl⟩ := List.mem_map.mp hi
    exact ⟨x.position, ⟨x, hx, rfl, hholds⟩, harrives.mp h⟩
  · rintro ⟨q, ⟨x, hx, rfl, hholds⟩, h⟩
    exact ⟨⟨x.position, x.tags, x.assertions⟩, List.mem_map.mpr ⟨x, hx, rfl⟩, hholds,
      harrives.mpr h⟩

/-- The part of `regcomp` behind `tre_add_tags`. -/
def compile (ast : Ast) (position : ℕ) (tagDirections : ℕ → TagDirection) : Tnfa :=
  let expanded := treExpandAst ast position tagDirections
  toTnfa expanded.1 expanded.2.1

/-- A tree as the parser makes it from a pattern without back references, in which nothing is counted
inside of an iteration. -/
structure Compilable (ast : Ast) (position : ℕ) : Prop where
  ready : Ready ast 0 position
  noBackrefs : NoBackrefs ast
  bounded : Bounded ast

/-- **The automaton accepts nothing that the tree does not span.** -/
theorem span_of_accepts (R : Reading T) (ast : Ast) (position : ℕ)
    (dirs : ℕ → TagDirection) (h : Compilable ast position) (t u : T)
    (hacc : (compile ast position dirs).Accepts R t u) : Span R.cint ast t u := by
  have hlaid := treExpandAst_laid ast position dirs h.ready
  rw [← span_treExpandAst R.cint ast position dirs t u h.bounded]
  refine span_of_frag hlaid.linear (noBackrefs_expandAst h.noBackrefs) uncounted_expandAst
    (bounded_expandAst h.bounded) ((accepts_toTnfa ?_ ?_).mp hacc)
  · exact fun hmem => Nat.lt_irrefl _ (hlaid.mem _ hmem).2
  · exact noBackrefs_expandAst h.noBackrefs

/-- **The automaton accepts exactly what the tree spans**, if there is one way to pass each part of it
by. -/
theorem accepts_iff_span (R : Reading T) (ast : Ast) (position : ℕ)
    (dirs : ℕ → TagDirection) (h : Compilable ast position) (hone : OneWay ast) (t u : T) :
    (compile ast position dirs).Accepts R t u ↔ Span R.cint ast t u := by
  refine ⟨span_of_accepts R ast position dirs h t u, fun hspan => ?_⟩
  have hlaid := treExpandAst_laid ast position dirs h.ready
  rw [← span_treExpandAst R.cint ast position dirs t u h.bounded] at hspan
  refine (accepts_toTnfa ?_ (noBackrefs_expandAst h.noBackrefs)).mpr
    (frag_of_span hlaid.linear (noBackrefs_expandAst h.noBackrefs) uncounted_expandAst
      (bounded_expandAst h.bounded) (oneWay_expandAst hone h.bounded).1 hspan)
  exact fun hmem => Nat.lt_irrefl _ (hlaid.mem _ hmem).2

end Tre
end UtilWin
