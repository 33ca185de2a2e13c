import UtilWin.Regex.AddTags
import UtilWin.Regex.Leftmost

/-!
# Compiling and matching

`regcomp` and `regexec` put together: a tree is expanded, made into an automaton, and the parallel matcher
runs it.  The matcher finds a match if and only if the tree spans some part of the text
(`treTnfaRunParallel_compile`).

Of an automaton the matcher needs to know that a transition has the bits about classes if it has classes.

A transition has the codes of its literal cut to 16 bits.  A character has 16 bits, so nothing is lost of a
literal with codes up to `0xffff`, or up to `TRE_CHAR_MAX` (`span_cint`).  The literal of `\x{10061}` reads an
`a`.
-/

namespace UtilWin
namespace Tre

open Glob (Str has)

variable {a left right arg : Ast} {as bs : Assertions} {p q : ℕ} {sid : Option ℕ}
  {acc : List ℕ × Assertions} {flags : CopyFlags} {d min : ℕ} {max : Option ℕ} {e : Expansion}

/-! ## The bits about classes -/

/-- Assertions that do not say anything about classes. -/
def Plain (as : Assertions) : Prop := has as assertCharClass = false ∧ has as assertCharClassNeg = false

theorem plain_zero : Plain 0#32 := ⟨by decide, by decide⟩

theorem plain_or (ha : Plain as) (hb : Plain bs) : Plain (as ||| bs) :=
  ⟨by rw [has_or, ha.1, hb.1]; rfl, by rw [has_or, ha.2, hb.2]; rfl⟩

theorem plain_bit (x : Assertion) : Plain x.bit := by
  cases x <;> exact ⟨by decide, by decide⟩

theorem plain_treMatchEmpty (h : Plain acc.2) : Plain (treMatchEmpty a acc).2 := by
  induction a generalizing acc with
  | literal _ leaf =>
    cases leaf with
    | assertion x => exact plain_or h (plain_bit x)
    | char _ _ => exact h
    | empty => exact h
    | tag _ => exact h
    | backref _ _ => exact h
  | catenation _ left right ihl ihr => exact ihl (ihr h)
  | iteration _ arg _ _ ih =>
    rw [treMatchEmpty]
    split
    · exact ih h
    · exact h
  | union _ left right ihl ihr =>
    rw [treMatchEmpty]
    split
    · exact ihl h
    · exact ihr h

theorem plain_emptyPath : Plain (emptyPath a).2 := plain_treMatchEmpty plain_zero

theorem plain_union {s1 s2 : List PosAndTags} {tags : List ℕ} (has : Plain as)
    (h₁ : ∀ x ∈ s1, Plain x.assertions) (h₂ : ∀ x ∈ s2, Plain x.assertions) :
    ∀ x ∈ treSetUnion s1 s2 tags as, Plain x.assertions := by
  intro x hx
  rcases position_of_mem_union hx with ⟨y, hy, rfl⟩ | hx
  · exact plain_or (h₁ y hy) has
  · exact h₂ x hx

theorem plain_firstpos : ∀ x ∈ firstpos a, Plain x.assertions := by
  induction a with
  | literal _ leaf => cases leaf <;> simp [firstpos, treSetOne, plain_zero, BitVec.ofNat_eq_ofNat]
  | union _ left right ihl ihr => exact plain_union plain_zero ihl ihr
  | catenation _ left right ihl ihr =>
    rw [firstpos]
    split
    · exact plain_union plain_emptyPath ihr ihl
    · exact ihl
  | iteration _ arg _ _ ih => exact ih

theorem plain_lastpos : ∀ x ∈ lastpos a, Plain x.assertions := by
  induction a with
  | literal _ leaf => cases leaf <;> simp [lastpos, treSetOne, plain_zero]
  | union _ left right ihl ihr => exact plain_union plain_zero ihl ihr
  | catenation _ left right ihl ihr =>
    rw [lastpos]
    split
    · exact plain_union plain_emptyPath ihl ihr
    · exact ihr
  | iteration _ arg _ _ ih => exact ih

/-- The bits that `tre_make_trans` sets, and no others. -/
theorem marked_transition {x y : PosAndTags} (hx : Plain x.assertions) (hy : Plain y.assertions)
    (hback : x.backref = none) : Marked (transition x y) := by
  have hmark : ∀ (c c' : Prop) [Decidable c] [Decidable c'],
      has ((if c then assertCharClass else 0) ||| (if c' then assertCharClassNeg else 0))
        assertCharClass = decide c ∧
      has ((if c then assertCharClass else 0) ||| (if c' then assertCharClassNeg else 0))
        assertCharClassNeg = decide c' := by
    intro c c' _ _
    by_cases hc : c <;> by_cases hc' : c' <;> simp only [hc, hc', if_true, if_false] <;> decide
  obtain ⟨hcls, hneg⟩ := hmark (x.lit.cls.isSome = true) (x.lit.negClasses ≠ [])
  rw [has_or] at hcls hneg
  constructor
  · simp only [transition, hback, has_or, hx.1, hy.1, Option.isSome_none, Bool.false_eq_true,
      if_false, Bool.false_or, hcls]
    simp [has]
  · simp only [transition, hback, has_or, hx.2, hy.2, Option.isSome_none, Bool.false_eq_true,
      if_false, Bool.false_or, hneg]
    simp [has]

theorem mem_treAstToTnfa {tr : Transition} (h : (p, tr) ∈ treAstToTnfa a) (hback : NoBackrefs a) :
    ∃ b c x y, NoBackrefs b ∧ x ∈ lastpos b ∧ y ∈ firstpos c ∧ transition x y = tr := by
  rw [treAstToTnfa] at h
  induction a with
  | literal _ _ => exact absurd h List.not_mem_nil
  | union _ left right ihl ihr =>
    rcases List.mem_append.mp h with h | h
    · exact ihl h hback.1
    · exact ihr h hback.2
  | catenation _ left right ihl ihr =>
    rcases List.mem_append.mp h with h | h
    · obtain ⟨x, hx, y, hy, -, hxy⟩ := mem_treMakeTrans.mp h
      exact ⟨left, right, x, y, hback.1, hx, unhandled_sublist.mem hy, hxy⟩
    · rcases List.mem_append.mp h with h | h
      · exact ihl h hback.1
      · exact ihr h hback.2
  | iteration _ arg _ max ih =>
    rcases List.mem_append.mp h with h | h
    · split at h
      · obtain ⟨x, hx, y, hy, -, hxy⟩ := mem_treMakeTrans.mp h
        exact ⟨arg, arg, x, y, hback, hx, unhandled_sublist.mem hy, hxy⟩
      · exact absurd h List.not_mem_nil
    · exact ih h hback

/-- The automaton of a tree is marked as the matcher needs it. -/
theorem marked_toTnfa {position : ℕ} (hback : NoBackrefs a) : (toTnfa a position).Marked := by
  intro q tr htr
  obtain ⟨b, c, x, y, hb, hx, hy, rfl⟩ := mem_treAstToTnfa (mem_transitions.mp htr)
    ⟨hback, trivial⟩
  exact marked_transition (plain_lastpos x hx) (plain_firstpos y hy) (lastpos_backref hb x hx)

theorem marked_compile {position : ℕ} {dirs : ℕ → TagDirection} (h : Compilable a position) :
    (compile a position dirs).Marked :=
  marked_toTnfa (noBackrefs_expandAst h.noBackrefs)

/-! ## Codes of 16 bits -/

/-- The codes of the literal are characters, or it has no upper bound. -/
def Literal.Short (lit : Literal) : Prop :=
  IsWide lit.codeMin ∧ (IsWide lit.codeMax ∨ lit.codeMax = treCharMax)

/-- All literals of the tree are so. -/
def Short : Ast → Prop
  | .literal _ (.char _ lit) => lit.Short
  | .literal _ (.backref _ _) | .literal _ .empty | .literal _ (.assertion _)
  | .literal _ (.tag _) => True
  | .catenation _ left right => Short left ∧ Short right
  | .iteration _ arg _ _ => Short arg
  | .union _ left right => Short left ∧ Short right

/-- The conversion keeps the codes up to `0xffff`. -/
theorem cint_of_isWide {c : ℤ} (h : IsWide c) : cint c = c :=
  Int.emod_eq_of_lt h.1 (Int.lt_of_le_of_lt h.2 (by decide))

theorem cint_treCharMax : cint treCharMax = 0xffff := by decide

/-- A literal accepts the same characters after the conversion. -/
theorem accepts_cint {s : Search} {lit : Literal} {wc : ℤ} (h : lit.Short) (hwc : IsWide wc) :
    s.accepts lit.cint wc ↔ s.accepts lit wc := by
  have hrange : lit.cint.codeMin ≤ wc ∧ wc ≤ lit.cint.codeMax ↔ lit.codeMin ≤ wc ∧ wc ≤ lit.codeMax := by
    show cint lit.codeMin ≤ wc ∧ wc ≤ cint lit.codeMax ↔ _
    rw [cint_of_isWide h.1]
    refine and_congr_right fun _ => ?_
    rcases h.2 with hmax | hmax
    · rw [cint_of_isWide hmax]
    · rw [hmax, cint_treCharMax]
      exact iff_of_true hwc.2 (hwc.2.trans (by decide))
  exact and_congr hrange Iff.rfl

/-- **The tree spans the same after the conversion**, if its codes have 16 bits. -/
theorem span_cint {s : Search} {text : List (ℤ × ℕ)} (htext : ∀ c ∈ text, IsWide c.1) (h : Short a) :
    Span (s.reading text).cint a = Span (s.reading text) a := by
  induction a with
  | literal _ leaf =>
    cases leaf with
    | char position lit =>
      funext t u
      refine propext (and_congr_right fun _ => exists_congr fun c => and_congr_right fun hc => ?_)
      exact accepts_cint h (htext c (List.mem_of_getElem? hc))
    | backref _ _ => rfl
    | empty => rfl
    | assertion _ => rfl
    | tag _ => rfl
  | catenation _ left right ihl ihr => simp only [Span, ihl h.1, ihr h.2]
  | iteration _ arg _ _ ih => simp only [Span, ih h]
  | union _ left right ihl ihr => simp only [Span, ihl h.1, ihr h.2]

/-- The characters of a string have 16 bits. -/
theorem isWide_wchars {loc : Locale} (hloc : loc.ReadsWide) {n : ℕ} {str : Str} :
    ∀ c ∈ (wchars loc n str).1, IsWide c.1 := by
  induction str generalizing n with
  | nil =>
    intro c hc
    cases n <;> exact absurd hc List.not_mem_nil
  | cons b str ih =>
    cases n with
    | succ n => exact ih
    | zero =>
      rw [wchars]
      split
      · exact fun c hc => absurd hc List.not_mem_nil
      · next wc n hmb =>
        split
        · exact fun c hc => absurd hc List.not_mem_nil
        · exact List.forall_mem_cons.mpr ⟨hloc.mbtowc _ _ _ hmb, ih⟩

/-! ## Finding what the tree spans -/

/-- **A compiled pattern is found if and only if it is there**, with its codes cut to 16 bits. -/
theorem treTnfaRunParallel_compile (s : Search) (ast : Ast) (position : ℕ)
    (dirs : ℕ → TagDirection) (h : Compilable ast position) (hone : OneWay ast)
    (htnfa : s.tnfa = compile ast position dirs)
    (string : Str) (hends : (wchars s.loc 0 string).2 = true) :
    let text := (wchars s.loc 0 string).1
    (treTnfaRunParallel s string).isSome = true ↔
      ∃ i u, u ≤ text.length ∧ Span (s.reading text).cint ast i u := by
  have hm : s.tnfa.Marked := by
    rw [htnfa]
    exact marked_compile h
  have hspan : ∀ i u, s.tnfa.Accepts (s.reading (wchars s.loc 0 string).1) i u ↔
      Span (s.reading (wchars s.loc 0 string).1).cint ast i u := by
    intro i u
    rw [htnfa]
    exact accepts_iff_span _ ast position dirs h hone i u
  simpa only [hspan] using treTnfaRunParallel_isSome s string hm hends

end Tre
end UtilWin
