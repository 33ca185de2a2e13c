import UtilWin.Library.Fragment
import UtilWin.Regex.Glob

/-!
# The syntax trees of `regcomp`, and their expansion

`tre_parse` makes a tree, `tre_expand_ast` replaces the iterations that are counted by copies of what
they repeat, and the rest of `regcomp` makes an automaton of the result.

A leaf that reads something has a position, which becomes its state.  So the copies of a part must
not have the positions of the original: `tre_expand_ast` carries along how much it has to add.

The trees of the source point to their nodes, and `tre_expand_ast` writes over them; here the expanded
tree is returned.  The two stacks of the source are recursions.  Running out of memory is left out.

A tree spans the part of a text from one time to another.  What a character is and where an assertion
holds is a parameter (`Reading`).  Expanding a tree does not change its span (`span_treExpandAst`).
-/

namespace UtilWin
namespace Tre

open Glob (Str)

/-- A bitmap of assertions. -/
abbrev Assertions := BitVec 32

/-- The assertions that a pattern can make. -/
inductive Assertion where
  | atBol
  | atEol
  | atBow
  | atEow
  | atWb
  | atWbNeg
  deriving DecidableEq

def assertAtBol : Assertions := 1
def assertAtEol : Assertions := 2
def assertCharClass : Assertions := 4
def assertCharClassNeg : Assertions := 8
def assertAtBow : Assertions := 16
def assertAtEow : Assertions := 32
def assertAtWb : Assertions := 64
def assertAtWbNeg : Assertions := 128
def assertBackref : Assertions := 256

/-- The bit of an assertion. -/
def Assertion.bit : Assertion → Assertions
  | atBol => assertAtBol
  | atEol => assertAtEol
  | atBow => assertAtBow
  | atEow => assertAtEow
  | atWb => assertAtWb
  | atWbNeg => assertAtWbNeg

/-- `TRE_CHAR_MAX`. -/
def treCharMax : ℤ := 0x10ffff

/-- What a `tre_literal_t` says about the character it reads. -/
structure Literal where
  codeMin : ℤ
  codeMax : ℤ
  /-- The name of the class; `none` for `0`. -/
  cls : Option Str
  /-- The names of the negated classes; empty for `NULL`. -/
  negClasses : List Str
  deriving DecidableEq

/-- A `tre_literal_t`: a character with its position, or one of the special ones. -/
inductive Leaf where
  | char (position : ℕ) (lit : Literal)
  | empty
  | assertion (a : Assertion)
  | tag (id : ℕ)
  | backref (position : ℕ) (number : ℕ)
  deriving DecidableEq

/-- A `tre_ast_node_t`, with its `submatch_id`.  A bound `max` of `-1` is `none`. -/
inductive Ast where
  | literal (sid : Option ℕ) (leaf : Leaf)
  | catenation (sid : Option ℕ) (left right : Ast)
  | iteration (sid : Option ℕ) (arg : Ast) (min : ℕ) (max : Option ℕ)
  | union (sid : Option ℕ) (left right : Ast)
  deriving DecidableEq

/-- `TRE_TAG_MINIMIZE` and `TRE_TAG_MAXIMIZE`. -/
inductive TagDirection where
  | minimize
  | maximize
  deriving DecidableEq

/-- The positions of a leaf: none or one. -/
def Leaf.positions : Leaf → List ℕ
  | char position _ => [position]
  | empty => []
  | assertion _ => []
  | tag _ => []
  | backref position _ => [position]

/-- The positions in a tree, from left to right. -/
def positions : Ast → List ℕ
  | .literal _ leaf => leaf.positions
  | .catenation _ left right => positions left ++ positions right
  | .iteration _ arg _ _ => positions arg
  | .union _ left right => positions left ++ positions right

/-! ## Copying -/

/-- The flags of `tre_copy_ast`. -/
inductive CopyFlags where
  | keep
  | removeTags
  | maximizeFirstTag
  deriving DecidableEq

/-- `tre_copy_ast`, for a leaf. -/
def Leaf.copy (flags : CopyFlags) (posAdd : ℕ) : Leaf → Leaf
  | char position lit => char (position + posAdd) lit
  | empty => empty
  | assertion a => assertion a
  | tag id => if flags = .removeTags then empty else tag id
  | backref position number => backref (position + posAdd) number

/-- The tree that `tre_copy_ast` makes. -/
def copyAst (flags : CopyFlags) (posAdd : ℕ) : Ast → Ast
  | .literal _ leaf => .literal none (leaf.copy flags posAdd)
  | .catenation _ left right =>
    .catenation none (copyAst flags posAdd left) (copyAst flags posAdd right)
  | .iteration _ arg min max => .iteration none (copyAst flags posAdd arg) min max
  | .union _ left right => .union none (copyAst flags posAdd left) (copyAst flags posAdd right)

/-- The tag that `tre_copy_ast` comes to first. -/
def firstTag : Ast → Option ℕ
  | .literal _ (.tag id) => some id
  | .literal _ _ => none
  | .catenation _ left right => (firstTag left).or (firstTag right)
  | .iteration _ arg _ _ => firstTag arg
  | .union _ left right => (firstTag left).or (firstTag right)

/-- What the copies of one iteration change: `pos_add`, `pos_add_save`, `max_pos`,
`tag_directions`. -/
structure Copying where
  posAdd : ℕ
  posAddSave : ℕ
  maxPos : ℕ
  tagDirections : ℕ → TagDirection

/-- A call of `tre_copy_ast`, with `pos_add` saved before. -/
def treCopyAst (flags : CopyFlags) (arg : Ast) (c : Copying) : Ast × Copying :=
  let copy := copyAst flags c.posAdd arg
  (copy,
    { posAdd := c.posAdd + (positions arg).length
      posAddSave := c.posAdd
      maxPos := (positions copy).foldl max c.maxPos
      tagDirections :=
        if flags = .maximizeFirstTag then
          (firstTag arg).elim c.tagDirections fun id =>
            Function.update c.tagDirections id .maximize
        else c.tagDirections })

/-- The copies that have to be there, `n` of them still to be made. -/
def required (arg : Ast) : (n : ℕ) → Option Ast → Copying → Option Ast × Copying
  | 0, seq1, c => (seq1, c)
  | n + 1, seq1, c =>
    let p := treCopyAst (if n = 0 then .maximizeFirstTag else .removeTags) arg c
    required arg n (some (seq1.elim p.1 fun seq => .catenation none seq p.1)) p.2

/-- The copies that may be left out, `n` of them still to be made. -/
def optional (arg : Ast) : (n : ℕ) → Option Ast → Copying → Option Ast × Copying
  | 0, seq2, c => (seq2, c)
  | n + 1, seq2, c =>
    let p := treCopyAst .keep arg c
    let seq := seq2.elim p.1 fun seq => .catenation none p.1 seq
    optional arg n (some (.union none (.literal none .empty) seq)) p.2

/-- The copies behind the required ones. -/
def behind (arg : Ast) (min : ℕ) (c : Copying) : Option ℕ → Option Ast × Copying
  | none =>
    let p := treCopyAst .keep arg c
    (some (.iteration none p.1 0 none), p.2)
  | some max => optional arg (max - min) none c

/-- The two sequences in one; `arg` does not come out, as there is a copy. -/
def joined (arg : Ast) (seq1 seq2 : Option Ast) : Ast :=
  seq1.elim (seq2.getD arg) fun s => seq2.elim s fun t => .catenation none s t

/-- The `submatch_id` of a node. -/
def Ast.sid : Ast → Option ℕ
  | .literal sid _ => sid
  | .catenation sid _ _ => sid
  | .iteration sid _ _ _ => sid
  | .union sid _ _ => sid

/-- The node, with another `submatch_id`. -/
def Ast.withSid (sid : Option ℕ) : Ast → Ast
  | .literal _ leaf => .literal sid leaf
  | .catenation _ left right => .catenation sid left right
  | .iteration _ arg min max => .iteration sid arg min max
  | .union _ left right => .union sid left right

/-! ## Expanding -/

/-- The counters of `tre_expand_ast`. -/
structure Expansion where
  posAdd : ℕ
  posAddTotal : ℕ
  maxPos : ℕ
  iterDepth : ℕ
  tagDirections : ℕ → TagDirection

/-- Iterations that are expanded: `min > 1 || max > 1`. -/
def expands (min : ℕ) (max : Option ℕ) : Bool := 1 < min || max.any fun m => 1 < m

/-- The copies in place of an iteration. -/
def unroll (sid : Option ℕ) (arg : Ast) (min : ℕ) (max : Option ℕ) (posAdd : ℕ) (e : Expansion) :
    Ast × Expansion :=
  let seq1 := required arg min none ⟨posAdd, posAdd, e.maxPos, e.tagDirections⟩
  let seq2 := behind arg min seq1.2 max
  ((joined arg seq1.1 seq2.1).withSid sid,
    { e with
      posAdd := seq2.2.posAddSave
      maxPos := seq2.2.maxPos
      tagDirections := seq2.2.tagDirections })

/-- `EXPAND_AFTER_ITER`, where `pos_add` was `posAdd` before the iteration. -/
def afterIter (sid : Option ℕ) (arg : Ast) (min : ℕ) (max : Option ℕ) (posAdd : ℕ) (e : Expansion) :
    Ast × Expansion :=
  let p :=
    if expands min max then unroll sid arg min max posAdd e
    else (.iteration sid arg min max, { e with posAdd := posAdd })
  let total := e.posAddTotal + (p.2.posAdd - posAdd)
  let depth := e.iterDepth - 1
  (p.1,
    { p.2 with
      posAddTotal := total
      iterDepth := depth
      posAdd := if depth = 0 then total else p.2.posAdd })

/-- `EXPAND_RECURSE`. -/
def expandAst : Ast → Expansion → Ast × Expansion
  | .literal sid leaf, e =>
    let leaf := leaf.copy .keep e.posAdd
    (.literal sid leaf, { e with maxPos := leaf.positions.foldl max e.maxPos })
  | .catenation sid left right, e =>
    let l := expandAst left e
    let r := expandAst right l.2
    (.catenation sid l.1 r.1, r.2)
  | .union sid left right, e =>
    let l := expandAst left e
    let r := expandAst right l.2
    (.union sid l.1 r.1, r.2)
  | .iteration sid arg min max, e =>
    -- what is going to be copied gets its positions when it is copied
    let a := expandAst arg
      { e with
        posAdd := if expands min max then 0 else e.posAdd
        iterDepth := e.iterDepth + 1 }
    afterIter sid a.1 min max e.posAdd a.2

/-- `tre_expand_ast`: the tree, `*position` and the directions of the tags. -/
def treExpandAst (ast : Ast) (position : ℕ) (tagDirections : ℕ → TagDirection) :
    Ast × ℕ × (ℕ → TagDirection) :=
  let p := expandAst ast ⟨0, 0, 0, 0, tagDirections⟩
  (p.1, max (position + p.2.posAddTotal) p.2.maxPos, p.2.tagDirections)

/-! ## What a tree spans -/

/-- What is read between two times, and what holds at a time. -/
structure Reading (T : Type) where
  reads : Literal → T → T → Prop
  refers : ℕ → T → T → Prop
  holds : Assertion → T → Prop

variable {T : Type} (R : Reading T)

/-- From one time to the other the text matches the tree. -/
def Span : Ast → T → T → Prop
  | .literal _ (.char _ lit) => R.reads lit
  | .literal _ .empty => Eq
  | .literal _ (.assertion a) => fun t u => t = u ∧ R.holds a t
  | .literal _ (.tag _) => Eq
  | .literal _ (.backref _ number) => R.refers number
  | .catenation _ left right => fun t u => ∃ v, Span left t v ∧ Span right v u
  | .iteration _ arg min max => Times (Span arg) min max
  | .union _ left right => fun t u => Span left t u ∨ Span right t u

/-- The bounds of the iterations are in their order, as `parse_dup` makes sure. -/
def Bounded : Ast → Prop
  | .literal _ _ => True
  | .catenation _ left right => Bounded left ∧ Bounded right
  | .iteration _ arg min max => Bounded arg ∧ ∀ m ∈ max, min ≤ m ∧ 1 ≤ m
  | .union _ left right => Bounded left ∧ Bounded right

variable {R} {a arg : Ast} {sid : Option ℕ} {flags : CopyFlags} {n k : ℕ} {t u : T}

@[simp] theorem span_withSid : Span R (a.withSid sid) = Span R a := by
  cases a with
  | literal _ leaf => cases leaf <;> rfl
  | catenation _ _ _ => rfl
  | iteration _ _ _ _ => rfl
  | union _ _ _ => rfl

/-- A copy spans what the original spans. -/
@[simp] theorem span_copyAst : Span R (copyAst flags n a) = Span R a := by
  induction a with
  | literal _ leaf =>
    cases leaf with
    | tag id =>
      simp only [copyAst, Leaf.copy]
      split <;> rfl
    | char _ _ => rfl
    | empty => rfl
    | assertion _ => rfl
    | backref _ _ => rfl
  | catenation _ left right ihl ihr => simp only [copyAst, Span, ihl, ihr]
  | iteration _ arg min max ih => simp only [copyAst, Span, ih]
  | union _ left right ihl ihr => simp only [copyAst, Span, ihl, ihr]

/-- What is spanned by a sequence that may not have begun. -/
def spanOf (R : Reading T) (seq : Option Ast) : T → T → Prop := seq.elim Eq (Span R)

/-- The required copies span `arg` as often. -/
theorem spanOf_required (seq : Option Ast) (c : Copying) :
    spanOf R (required arg n seq c).1 t u ↔
      ∃ v, spanOf R seq t v ∧ Repeats (Span R arg) n v u := by
  induction n generalizing seq c with
  | zero => simp [required]
  | succ n ih =>
    rw [required, ih]
    cases seq with
    | none => simp [spanOf, treCopyAst, repeats_succ]
    | some s =>
      simp only [spanOf, treCopyAst, Option.elim_some, Span, span_copyAst, repeats_succ]
      constructor
      · rintro ⟨w, ⟨v, hs, hv⟩, h⟩
        exact ⟨v, hs, w, hv, h⟩
      · rintro ⟨v, hs, w, hv, h⟩
        exact ⟨w, ⟨v, hs, hv⟩, h⟩

/-- The optional copies span `arg` up to as often. -/
theorem spanOf_optional (seq : Option Ast) (c : Copying)
    (hseq : ∀ t u, spanOf R seq t u ↔ Times (Span R arg) 0 (some k) t u) :
    spanOf R (optional arg n seq c).1 t u ↔ Times (Span R arg) 0 (some (k + n)) t u := by
  induction n generalizing seq c k with
  | zero => exact hseq t u
  | succ n ih =>
    rw [optional, ih (k := k + 1), Nat.succ_add_eq_add_succ]
    intro t u
    rw [times_zero_succ]
    simp only [← hseq]
    cases seq with
    | none => simp [spanOf, treCopyAst, Span]
    | some s => simp [spanOf, treCopyAst, Span]

theorem spanOf_behind {min : ℕ} {max : Option ℕ} (c : Copying) :
    spanOf R (behind arg min c max).1 t u ↔ Times (Span R arg) 0 (max.map (· - min)) t u := by
  cases max with
  | none => simp [behind, spanOf, treCopyAst, Span]
  | some m =>
    rw [behind, spanOf_optional (k := 0), Nat.zero_add]
    · rfl
    · intro t u
      rw [times_zero_zero]
      rfl

/-- An iteration that is expanded has a copy. -/
theorem required_isSome (seq : Option Ast) (c : Copying) (h : seq.isSome ∨ n ≠ 0) :
    (required arg n seq c).1.isSome := by
  induction n generalizing seq c with
  | zero => simpa [required] using h
  | succ n ih => exact ih _ _ (.inl rfl)

theorem optional_isSome (seq : Option Ast) (c : Copying) (h : seq.isSome ∨ n ≠ 0) :
    (optional arg n seq c).1.isSome := by
  induction n generalizing seq c with
  | zero => simpa [optional] using h
  | succ n ih => exact ih _ _ (.inl rfl)

theorem unroll_isSome {min : ℕ} {max : Option ℕ} (h : expands min max = true) (c c' : Copying) :
    (required arg min none c).1.isSome ∨ (behind arg min c' max).1.isSome := by
  rcases Nat.eq_zero_or_pos min with rfl | hmin
  · right
    cases max with
    | none => rfl
    | some m =>
      have hm : 1 < m := by simpa [expands] using h
      exact optional_isSome _ _ (.inr (by omega))
  · exact .inl (required_isSome _ _ (.inr (by omega)))

theorem span_joined {seq1 seq2 : Option Ast} (h : seq1.isSome ∨ seq2.isSome) :
    Span R (joined arg seq1 seq2) t u ↔ ∃ v, spanOf R seq1 t v ∧ spanOf R seq2 v u := by
  cases seq1 with
  | none =>
    cases seq2 with
    | none => simp at h
    | some s => simp [joined, spanOf]
  | some s =>
    cases seq2 with
    | none => simp [joined, spanOf]
    | some s' => simp [joined, spanOf, Span]

/-- **Unrolling an iteration does not change what it spans.** -/
theorem span_unroll {min : ℕ} {max : Option ℕ} {e : Expansion} (hle : ∀ m ∈ max, min ≤ m)
    (h : expands min max = true) :
    Span R (unroll sid arg min max n e).1 t u ↔ Times (Span R arg) min max t u := by
  rw [unroll, span_withSid, span_joined (unroll_isSome h _ _), times_iff_repeats hle]
  simp only [spanOf_required, spanOf_behind]
  simp [spanOf]

theorem span_expandAst {e : Expansion} (h : Bounded a) : Span R (expandAst a e).1 = Span R a := by
  induction a generalizing e with
  | literal _ leaf => cases leaf <;> rfl
  | catenation _ left right ihl ihr => simp only [expandAst, Span, ihl h.1, ihr h.2]
  | union _ left right ihl ihr => simp only [expandAst, Span, ihl h.1, ihr h.2]
  | iteration sid arg min max ih =>
    obtain ⟨harg, hmax⟩ := h
    simp only [expandAst, afterIter]
    split
    · funext t u
      rw [eq_iff_iff, span_unroll (fun m hm => (hmax m hm).1) ‹_›, ih harg]
      rfl
    · simp only [Span, ih harg]

/-- **Expanding the iterations of a tree does not change what it spans**, whatever a character is and
wherever an assertion holds. -/
theorem span_treExpandAst (R : Reading T) (ast : Ast) (position : ℕ)
    (tagDirections : ℕ → TagDirection) (t u : T) (h : Bounded ast) :
    Span R (treExpandAst ast position tagDirections).1 t u ↔ Span R ast t u := by
  rw [treExpandAst, span_expandAst h]

end Tre
end UtilWin
