import UtilWin.Regex.Ast

/-!
# The positions of an expanded tree

The states of the automaton are the positions of the leaves, so `regcomp` makes its tables as long as
`*position` says, and relies on `tre_expand_ast` to stay below it.  It does, for every tree; the
largest position that was seen is kept as a safeguard, and the safeguard never does anything
(`treExpandAst_positions`).

That different leaves keep different positions is another matter.  `pos_add` is put back after an
iteration, so what is expanded inside of an iteration is forgotten outside of it, until the
outermost iteration ends; and the copies of a part are as far from each other as the part has leaves,
which is too near if some of its positions are not in use.  Where nothing is counted inside of an
iteration, and a counted part uses its positions, the parts of the expanded tree have intervals of
positions of their own (`treExpandAst_laid`).  Only the leaves of one bracket expression share a
position.
-/

namespace UtilWin
namespace Tre

variable {a arg left right : Ast} {sid : Option ℕ} {flags : CopyFlags} {e : Expansion}
  {c : Copying} {d k m n p b lo hi lo' hi' : ℕ} {min : ℕ} {max : Option ℕ}

theorem foldl_max_le {l : List ℕ} : l.foldl Nat.max m ≤ b ↔ m ≤ b ∧ ∀ p ∈ l, p ≤ b := by
  induction l generalizing m with
  | nil => simp
  | cons p l ih => simp [ih, and_assoc]

theorem positions_copy {leaf : Leaf} :
    (leaf.copy flags d).positions = leaf.positions.map (· + d) := by
  cases leaf with
  | tag id =>
    rw [Leaf.copy]
    split <;> rfl
  | char _ _ => rfl
  | empty => rfl
  | assertion _ => rfl
  | backref _ _ => rfl

@[simp] theorem positions_copyAst : positions (copyAst flags d a) = (positions a).map (· + d) := by
  induction a with
  | literal _ leaf => exact positions_copy
  | catenation _ left right ihl ihr => simp [copyAst, positions, ihl, ihr]
  | iteration _ arg min max ih => exact ih
  | union _ left right ihl ihr => simp [copyAst, positions, ihl, ihr]

@[simp] theorem positions_withSid : positions (a.withSid sid) = positions a := by
  cases a <;> rfl

/-- The positions of a sequence that may not have begun. -/
def positionsOf (seq : Option Ast) : List ℕ := seq.elim [] positions

/-! ## They stay below the bound -/

/-- The positions `ps` were made by copying, with `pos_add` having been `start` and `max_pos` having
been `top` at first. -/
structure Copied (arg : Ast) (start top : ℕ) (ps : List ℕ) (c : Copying) : Prop where
  start_le : start ≤ c.posAddSave
  save_le : c.posAddSave ≤ c.posAdd
  mem : ∀ p ∈ ps, ∃ q ∈ positions arg, p ≤ q + c.posAddSave
  maxPos : ∀ b, top ≤ b → (∀ q ∈ positions arg, q + c.posAddSave ≤ b) → c.maxPos ≤ b

variable {start top : ℕ} {ps ps' : List ℕ} {seq seq1 seq2 : Option Ast}

/-- One more copy. -/
theorem Copied.treCopyAst (h : Copied arg start top ps c)
    (hps : ∀ p ∈ ps', p ∈ ps ∨ p ∈ positions (treCopyAst flags arg c).1) :
    Copied arg start top ps' (treCopyAst flags arg c).2 where
  start_le := Nat.le_trans h.start_le h.save_le
  save_le := Nat.le_add_right _ _
  mem p hp := by
    rcases hps p hp with hp | hp
    · obtain ⟨q, hq, hle⟩ := h.mem p hp
      exact ⟨q, hq, Nat.le_trans hle (Nat.add_le_add_left h.save_le q)⟩
    · simp only [Tre.treCopyAst, positions_copyAst, List.mem_map] at hp
      obtain ⟨q, hq, rfl⟩ := hp
      exact ⟨q, hq, Nat.le_refl _⟩
  maxPos b hb hq := by
    simp only [Tre.treCopyAst] at hq ⊢
    refine foldl_max_le.mpr ⟨h.maxPos b hb fun q hq' => ?_, ?_⟩
    · exact Nat.le_trans (Nat.add_le_add_left h.save_le q) (hq q hq')
    · intro p hp
      rw [positions_copyAst, List.mem_map] at hp
      obtain ⟨q, hq', rfl⟩ := hp
      exact hq q hq'

theorem Copied.required (h : Copied arg start top (positionsOf seq) c) :
    Copied arg start top (positionsOf (required arg n seq c).1) (required arg n seq c).2 := by
  induction n generalizing seq c with
  | zero => exact h
  | succ n ih =>
    refine ih (h.treCopyAst fun p hp => ?_)
    cases seq with
    | none => exact .inr hp
    | some s => exact List.mem_append.mp hp

theorem Copied.optional (h : Copied arg start top (ps ++ positionsOf seq) c) :
    Copied arg start top (ps ++ positionsOf (optional arg n seq c).1) (optional arg n seq c).2 := by
  induction n generalizing seq c with
  | zero => exact h
  | succ n ih =>
    refine ih (h.treCopyAst fun p hp => ?_)
    rcases List.mem_append.mp hp with hp | hp
    · exact .inl (List.mem_append_left _ hp)
    · cases seq with
      | none => exact .inr hp
      | some s =>
        have hp : p ∈ positions (Tre.treCopyAst .keep arg c).1 ++ positions s := hp
        exact (List.mem_append.mp hp).symm.imp (List.mem_append_right _) id

theorem Copied.behind (h : Copied arg start top ps c) :
    Copied arg start top (ps ++ positionsOf (behind arg min c max).1) (behind arg min c max).2 := by
  cases max with
  | none => exact h.treCopyAst fun p hp => List.mem_append.mp hp
  | some m =>
    have h : Copied arg start top (ps ++ positionsOf none) c := by simpa [positionsOf] using h
    exact h.optional

theorem positions_joined (h : seq1.isSome ∨ seq2.isSome) :
    positions (joined arg seq1 seq2) = positionsOf seq1 ++ positionsOf seq2 := by
  cases seq1 with
  | none =>
    cases seq2 with
    | none => simp at h
    | some s => rfl
  | some s =>
    cases seq2 with
    | none => exact (List.append_nil _).symm
    | some s' => rfl

/-- What unrolling an iteration does to the positions. -/
theorem copied_unroll (sid : Option ℕ) (arg : Ast) (d : ℕ) (e : Expansion)
    (h : expands min max = true) :
    ∃ c : Copying, Copied arg d e.maxPos (positions (unroll sid arg min max d e).1) c ∧
      (unroll sid arg min max d e).2.posAdd = c.posAddSave ∧
      (unroll sid arg min max d e).2.maxPos = c.maxPos := by
  refine ⟨_, ?_, rfl, rfl⟩
  rw [unroll, positions_withSid, positions_joined (unroll_isSome h _ _)]
  refine Copied.behind (Copied.required ⟨Nat.le_refl d, Nat.le_refl d, ?_, fun b hb _ => hb⟩)
  simp [positionsOf]

/-- What `EXPAND_RECURSE` does to the counters and to positions below `n`. -/
structure Grows (n : ℕ) (e : Expansion) (r : Ast × Expansion) : Prop where
  iterDepth : r.2.iterDepth = e.iterDepth
  outside : r.2.iterDepth = 0 → r.2.posAdd = r.2.posAddTotal
  total_le : e.posAddTotal ≤ r.2.posAddTotal
  posAdd_le : r.2.posAdd + e.posAddTotal ≤ e.posAdd + r.2.posAddTotal
  mem : ∀ p ∈ positions r.1, p + e.posAddTotal < n + e.posAdd + r.2.posAddTotal
  maxPos : ∀ b, e.maxPos ≤ b → n + e.posAdd + r.2.posAddTotal ≤ b + 1 + e.posAddTotal →
    r.2.maxPos ≤ b

/-- Two parts that are expanded one after the other. -/
theorem Grows.append {x : Ast} {l r : Ast × Expansion} (hl : Grows n e l) (hr : Grows n l.2 r)
    (hx : positions x = positions l.1 ++ positions r.1) : Grows n e (x, r.2) where
  iterDepth := hr.iterDepth.trans hl.iterDepth
  outside := hr.outside
  total_le := Nat.le_trans hl.total_le hr.total_le
  posAdd_le := by
    have h₁ := hl.posAdd_le
    have h₂ := hr.posAdd_le
    simp only
    omega
  mem p hp := by
    have h₁ := hl.posAdd_le
    have h₂ := hr.total_le
    rw [hx, List.mem_append] at hp
    rcases hp with hp | hp
    · have := hl.mem p hp
      simp only
      omega
    · have := hr.mem p hp
      simp only
      omega
  maxPos b hb hn := by
    have h₁ := hl.posAdd_le
    have h₂ := hr.total_le
    simp only at hn
    exact hr.maxPos b (hl.maxPos b hb (by omega)) (by omega)

/-- What `EXPAND_AFTER_ITER` does, with the counters that it finds on the stack. -/
theorem grows_afterIter {r : Ast × Expansion} (he : e.iterDepth = 0 → e.posAdd = e.posAddTotal)
    (hr : Grows n { e with posAdd := if expands min max then 0 else e.posAdd,
                           iterDepth := e.iterDepth + 1 } r) :
    Grows n e (afterIter sid r.1 min max e.posAdd r.2) := by
  obtain ⟨hdepth, -, htotal, hadd, hmem, hmax⟩ := hr
  simp only at hdepth htotal hadd hmem hmax
  have hdepth' : r.2.iterDepth - 1 = e.iterDepth := by omega
  rw [afterIter]
  by_cases hexp : expands min max = true
  · obtain ⟨c, hc, hsave, hcmax⟩ := copied_unroll sid r.1 e.posAdd r.2 hexp
    have hstart := hc.start_le
    simp only [hexp, if_true, Nat.add_zero, hsave, hcmax, hdepth'] at hadd hmem hmax ⊢
    refine ⟨rfl, fun h => if_pos h, ?_, ?_, ?_, ?_⟩
    · simp only
      omega
    · simp only
      split
      · have := he ‹_›
        omega
      · omega
    · intro p hp
      obtain ⟨q, hq, hle⟩ := hc.mem p hp
      have := hmem q hq
      simp only
      omega
    · intro b hb hn
      simp only at hn ⊢
      refine hc.maxPos b (hmax b hb (by omega)) fun q hq => ?_
      have := hmem q hq
      omega
  · rw [Bool.not_eq_true] at hexp
    simp only [hexp, Bool.false_eq_true, if_false] at hadd hmem hmax
    simp only [hexp, Bool.false_eq_true, if_false, Nat.sub_self, Nat.add_zero, hdepth']
    refine ⟨rfl, fun h => if_pos h, htotal, ?_, hmem, hmax⟩
    simp only
    split
    · have := he ‹_›
      omega
    · omega

theorem grows_expandAst (he : e.iterDepth = 0 → e.posAdd = e.posAddTotal)
    (ha : ∀ p ∈ positions a, p < n) : Grows n e (expandAst a e) := by
  induction a generalizing e with
  | literal sid leaf =>
    refine ⟨rfl, he, Nat.le_refl _, Nat.le_refl _, ?_, ?_⟩
    · intro p hp
      rw [expandAst, positions, positions_copy, List.mem_map] at hp
      obtain ⟨q, hq, rfl⟩ := hp
      have := ha q hq
      simp only [expandAst]
      omega
    · intro b hb hn
      refine foldl_max_le.mpr ⟨hb, fun p hp => ?_⟩
      rw [positions_copy, List.mem_map] at hp
      obtain ⟨q, hq, rfl⟩ := hp
      have := ha q hq
      simp only [expandAst] at hn
      omega
  | catenation sid left right ihl ihr =>
    have hl := ihl he fun p hp => ha p (List.mem_append_left _ hp)
    exact hl.append (ihr hl.outside fun p hp => ha p (List.mem_append_right _ hp)) rfl
  | union sid left right ihl ihr =>
    have hl := ihl he fun p hp => ha p (List.mem_append_left _ hp)
    exact hl.append (ihr hl.outside fun p hp => ha p (List.mem_append_right _ hp)) rfl
  | iteration sid arg min max ih =>
    exact grows_afterIter he (ih (fun h => absurd h (Nat.succ_ne_zero _)) ha)

/-- **All positions stay below `*position`, and the safeguard has nothing to do.** -/
theorem treExpandAst_positions (ast : Ast) (position : ℕ) (tagDirections : ℕ → TagDirection)
    (h : ∀ p ∈ positions ast, p < position) :
    (∀ p ∈ positions (treExpandAst ast position tagDirections).1,
      p < (treExpandAst ast position tagDirections).2.1) ∧
    (treExpandAst ast position tagDirections).2.1 =
      position + (expandAst ast ⟨0, 0, 0, 0, tagDirections⟩).2.posAddTotal := by
  obtain ⟨-, -, -, -, hmem, hmax⟩ :=
    grows_expandAst (e := ⟨0, 0, 0, 0, tagDirections⟩) (fun _ => rfl) h
  simp only [Nat.add_zero, Nat.zero_le, true_implies] at hmem hmax
  have hguard := hmax _ (Nat.le_succ _)
  rw [treExpandAst, max_eq_left hguard]
  exact ⟨hmem, rfl⟩

/-! ## They stay apart -/

/-- Empty leaves and tags, which read nothing and assert nothing. -/
def Void : Ast → Prop
  | .literal _ .empty | .literal _ (.tag _) => True
  | .literal _ (.char _ _) | .literal _ (.backref _ _) | .literal _ (.assertion _) => False
  | .catenation _ left right => Void left ∧ Void right
  | .iteration _ _ _ _ | .union _ _ _ => False

/-- The leaves of a bracket expression, with tags between them: characters with the position `p`. -/
def OneState (p : ℕ) : Ast → Prop
  | .literal _ (.char q _) => q = p
  | .literal _ (.backref _ _) | .literal _ .empty | .literal _ (.assertion _)
  | .literal _ (.tag _) => False
  | .catenation _ left right => Void left ∧ OneState p right ∨ OneState p left ∧ Void right
  | .iteration _ _ _ _ => False
  | .union _ left right => OneState p left ∧ OneState p right

/-- Two things that have an interval each, next to each other. -/
def Apart (A B : ℕ → ℕ → Prop) (lo hi : ℕ) : Prop :=
  ∃ mid, (A lo mid ∧ B mid hi) ∨ (B lo mid ∧ A mid hi)

/-- The positions of the tree are in the interval from `lo` to `hi`, and the parts of the tree have
intervals of their own in it, down to the bracket expressions. -/
def Laid : Ast → ℕ → ℕ → Prop
  | .literal _ leaf => fun lo hi => lo ≤ hi ∧ ∀ p ∈ leaf.positions, lo ≤ p ∧ p < hi
  | .catenation _ left right => Apart (Laid left) (Laid right)
  | .iteration _ arg _ _ => Laid arg
  | .union _ left right => fun lo hi =>
    (∃ p, lo ≤ p ∧ p < hi ∧ OneState p left ∧ OneState p right) ∨
      Apart (Laid left) (Laid right) lo hi

/-- Nothing is counted in the tree. -/
def Uncounted : Ast → Prop
  | .literal _ _ => True
  | .catenation _ left right => Uncounted left ∧ Uncounted right
  | .iteration _ arg min max => Uncounted arg ∧ expands min max = false
  | .union _ left right => Uncounted left ∧ Uncounted right

/-- A tree as it is parsed, in the interval from `lo` to `hi`, for which `tre_expand_ast` keeps the
positions apart: nothing is counted inside of an iteration, and what is counted has as many leaves as
its interval is long. -/
def Ready : Ast → ℕ → ℕ → Prop
  | .literal _ leaf => fun lo hi => lo ≤ hi ∧ ∀ p ∈ leaf.positions, lo ≤ p ∧ p < hi
  | .catenation _ left right => fun lo hi => ∃ mid, Ready left lo mid ∧ Ready right mid hi
  | .iteration _ arg min max => fun lo hi => Uncounted arg ∧
    ∃ lo' hi', lo ≤ lo' ∧ hi' ≤ hi ∧ Laid arg lo' hi' ∧
      (expands min max = true → hi' ≤ lo' + (positions arg).length)
  | .union _ left right => fun lo hi =>
    (∃ p, lo ≤ p ∧ p < hi ∧ OneState p left ∧ OneState p right) ∨
      ∃ mid, Ready left lo mid ∧ Ready right mid hi

theorem Apart.mono {A B A' B' : ℕ → ℕ → Prop} (h : Apart A B lo hi)
    (hA : ∀ mid, (A lo mid → A' lo' mid) ∧ (A mid hi → A' mid hi'))
    (hB : ∀ mid, (B lo mid → B' lo' mid) ∧ (B mid hi → B' mid hi')) : Apart A' B' lo' hi' := by
  obtain ⟨mid, ⟨h₁, h₂⟩ | ⟨h₁, h₂⟩⟩ := h
  · exact ⟨mid, .inl ⟨(hA mid).1 h₁, (hB mid).2 h₂⟩⟩
  · exact ⟨mid, .inr ⟨(hB mid).1 h₁, (hA mid).2 h₂⟩⟩

theorem Apart.shift {A B A' B' : ℕ → ℕ → Prop} (h : Apart A B lo hi)
    (hA : ∀ x y, A x y → A' (x + d) (y + d)) (hB : ∀ x y, B x y → B' (x + d) (y + d)) :
    Apart A' B' (lo + d) (hi + d) := by
  obtain ⟨mid, ⟨h₁, h₂⟩ | ⟨h₁, h₂⟩⟩ := h
  · exact ⟨mid + d, .inl ⟨hA _ _ h₁, hB _ _ h₂⟩⟩
  · exact ⟨mid + d, .inr ⟨hB _ _ h₁, hA _ _ h₂⟩⟩

theorem Laid.le (h : Laid a lo hi) : lo ≤ hi := by
  induction a generalizing lo hi with
  | literal _ leaf => exact h.1
  | catenation _ left right ihl ihr =>
    obtain ⟨mid, ⟨h₁, h₂⟩ | ⟨h₁, h₂⟩⟩ := h
    · exact Nat.le_trans (ihl h₁) (ihr h₂)
    · exact Nat.le_trans (ihr h₁) (ihl h₂)
  | iteration _ arg _ _ ih => exact ih h
  | union _ left right ihl ihr =>
    obtain ⟨p, hlo, hhi, -⟩ | ⟨mid, ⟨h₁, h₂⟩ | ⟨h₁, h₂⟩⟩ := h
    · omega
    · exact Nat.le_trans (ihl h₁) (ihr h₂)
    · exact Nat.le_trans (ihr h₁) (ihl h₂)

/-- A longer interval will do as well. -/
theorem Laid.mono (h : Laid a lo hi) (hlo : lo' ≤ lo) (hhi : hi ≤ hi') : Laid a lo' hi' := by
  induction a generalizing lo hi lo' hi' with
  | literal _ leaf =>
    refine ⟨by have := h.1; omega, fun p hp => ?_⟩
    have := h.2 p hp
    omega
  | catenation _ left right ihl ihr =>
    exact Apart.mono h
      (fun mid => ⟨fun h => ihl h hlo (Nat.le_refl _), fun h => ihl h (Nat.le_refl _) hhi⟩)
      (fun mid => ⟨fun h => ihr h hlo (Nat.le_refl _), fun h => ihr h (Nat.le_refl _) hhi⟩)
  | iteration _ arg _ _ ih => exact ih h hlo hhi
  | union _ left right ihl ihr =>
    rcases h with ⟨p, hp, hp', hone⟩ | h
    · exact .inl ⟨p, by omega, by omega, hone⟩
    · exact .inr (Apart.mono h
        (fun mid => ⟨fun h => ihl h hlo (Nat.le_refl _), fun h => ihl h (Nat.le_refl _) hhi⟩)
        (fun mid => ⟨fun h => ihr h hlo (Nat.le_refl _), fun h => ihr h (Nat.le_refl _) hhi⟩))

theorem Void.positions (h : Void a) : positions a = [] := by
  induction a with
  | literal _ leaf =>
    cases leaf with
    | char _ _ => exact h.elim
    | empty => rfl
    | assertion _ => rfl
    | tag _ => rfl
    | backref _ _ => exact h.elim
  | catenation _ left right ihl ihr => rw [Tre.positions, ihl h.1, ihr h.2, List.append_nil]
  | iteration _ _ _ _ => exact h.elim
  | union _ _ _ => exact h.elim

theorem Void.copyAst (h : Void a) : Void (copyAst flags d a) := by
  induction a with
  | literal _ leaf =>
    cases leaf with
    | char _ _ => exact h.elim
    | empty => trivial
    | assertion _ => exact h.elim
    | tag _ =>
      rw [Tre.copyAst, Leaf.copy]
      split <;> trivial
    | backref _ _ => exact h.elim
  | catenation _ left right ihl ihr => exact ⟨ihl h.1, ihr h.2⟩
  | iteration _ _ _ _ => exact h.elim
  | union _ _ _ => exact h.elim

/-- Such a part is not changed. -/
theorem Void.expandAst (h : Void a) : expandAst a e = (a, e) := by
  induction a with
  | literal _ leaf =>
    cases leaf with
    | char _ _ => exact h.elim
    | empty => rfl
    | assertion _ => exact h.elim
    | tag _ => rfl
    | backref _ _ => exact h.elim
  | catenation _ left right ihl ihr =>
    rw [Tre.expandAst]
    simp only [ihl h.1, ihr h.2]
  | iteration _ _ _ _ => exact h.elim
  | union _ _ _ => exact h.elim

theorem OneState.mem (h : OneState p a) : ∀ q ∈ positions a, q = p := by
  induction a with
  | literal _ leaf =>
    cases leaf with
    | char q _ =>
      intro q' hq'
      rw [List.mem_singleton.mp hq']
      exact h
    | empty => exact h.elim
    | assertion _ => exact h.elim
    | tag _ => exact h.elim
    | backref _ _ => exact h.elim
  | catenation _ left right ihl ihr =>
    rw [Tre.positions]
    rcases h with ⟨hl, hr⟩ | ⟨hl, hr⟩
    · rw [hl.positions, List.nil_append]
      exact ihr hr
    · rw [hr.positions, List.append_nil]
      exact ihl hl
  | iteration _ _ _ _ => exact h.elim
  | union _ left right ihl ihr =>
    intro q hq
    rcases List.mem_append.mp hq with hq | hq
    · exact ihl h.1 q hq
    · exact ihr h.2 q hq

theorem Apart.mem {A B : ℕ → ℕ → Prop} {l r : List ℕ} (h : Apart A B lo hi)
    (hA : ∀ x y, A x y → x ≤ y ∧ ∀ p ∈ l, x ≤ p ∧ p < y)
    (hB : ∀ x y, B x y → x ≤ y ∧ ∀ p ∈ r, x ≤ p ∧ p < y) : ∀ p ∈ l ++ r, lo ≤ p ∧ p < hi := by
  obtain ⟨mid, ⟨h₁, h₂⟩ | ⟨h₂, h₁⟩⟩ := h
  all_goals
    obtain ⟨hle, hl⟩ := hA _ _ h₁
    obtain ⟨hle', hr⟩ := hB _ _ h₂
    intro p hp
    rcases List.mem_append.mp hp with hp | hp
    · have := hl p hp
      omega
    · have := hr p hp
      omega

/-- The positions are in the interval. -/
theorem Laid.mem (h : Laid a lo hi) : ∀ p ∈ positions a, lo ≤ p ∧ p < hi := by
  induction a generalizing lo hi with
  | literal _ leaf => exact h.2
  | catenation _ left right ihl ihr =>
    exact Apart.mem h (fun _ _ h => ⟨h.le, ihl h⟩) (fun _ _ h => ⟨h.le, ihr h⟩)
  | iteration _ arg _ _ ih => exact ih h
  | union _ left right ihl ihr =>
    rcases h with ⟨p, hlo, hhi, hl, hr⟩ | h
    · intro q hq
      obtain rfl : q = p := by
        rcases List.mem_append.mp hq with hq | hq
        · exact hl.mem q hq
        · exact hr.mem q hq
      exact ⟨hlo, hhi⟩
    · exact Apart.mem h (fun _ _ h => ⟨h.le, ihl h⟩) (fun _ _ h => ⟨h.le, ihr h⟩)

theorem oneState_copyAst (h : OneState p a) : OneState (p + d) (copyAst flags d a) := by
  induction a with
  | literal _ leaf =>
    cases leaf with
    | char q _ => exact congrArg (· + d) h
    | empty => exact h.elim
    | assertion _ => exact h.elim
    | tag _ => exact h.elim
    | backref _ _ => exact h.elim
  | catenation _ left right ihl ihr =>
    exact h.imp (fun h => ⟨h.1.copyAst, ihr h.2⟩) fun h => ⟨ihl h.1, h.2.copyAst⟩
  | iteration _ _ _ _ => exact h.elim
  | union _ left right ihl ihr => exact ⟨ihl h.1, ihr h.2⟩

theorem laid_leaf {leaf : Leaf} (h : lo ≤ hi ∧ ∀ p ∈ leaf.positions, lo ≤ p ∧ p < hi) :
    lo + d ≤ hi + d ∧ ∀ p ∈ (leaf.copy flags d).positions, lo + d ≤ p ∧ p < hi + d := by
  refine ⟨Nat.add_le_add_right h.1 d, fun p hp => ?_⟩
  rw [positions_copy, List.mem_map] at hp
  obtain ⟨q, hq, rfl⟩ := hp
  have := h.2 q hq
  omega

/-- A copy is laid where the original would be. -/
theorem laid_copyAst (h : Laid a lo hi) : Laid (copyAst flags d a) (lo + d) (hi + d) := by
  induction a generalizing lo hi with
  | literal _ leaf => exact laid_leaf h
  | catenation _ left right ihl ihr => exact Apart.shift h (fun _ _ => ihl) (fun _ _ => ihr)
  | iteration _ arg _ _ ih => exact ih h
  | union _ left right ihl ihr =>
    rcases h with ⟨p, hlo, hhi, hl, hr⟩ | h
    · exact .inl ⟨p + d, by omega, by omega, oneState_copyAst hl, oneState_copyAst hr⟩
    · exact .inr (Apart.shift h (fun _ _ => ihl) (fun _ _ => ihr))

theorem laid_withSid : Laid (a.withSid sid) = Laid a := by
  cases a <;> rfl

theorem laid_joined {f : ℕ} (h : seq1.isSome ∨ seq2.isSome)
    (h₁ : seq1.elim (lo ≤ f) (Laid · lo f)) (h₂ : seq2.elim (f ≤ hi) (Laid · f hi)) :
    Laid (joined arg seq1 seq2) lo hi := by
  cases seq1 with
  | none =>
    cases seq2 with
    | none => simp at h
    | some s => exact Laid.mono h₂ h₁ (Nat.le_refl _)
  | some s =>
    cases seq2 with
    | none => exact Laid.mono h₁ (Nat.le_refl _) h₂
    | some s' => exact ⟨f, .inl ⟨h₁, h₂⟩⟩

/-! ### The copies -/

/-- A sequence that may not have begun, from `start` on; the next copy of a part between `lo` and
`hi` comes behind it. -/
def LaidBefore (start lo hi : ℕ) (seq : Option Ast) (c : Copying) : Prop :=
  ∃ f, seq.elim (start ≤ f) (Laid · start f) ∧ f ≤ lo + c.posAdd ∧ f ≤ hi + c.posAddSave

section

variable (harg : Laid arg lo hi) (hlen : hi ≤ lo + (positions arg).length)

include hlen in
/-- One more copy. -/
theorem LaidBefore.treCopyAst (h : LaidBefore start lo hi seq c)
    (hseq : ∀ f, seq.elim (start ≤ f) (Laid · start f) → f ≤ lo + c.posAdd →
      seq1.elim (start ≤ hi + c.posAdd) (Laid · start (hi + c.posAdd))) :
    LaidBefore start lo hi seq1 (treCopyAst flags arg c).2 := by
  obtain ⟨f, hf, hle, -⟩ := h
  refine ⟨hi + c.posAdd, hseq f hf hle, ?_, Nat.le_refl _⟩
  simp only [Tre.treCopyAst]
  omega

include harg hlen

theorem LaidBefore.required (h : LaidBefore start lo hi seq c) :
    LaidBefore start lo hi (required arg n seq c).1 (required arg n seq c).2 := by
  induction n generalizing seq c with
  | zero => exact h
  | succ n ih =>
    refine ih (h.treCopyAst hlen fun f hf hle => ?_)
    cases seq with
    | none => exact (laid_copyAst harg).mono (Nat.le_trans hf hle) (Nat.le_refl _)
    | some s =>
      exact ⟨lo + c.posAdd, .inl ⟨Laid.mono hf (Nat.le_refl _) hle, laid_copyAst harg⟩⟩

theorem LaidBefore.optional (h : LaidBefore start lo hi seq c) :
    LaidBefore start lo hi (optional arg n seq c).1 (optional arg n seq c).2 := by
  induction n generalizing seq c with
  | zero => exact h
  | succ n ih =>
    refine ih (h.treCopyAst hlen fun f hf hle => ?_)
    refine .inr ⟨start, .inl ⟨⟨Nat.le_refl _, fun p hp => absurd hp List.not_mem_nil⟩, ?_⟩⟩
    cases seq with
    | none => exact (laid_copyAst harg).mono (Nat.le_trans hf hle) (Nat.le_refl _)
    | some s =>
      -- the later copy is in front
      exact ⟨lo + c.posAdd, .inr ⟨Laid.mono hf (Nat.le_refl _) hle, laid_copyAst harg⟩⟩

theorem LaidBefore.behind (min : ℕ) (max : Option ℕ) (h : LaidBefore start lo hi none c) :
    LaidBefore start lo hi (behind arg min c max).1 (behind arg min c max).2 := by
  cases max with
  | none =>
    refine h.treCopyAst hlen fun f hf hle => ?_
    exact (laid_copyAst harg).mono (Nat.le_trans hf hle) (Nat.le_refl _)
  | some m => exact h.optional harg hlen

/-- **The copies of a part are laid behind each other.** -/
theorem laid_unroll (sid : Option ℕ) (d : ℕ) (e : Expansion) (hexp : expands min max = true) :
    Laid (unroll sid arg min max d e).1 (lo + d) (hi + (unroll sid arg min max d e).2.posAdd) := by
  have h₀ : LaidBefore (lo + d) lo hi none ⟨d, d, e.maxPos, e.tagDirections⟩ :=
    ⟨lo + d, Nat.le_refl _, Nat.le_refl _, Nat.add_le_add_right harg.le d⟩
  obtain ⟨f, hf, hle, hle'⟩ := h₀.required harg hlen (n := min)
  obtain ⟨f', hf', -, hsave⟩ :=
    LaidBefore.behind harg hlen min max ⟨f, Nat.le_refl f, hle, hle'⟩
  rw [unroll, laid_withSid]
  exact (laid_joined (unroll_isSome hexp _ _) hf hf').mono (Nat.le_refl _) hsave

end

/-! ### The whole tree -/

/-- The leaves of a bracket expression keep their common position. -/
theorem oneState_expandAst (h : OneState p a) :
    OneState (p + e.posAdd) (expandAst a e).1 ∧ (expandAst a e).2.posAdd = e.posAdd ∧
      (expandAst a e).2.posAddTotal = e.posAddTotal ∧
      (expandAst a e).2.iterDepth = e.iterDepth := by
  induction a generalizing e with
  | literal _ leaf =>
    cases leaf with
    | char q _ => exact ⟨congrArg (· + e.posAdd) h, rfl, rfl, rfl⟩
    | empty => exact h.elim
    | assertion _ => exact h.elim
    | tag _ => exact h.elim
    | backref _ _ => exact h.elim
  | catenation _ left right ihl ihr =>
    rw [expandAst]
    rcases h with ⟨hl, hr⟩ | ⟨hl, hr⟩
    · obtain ⟨h₁, h₂⟩ := @ihr e hr
      simp only [hl.expandAst]
      exact ⟨.inl ⟨hl, h₁⟩, h₂⟩
    · obtain ⟨h₁, h₂⟩ := @ihl e hl
      simp only [hr.expandAst]
      exact ⟨.inr ⟨h₁, hr⟩, h₂⟩
  | iteration _ _ _ _ => exact h.elim
  | union _ left right ihl ihr =>
    obtain ⟨h₁, h₂, h₃, h₄⟩ := ihl h.1
    obtain ⟨k₁, k₂, k₃, k₄⟩ := ihr h.2
    rw [h₂] at k₁
    exact ⟨⟨h₁, k₁⟩, k₂.trans h₂, k₃.trans h₃, k₄.trans h₄⟩

theorem laid_bracket (hlo : lo ≤ p) (hhi : p < hi) (hl : OneState p left) (hr : OneState p right) :
    Laid (expandAst (.union sid left right) e).1 (lo + e.posAdd) (hi + e.posAdd) := by
  obtain ⟨h, -⟩ := oneState_expandAst (e := e) (show OneState p (.union sid left right) from ⟨hl, hr⟩)
  exact .inl ⟨p + e.posAdd, by omega, by omega, h⟩

/-- What `EXPAND_RECURSE` does where nothing is counted, inside of an iteration. -/
structure Shifted (a : Ast) (e : Expansion) (r : Ast × Expansion) : Prop where
  posAdd : r.2.posAdd = e.posAdd
  total : r.2.posAddTotal = e.posAddTotal
  iterDepth : r.2.iterDepth = e.iterDepth
  length : (positions r.1).length = (positions a).length
  laid : ∀ lo hi, Laid a lo hi → Laid r.1 (lo + e.posAdd) (hi + e.posAdd)

/-- Where nothing is counted, the positions are shifted. -/
theorem shifted_expandAst (ha : Uncounted a) (he : e.iterDepth ≠ 0) :
    Shifted a e (expandAst a e) := by
  induction a generalizing e with
  | literal sid leaf =>
    refine ⟨rfl, rfl, rfl, ?_, fun _ _ h => laid_leaf h⟩
    simp [expandAst, positions, positions_copy]
  | catenation sid left right ihl ihr =>
    obtain ⟨h₁, h₂, h₃, h₄, h₅⟩ := ihl ha.1 he
    obtain ⟨k₁, k₂, k₃, k₄, k₅⟩ := ihr ha.2 (h₃.trans_ne he)
    rw [h₁] at k₁ k₅
    refine ⟨k₁, k₂.trans h₂, k₃.trans h₃, ?_, fun _ _ h => Apart.shift h h₅ k₅⟩
    simp only [expandAst, positions, List.length_append, h₄, k₄]
  | union sid left right ihl ihr =>
    obtain ⟨h₁, h₂, h₃, h₄, h₅⟩ := ihl ha.1 he
    obtain ⟨k₁, k₂, k₃, k₄, k₅⟩ := ihr ha.2 (h₃.trans_ne he)
    rw [h₁] at k₁ k₅
    refine ⟨k₁, k₂.trans h₂, k₃.trans h₃, ?_, fun _ _ h => ?_⟩
    · simp only [expandAst, positions, List.length_append, h₄, k₄]
    · rcases h with ⟨p, hlo, hhi, hl, hr⟩ | h
      · exact laid_bracket hlo hhi hl hr
      · exact .inr (Apart.shift h h₅ k₅)
  | iteration sid arg min max ih =>
    obtain ⟨harg, hexp⟩ := ha
    obtain ⟨h₁, h₂, h₃, h₄, h₅⟩ :=
      ih (e := { e with iterDepth := e.iterDepth + 1 }) harg (Nat.succ_ne_zero _)
    have hdepth : e.iterDepth + 1 - 1 ≠ 0 := he
    simp only [expandAst, afterIter, hexp, Bool.false_eq_true, if_false, h₂, h₃, if_neg hdepth]
    exact ⟨rfl, by simp, rfl, h₄, h₅⟩

/-- What `EXPAND_RECURSE` does outside of all iterations, to a tree between `lo` and `hi`. -/
structure Spread (lo hi : ℕ) (e : Expansion) (r : Ast × Expansion) : Prop where
  laid : Laid r.1 (lo + e.posAdd) (hi + r.2.posAdd)
  iterDepth : r.2.iterDepth = 0
  posAdd : r.2.posAdd = r.2.posAddTotal
  le : e.posAdd ≤ r.2.posAdd

theorem spread_afterIter {r : Ast × Expansion}
    (hr : Shifted arg { e with posAdd := if expands min max then 0 else e.posAdd,
                               iterDepth := e.iterDepth + 1 } r)
    (hlo : lo ≤ lo') (hhi : hi' ≤ hi) (hlaid : Laid arg lo' hi')
    (hlen : expands min max = true → hi' ≤ lo' + (positions arg).length)
    (he : e.iterDepth = 0) (hadd : e.posAdd = e.posAddTotal) :
    Spread lo hi e (afterIter sid r.1 min max e.posAdd r.2) := by
  obtain ⟨-, htotal, hdepth, hpos, hl⟩ := hr
  simp only [he] at htotal hdepth
  specialize hl lo' hi' hlaid
  rw [afterIter]
  by_cases hexp : expands min max = true
  · simp only [hexp, if_true, Nat.add_zero] at hl
    have hunroll := laid_unroll hl (hpos ▸ hlen hexp) sid e.posAdd r.2 hexp
    obtain ⟨c, hc, hsave, -⟩ := copied_unroll sid r.1 e.posAdd r.2 hexp
    have hstart := hc.start_le
    rw [← hsave] at hstart
    simp only [hexp, if_true, hdepth, Nat.zero_add, Nat.sub_self, htotal, ← hadd,
      Nat.add_sub_cancel' hstart]
    exact ⟨hunroll.mono (Nat.add_le_add_right hlo _) (Nat.add_le_add_right hhi _), rfl, rfl, hstart⟩
  · rw [Bool.not_eq_true] at hexp
    simp only [hexp, Bool.false_eq_true, if_false] at hl
    simp only [hexp, Bool.false_eq_true, if_false, hdepth, Nat.zero_add, Nat.sub_self, if_true,
      htotal, Nat.add_zero, ← hadd]
    exact ⟨hl.mono (Nat.add_le_add_right hlo _) (Nat.add_le_add_right hhi _), rfl, rfl,
      Nat.le_refl _⟩

theorem spread_expandAst (ha : Ready a lo hi) (he : e.iterDepth = 0)
    (hadd : e.posAdd = e.posAddTotal) : Spread lo hi e (expandAst a e) := by
  induction a generalizing lo hi e with
  | literal sid leaf => exact ⟨laid_leaf ha, he, hadd, Nat.le_refl _⟩
  | catenation sid left right ihl ihr =>
    obtain ⟨mid, hl, hr⟩ := ha
    obtain ⟨h₁, h₂, h₃, h₄⟩ := ihl hl he hadd
    obtain ⟨k₁, k₂, k₃, k₄⟩ := ihr hr h₂ h₃
    exact ⟨⟨_, .inl ⟨h₁, k₁⟩⟩, k₂, k₃, Nat.le_trans h₄ k₄⟩
  | union sid left right ihl ihr =>
    rcases ha with ⟨p, hlo, hhi, hl, hr⟩ | ⟨mid, hl, hr⟩
    · obtain ⟨-, h₂, h₃, h₄⟩ :=
        oneState_expandAst (e := e) (show OneState p (.union sid left right) from ⟨hl, hr⟩)
      refine ⟨?_, h₄.trans he, (h₂.trans hadd).trans h₃.symm, h₂.ge⟩
      rw [h₂]
      exact laid_bracket hlo hhi hl hr
    · obtain ⟨h₁, h₂, h₃, h₄⟩ := ihl hl he hadd
      obtain ⟨k₁, k₂, k₃, k₄⟩ := ihr hr h₂ h₃
      exact ⟨.inr ⟨_, .inl ⟨h₁, k₁⟩⟩, k₂, k₃, Nat.le_trans h₄ k₄⟩
  | iteration sid arg min max _ =>
    obtain ⟨harg, lo', hi', hlo, hhi, hlaid, hlen⟩ := ha
    exact spread_afterIter (shifted_expandAst harg (Nat.succ_ne_zero _)) hlo hhi hlaid hlen he hadd

/-- **The parts of the expanded tree have intervals of positions of their own**, below
`*position`. -/
theorem treExpandAst_laid (ast : Ast) (position : ℕ) (tagDirections : ℕ → TagDirection)
    (h : Ready ast 0 position) :
    Laid (treExpandAst ast position tagDirections).1 0
      (treExpandAst ast position tagDirections).2.1 := by
  obtain ⟨hlaid, -, hadd, -⟩ := spread_expandAst (e := ⟨0, 0, 0, 0, tagDirections⟩) h rfl rfl
  rw [hadd] at hlaid
  exact hlaid.mono (Nat.le_refl _) (Nat.le_max_left _ _)

end Tre
end UtilWin
