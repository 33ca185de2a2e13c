import Mathlib.Data.List.Basic
import Mathlib.Data.List.GetD
import Mathlib.Data.List.TakeDrop

/-!
# Adaptive readers and self-delimiting codes

A routine that parses a byte stream in place decides where to look next from what it has seen so
far: it reads a byte, branches, and reads again.  Which positions it touches is therefore part of
its behaviour, and it cannot be recovered from the function it computes.

`Probe ι β α` keeps that information.  A probe either returns, or asks for the cell at one position
and continues with the answer, so a run over a memory `ι → β` has both a result (`run`) and the list
of positions it touched (`reads`).  The one fact everything rests on is `run_congr`: two memories
that agree on the positions touched give the same run.

A reader that reports a length `n` and touches only positions below `n` is *self-delimiting*
(`Delimited`).  Its codes then split a concatenation in exactly one way, and the sweep that steps
over one code at a time stops at the boundaries (`sweep_eq_boundary`).
-/

namespace UtilWin

universe u v w

/-- A computation that reads a memory one cell at a time. -/
inductive Probe (ι : Type u) (β : Type v) (α : Type w) : Type (max u v w) where
  /-- Stop with a result. -/
  | ret : α → Probe ι β α
  /-- Read the cell at a position and continue with what it holds. -/
  | read : ι → (β → Probe ι β α) → Probe ι β α

namespace Probe

variable {ι : Type u} {β : Type v} {α γ : Type w}

/-- Sequencing: graft the continuation onto every leaf. -/
def bind : Probe ι β α → (α → Probe ι β γ) → Probe ι β γ
  | ret a, f => f a
  | read i k, f => read i fun x => (k x).bind f

instance : Monad (Probe ι β) where
  pure := ret
  bind := bind

/-- Read one cell. -/
def peek {β : Type w} (i : ι) : Probe ι β β := read i ret

/-- The result over a memory. -/
def run : Probe ι β α → (ι → β) → α
  | ret a, _ => a
  | read i k, b => (k (b i)).run b

/-- The positions touched over a memory, in order. -/
def reads : Probe ι β α → (ι → β) → List ι
  | ret _, _ => []
  | read i k, b => i :: (k (b i)).reads b

@[simp] theorem run_pure (a : α) (b : ι → β) : (pure a : Probe ι β α).run b = a := rfl

@[simp] theorem reads_pure (a : α) (b : ι → β) : (pure a : Probe ι β α).reads b = [] := rfl

@[simp] theorem run_peek {β : Type w} (i : ι) (b : ι → β) : (peek i).run b = b i := rfl

@[simp] theorem run_bind (t : Probe ι β α) (f : α → Probe ι β γ) (b : ι → β) :
    (t >>= f).run b = (f (t.run b)).run b := by
  show (t.bind f).run b = (f (t.run b)).run b
  induction t with
  | ret a => rfl
  | read i k ih => exact ih (b i)

@[simp] theorem reads_bind (t : Probe ι β α) (f : α → Probe ι β γ) (b : ι → β) :
    (t >>= f).reads b = t.reads b ++ (f (t.run b)).reads b := by
  show (t.bind f).reads b = t.reads b ++ (f (t.run b)).reads b
  induction t with
  | ret a => rfl
  | read i k ih => exact congrArg (i :: ·) (ih (b i))

/-- Reading a cell hands its contents on.  This comes before `run_bind`, so that a test of the cell
is decided on its contents. -/
@[simp high] theorem run_peek_bind {β : Type w} (i : ι) (f : β → Probe ι β γ) (b : ι → β) :
    (peek i >>= f).run b = (f (b i)).run b := rfl

@[simp high] theorem reads_peek_bind {β : Type w} (i : ι) (f : β → Probe ι β γ) (b : ι → β) :
    (peek i >>= f).reads b = i :: (f (b i)).reads b := rfl

@[simp] theorem run_ite (c : Prop) [Decidable c] (s t : Probe ι β α) (b : ι → β) :
    (if c then s else t).run b = if c then s.run b else t.run b := by
  split <;> rfl

@[simp] theorem reads_ite (c : Prop) [Decidable c] (s t : Probe ι β α) (b : ι → β) :
    (if c then s else t).reads b = if c then s.reads b else t.reads b := by
  split <;> rfl

/-- **A run depends only on the cells it touches.** -/
theorem run_congr (t : Probe ι β α) {b b' : ι → β} (h : ∀ i ∈ t.reads b, b' i = b i) :
    t.run b' = t.run b := by
  induction t with
  | ret a => rfl
  | read i k ih =>
    have hi : b' i = b i := h i (List.mem_cons_self ..)
    show (k (b' i)).run b' = (k (b i)).run b
    rw [hi]
    exact ih (b i) fun j hj => h j (List.mem_cons_of_mem i hj)

end Probe

/-! ## Streams -/

section Streams

variable {β : Type u}

/-- The stream seen from position `p` on. -/
def suffixAt (b : ℕ → β) (p : ℕ) : ℕ → β := fun i => b (p + i)

@[simp] theorem suffixAt_apply (b : ℕ → β) (p i : ℕ) : suffixAt b p i = b (p + i) := rfl

@[simp] theorem suffixAt_zero (b : ℕ → β) : suffixAt b 0 = b := by
  funext i
  rw [suffixAt_apply, Nat.zero_add]

/-- The stream `b` starts with the string `s`. -/
def StartsWith (b : ℕ → β) (s : List β) : Prop := ∀ i (h : i < s.length), b i = s[i]

theorem startsWith_append {b : ℕ → β} {s t : List β} :
    StartsWith b (s ++ t) ↔ StartsWith b s ∧ StartsWith (suffixAt b s.length) t := by
  constructor
  · intro h
    refine ⟨fun i hi => ?_, fun i hi => ?_⟩
    · rw [h i (by rw [List.length_append]; omega), List.getElem_append_left hi]
    · rw [suffixAt_apply, h (s.length + i) (by rw [List.length_append]; omega),
        List.getElem_append_right (by omega)]
      simp only [Nat.add_sub_cancel_left]
  · rintro ⟨hs, ht⟩ i hi
    rcases Nat.lt_or_ge i s.length with hlt | hge
    · rw [hs i hlt, List.getElem_append_left hlt]
    · have hi' : i - s.length < t.length := by
        rw [List.length_append] at hi
        omega
      have h := ht (i - s.length) hi'
      rw [suffixAt_apply, Nat.add_sub_cancel' hge] at h
      rw [h, List.getElem_append_right hge]

/-- The stream that spells `s` and goes on as `rest`. -/
def spell (s : List β) (rest : ℕ → β) : ℕ → β := fun i => s.getD i (rest (i - s.length))

theorem spell_of_lt (s : List β) (rest : ℕ → β) {i : ℕ} (h : i < s.length) :
    spell s rest i = s[i] :=
  List.getD_eq_getElem _ _ h

theorem spell_of_le (s : List β) (rest : ℕ → β) {i : ℕ} (h : s.length ≤ i) :
    spell s rest i = rest (i - s.length) :=
  List.getD_eq_default _ _ h

@[simp] theorem spell_length_add (s : List β) (rest : ℕ → β) (i : ℕ) :
    spell s rest (s.length + i) = rest i := by
  rw [spell_of_le s rest (Nat.le_add_right _ _), Nat.add_sub_cancel_left]

theorem startsWith_spell (s : List β) (rest : ℕ → β) : StartsWith (spell s rest) s :=
  fun _ h => spell_of_lt s rest h

/-! ## Self-delimiting readers -/

/-- A reader of streams that recognises some of them (`valid`) and reports a length: the length
and the verdict depend on nothing past that length. -/
structure Delimited (valid : (ℕ → β) → Prop) (len : (ℕ → β) → ℕ) : Prop where
  /-- Agreement up to the reported length is enough for the same verdict and the same length. -/
  agree : ∀ {b b' : ℕ → β}, valid b → (∀ i < len b, b' i = b i) → valid b' ∧ len b' = len b

/-- `s` is one complete code: some valid stream starts with it and is measured to be exactly as
long. -/
def IsCode (valid : (ℕ → β) → Prop) (len : (ℕ → β) → ℕ) (s : List β) : Prop :=
  ∃ b, StartsWith b s ∧ valid b ∧ len b = s.length

/-- The linear sweep: the position reached after stepping over `k` codes, one length at a time. -/
def sweep (len : (ℕ → β) → ℕ) (b : ℕ → β) : ℕ → ℕ
  | 0 => 0
  | k + 1 => sweep len b k + len (suffixAt b (sweep len b k))

variable {valid : (ℕ → β) → Prop} {len : (ℕ → β) → ℕ}

/-- A complete code is measured the same in front of anything. -/
theorem Delimited.len_of_isCode (D : Delimited valid len) {s : List β} (hs : IsCode valid len s)
    {b : ℕ → β} (hb : StartsWith b s) : valid b ∧ len b = s.length := by
  obtain ⟨a, ha, hv, hn⟩ := hs
  have key : ∀ i < len a, b i = a i := by
    intro i hi
    rw [hn] at hi
    rw [hb i hi, ha i hi]
  obtain ⟨hvb, hlb⟩ := D.agree hv key
  exact ⟨hvb, hlb.trans hn⟩

/-- **Unique splitting.**  Over a concatenation of complete codes, followed by anything, the sweep's
`k`-th stop is the boundary after the first `k` codes. -/
theorem Delimited.sweep_eq_boundary (D : Delimited valid len) {L : List (List β)}
    (hL : ∀ s ∈ L, IsCode valid len s) {b : ℕ → β} (hb : StartsWith b L.flatten) :
    ∀ k ≤ L.length, sweep len b k = (L.take k).flatten.length := by
  intro k
  induction k with
  | zero => intro _; rfl
  | succ k ih =>
    intro hk
    have hpos : sweep len b k = (L.take k).flatten.length := ih (by omega)
    have hsplit : L.flatten = (L.take k).flatten ++ (L[k] ++ (L.drop (k + 1)).flatten) := by
      conv_lhs => rw [← List.take_append_drop k L, List.drop_eq_getElem_cons (by omega)]
      rw [List.flatten_append, List.flatten_cons]
    rw [hsplit] at hb
    have hcode : StartsWith (suffixAt b (L.take k).flatten.length) L[k] :=
      (startsWith_append.mp (startsWith_append.mp hb).2).1
    have hlen := (D.len_of_isCode (hL L[k] (List.getElem_mem _)) hcode).2
    rw [sweep, hpos, hlen, List.take_succ_eq_append_getElem (by omega), List.flatten_append,
      List.length_append]
    simp only [List.flatten_cons, List.flatten_nil, List.append_nil]

end Streams

end UtilWin
