import Mathlib.Data.Set.Lattice
import Mathlib.Logic.Relation

/-!
# Fragments of an automaton

A fragment is a part of an automaton that stands for a part of a regular expression.  Its states are
where something is read: a state reads from one time to a later one.  A run may enter the fragment in
a state, move from state to state, leave it from a state, or pass it by without reading.  What may
happen depends on the time, so the conditions of look-around are part of it.

The *span* of a fragment relates the time at which it is entered to the time at which it is left.
The spans of the fragments that are put together are these: the composition for a sequence
(`span_seq`), the union for alternatives (`span_alt`), and the transitive closure for a loop
(`span_loop`).  The sequence and the alternatives need fragments without a state in common; the loop
has no such condition.

A fragment in front of a last state is left when that state is reached (`arrives_iff_span`).
-/

namespace UtilWin

open Relation

section

variable {α : Type*} {r r' : α → α → Prop} {m n : ℕ} {t u : α}

/-! ## Repeating a relation -/

/-- The relation `r`, so many times. -/
def Repeats (r : α → α → Prop) : ℕ → α → α → Prop
  | 0, t, u => t = u
  | n + 1, t, u => ∃ v, r t v ∧ Repeats r n v u

@[simp] theorem repeats_zero : Repeats r 0 t u ↔ t = u := Iff.rfl

theorem repeats_succ : Repeats r (n + 1) t u ↔ ∃ v, r t v ∧ Repeats r n v u := Iff.rfl

@[simp] theorem repeats_one : Repeats r 1 t u ↔ r t u := by simp [repeats_succ]

/-- So many times, and then so many times. -/
theorem repeats_add : Repeats r (m + n) t u ↔ ∃ v, Repeats r m t v ∧ Repeats r n v u := by
  induction m generalizing t with
  | zero => simp
  | succ m ih =>
    rw [Nat.succ_add]
    constructor
    · rintro ⟨w, hw, h⟩
      obtain ⟨v, hm, hn⟩ := ih.mp h
      exact ⟨v, ⟨w, hw, hm⟩, hn⟩
    · rintro ⟨v, ⟨w, hw, hm⟩, hn⟩
      exact ⟨w, hw, ih.mpr ⟨v, hm, hn⟩⟩

/-- Once more, at the end. -/
theorem repeats_succ' : Repeats r (n + 1) t u ↔ ∃ v, Repeats r n t v ∧ r v u := by
  simp only [repeats_add, repeats_one]

theorem Repeats.mono (hr : ∀ t u, r t u → r' t u) (h : Repeats r n t u) : Repeats r' n t u := by
  induction n generalizing t with
  | zero => exact h
  | succ n ih =>
    obtain ⟨v, hv, h⟩ := h
    exact ⟨v, hr t v hv, ih h⟩

/-- The transitive closure is one or more times. -/
theorem transGen_iff_repeats : TransGen r t u ↔ ∃ n, 1 ≤ n ∧ Repeats r n t u := by
  constructor
  · intro h
    induction h with
    | single h => exact ⟨1, Nat.le_refl 1, repeats_one.mpr h⟩
    | tail _ h ih =>
      obtain ⟨n, hn, hrep⟩ := ih
      exact ⟨n + 1, Nat.le_add_left 1 n, repeats_succ'.mpr ⟨_, hrep, h⟩⟩
  · rintro ⟨n, hn, h⟩
    obtain ⟨n, rfl⟩ := Nat.exists_eq_add_of_le' hn
    clear hn
    induction n generalizing t with
    | zero => exact .single (repeats_one.mp h)
    | succ n ih =>
      obtain ⟨v, hv, h⟩ := h
      exact .head hv (ih h)

/-- At least `lo` times, and at most `hi` times where there is such a bound. -/
def Times (r : α → α → Prop) (lo : ℕ) (hi : Option ℕ) (t u : α) : Prop :=
  ∃ n, lo ≤ n ∧ (∀ m ∈ hi, n ≤ m) ∧ Repeats r n t u

theorem Times.mono {lo : ℕ} {hi : Option ℕ} (hr : ∀ t u, r t u → r' t u)
    (h : Times r lo hi t u) : Times r' lo hi t u := by
  obtain ⟨n, hlo, hhi, h⟩ := h
  exact ⟨n, hlo, hhi, h.mono hr⟩

/-- First as often as it has to be, then as often as it may be. -/
theorem times_iff_repeats {lo : ℕ} {hi : Option ℕ} (hle : ∀ m ∈ hi, lo ≤ m) :
    Times r lo hi t u ↔ ∃ v, Repeats r lo t v ∧ Times r 0 (hi.map (· - lo)) v u := by
  constructor
  · rintro ⟨n, hlo, hhi, h⟩
    obtain ⟨k, rfl⟩ := Nat.exists_eq_add_of_le hlo
    obtain ⟨v, hv, h⟩ := repeats_add.mp h
    refine ⟨v, hv, k, Nat.zero_le k, ?_, h⟩
    intro m hm
    obtain ⟨m', hm', rfl⟩ := Option.map_eq_some_iff.mp hm
    have hk := hhi m' hm'
    omega
  · rintro ⟨v, hv, k, -, hhi, h⟩
    refine ⟨lo + k, Nat.le_add_right lo k, ?_, repeats_add.mpr ⟨v, hv, h⟩⟩
    intro m hm
    have hk := hhi (m - lo) (Option.map_eq_some_iff.mpr ⟨m, hm, rfl⟩)
    have hlo := hle m hm
    omega

/-- Up to `n + 1` times: not at all, or once and then up to `n` times. -/
theorem times_zero_succ :
    Times r 0 (some (n + 1)) t u ↔ t = u ∨ ∃ v, r t v ∧ Times r 0 (some n) v u := by
  constructor
  · rintro ⟨_ | k, -, hk, h⟩
    · exact .inl h
    · obtain ⟨v, hv, h⟩ := h
      have := hk (n + 1) rfl
      refine .inr ⟨v, hv, k, Nat.zero_le k, ?_, h⟩
      rintro m ⟨⟩
      omega
  · rintro (rfl | ⟨v, hv, k, -, hk, h⟩)
    · exact ⟨0, Nat.le_refl 0, fun m _ => Nat.zero_le m, rfl⟩
    · have := hk n rfl
      refine ⟨k + 1, Nat.zero_le _, ?_, v, hv, h⟩
      rintro m ⟨⟩
      omega

theorem times_zero_zero : Times r 0 (some 0) t u ↔ t = u := by
  constructor
  · rintro ⟨k, -, hk, h⟩
    obtain rfl : k = 0 := Nat.le_zero.mp (hk 0 rfl)
    exact h
  · rintro rfl
    exact ⟨0, Nat.le_refl 0, fun m _ => Nat.zero_le m, rfl⟩

/-- Any number of times: not at all, or by the transitive closure. -/
theorem times_zero_none : Times r 0 none t u ↔ t = u ∨ TransGen r t u := by
  rw [transGen_iff_repeats]
  constructor
  · rintro ⟨_ | k, -, -, h⟩
    · exact .inl h
    · exact .inr ⟨k + 1, Nat.le_add_left 1 k, h⟩
  · rintro (rfl | ⟨k, -, h⟩)
    · exact ⟨0, Nat.le_refl 0, by simp, rfl⟩
    · exact ⟨k, Nat.zero_le k, by simp, h⟩

theorem times_one_none : Times r 1 none t u ↔ TransGen r t u := by
  rw [transGen_iff_repeats]
  constructor
  · rintro ⟨k, hk, -, h⟩
    exact ⟨k, hk, h⟩
  · rintro ⟨k, hk, h⟩
    exact ⟨k, hk, by simp, h⟩

theorem times_zero_one : Times r 0 (some 1) t u ↔ t = u ∨ r t u := by
  simp [times_zero_succ, times_zero_zero]

theorem times_one_one : Times r 1 (some 1) t u ↔ r t u := by
  rw [times_iff_repeats (by simp)]
  simp [times_zero_zero]

end

/-! ## Fragments -/

/-- A part of an automaton with the states `Q` that reads over the times `T`. -/
@[ext]
structure Fragment (Q T : Type*) where
  states : Set Q
  /-- A run may enter in this state at this time. -/
  enter : Q → T → Prop
  /-- This state reads from one time to the other, and there a run may leave. -/
  leave : Q → T → T → Prop
  /-- This state reads from one time to the other, and there a run may go on in that state. -/
  move : Q → T → Q → T → Prop
  /-- A run may pass by at this time. -/
  empty : T → Prop
  enter_mem : ∀ {q t}, enter q t → q ∈ states
  leave_mem : ∀ {q t u}, leave q t u → q ∈ states
  move_mem : ∀ {q t q' t'}, move q t q' t' → q ∈ states ∧ q' ∈ states

namespace Fragment

variable {Q T : Type*} (F G : Fragment Q T) {q q' f : Q} {t t' u v : T}

/-- From this state, reading from the first time on, a run may leave at the second time. -/
inductive Exit : Q → T → T → Prop
  | leave {q : Q} {t u : T} : F.leave q t u → Exit q t u
  | move {q : Q} {t : T} {q' : Q} {t' u : T} : F.move q t q' t' → Exit q' t' u → Exit q t u

/-- The times at which a run may enter and leave. -/
def Span (t u : T) : Prop := (t = u ∧ F.empty t) ∨ ∃ q, F.enter q t ∧ F.Exit q t u

/-- From this state, reading from the first time on, a run may be in the state `f` at the second
time. -/
inductive Arrives (f : Q) : Q → T → T → Prop
  | here (t : T) : Arrives f f t t
  | move {q : Q} {t : T} {q' : Q} {t' u : T} : F.move q t q' t' → Arrives f q' t' u → Arrives f q t u

variable {F G}

theorem Exit.mem (h : F.Exit q t u) : q ∈ F.states := by
  cases h with
  | leave h => exact F.leave_mem h
  | move h _ => exact (F.move_mem h).1

/-- A condition is checked, and nothing is read. -/
@[simps]
def skip (Q : Type*) (c : T → Prop) : Fragment Q T where
  states := ∅
  enter _ _ := False
  leave _ _ _ := False
  move _ _ _ _ := False
  empty := c
  enter_mem := False.elim
  leave_mem := False.elim
  move_mem := False.elim

/-- One state. -/
@[simps]
def one (q : Q) (r : T → T → Prop) : Fragment Q T where
  states := {q}
  enter p _ := p = q
  leave p t u := p = q ∧ r t u
  move _ _ _ _ := False
  empty _ := False
  enter_mem h := h
  leave_mem h := h.1
  move_mem := False.elim

/-- One fragment behind the other. -/
@[simps]
def seq (F G : Fragment Q T) : Fragment Q T where
  states := F.states ∪ G.states
  enter q t := F.enter q t ∨ (F.empty t ∧ G.enter q t)
  leave q t u := G.leave q t u ∨ (F.leave q t u ∧ G.empty u)
  move q t q' t' := F.move q t q' t' ∨ G.move q t q' t' ∨ (F.leave q t t' ∧ G.enter q' t')
  empty t := F.empty t ∧ G.empty t
  enter_mem := by
    rintro q t (h | ⟨-, h⟩)
    · exact .inl (F.enter_mem h)
    · exact .inr (G.enter_mem h)
  leave_mem := by
    rintro q t u (h | ⟨h, -⟩)
    · exact .inr (G.leave_mem h)
    · exact .inl (F.leave_mem h)
  move_mem := by
    rintro q t q' t' (h | h | ⟨h, h'⟩)
    · exact ⟨.inl (F.move_mem h).1, .inl (F.move_mem h).2⟩
    · exact ⟨.inr (G.move_mem h).1, .inr (G.move_mem h).2⟩
    · exact ⟨.inl (F.leave_mem h), .inr (G.enter_mem h')⟩

/-- One fragment or the other. -/
@[simps]
def alt (F G : Fragment Q T) : Fragment Q T where
  states := F.states ∪ G.states
  enter q t := F.enter q t ∨ G.enter q t
  leave q t u := F.leave q t u ∨ G.leave q t u
  move q t q' t' := F.move q t q' t' ∨ G.move q t q' t'
  empty t := F.empty t ∨ G.empty t
  enter_mem := Or.imp F.enter_mem G.enter_mem
  leave_mem := Or.imp F.leave_mem G.leave_mem
  move_mem := by
    rintro q t q' t' (h | h)
    · exact ⟨.inl (F.move_mem h).1, .inl (F.move_mem h).2⟩
    · exact ⟨.inr (G.move_mem h).1, .inr (G.move_mem h).2⟩

/-- A fragment that may be entered again where it is left. -/
@[simps]
def loop (F : Fragment Q T) : Fragment Q T where
  states := F.states
  enter := F.enter
  leave := F.leave
  move q t q' t' := F.move q t q' t' ∨ (F.leave q t t' ∧ F.enter q' t')
  empty := F.empty
  enter_mem := F.enter_mem
  leave_mem := F.leave_mem
  move_mem := by
    rintro q t q' t' (h | ⟨h, h'⟩)
    · exact F.move_mem h
    · exact ⟨F.leave_mem h, F.enter_mem h'⟩

/-- A fragment with another condition for passing by. -/
@[simps]
def withEmpty (F : Fragment Q T) (c : T → Prop) : Fragment Q T := { F with empty := c }

/-! ### Their spans -/

@[simp] theorem span_skip {c : T → Prop} : (skip Q c).Span t u ↔ t = u ∧ c t := by
  simp [Span]

@[simp] theorem span_one {r : T → T → Prop} : (one q r).Span t u ↔ r t u := by
  constructor
  · rintro (⟨-, h⟩ | ⟨p, rfl, h⟩)
    · exact h.elim
    · cases h with
      | leave h => exact h.2
      | move h _ => exact h.elim
  · intro h
    exact .inr ⟨q, rfl, .leave ⟨rfl, h⟩⟩

/-- The fragments have no state in common. -/
def Apart (F G : Fragment Q T) : Prop := ∀ q ∈ F.states, q ∉ G.states

/-- Who is in the second fragment stays there. -/
theorem exit_seq_right (hd : F.Apart G) (hq : q ∈ G.states) :
    (seq F G).Exit q t u ↔ G.Exit q t u := by
  have hnot : ∀ {p}, p ∈ F.states → p ∉ G.states := fun hF => hd _ hF
  constructor
  · intro h
    induction h with
    | leave h =>
      rcases h with h | ⟨h, -⟩
      · exact .leave h
      · exact absurd hq (hnot (F.leave_mem h))
    | move h _ ih =>
      rcases h with h | h | ⟨h, -⟩
      · exact absurd hq (hnot (F.move_mem h).1)
      · exact .move h (ih (G.move_mem h).2)
      · exact absurd hq (hnot (F.leave_mem h))
  · intro h
    clear hq
    induction h with
    | leave h => exact .leave (.inl h)
    | move h _ ih => exact .move (.inr (.inl h)) ih

/-- Who is in the first fragment leaves it, and then the second one is passed. -/
theorem exit_seq_left (hd : F.Apart G) (hq : q ∈ F.states) :
    (seq F G).Exit q t u ↔ ∃ v, F.Exit q t v ∧ G.Span v u := by
  have hnot : ∀ {p}, p ∈ F.states → p ∉ G.states := fun hF => hd _ hF
  constructor
  · intro h
    induction h with
    | leave h =>
      rcases h with h | ⟨h, he⟩
      · exact absurd (G.leave_mem h) (hnot hq)
      · exact ⟨_, .leave h, .inl ⟨rfl, he⟩⟩
    | move h hexit ih =>
      rcases h with h | h | ⟨h, henter⟩
      · obtain ⟨v, hv, hspan⟩ := ih (F.move_mem h).2
        exact ⟨v, .move h hv, hspan⟩
      · exact absurd (G.move_mem h).1 (hnot hq)
      · exact ⟨_, .leave h, .inr ⟨_, henter, (exit_seq_right hd (G.enter_mem henter)).mp hexit⟩⟩
  · rintro ⟨v, h, hspan⟩
    clear hq
    induction h with
    | leave h =>
      rcases hspan with ⟨rfl, he⟩ | ⟨p, henter, hexit⟩
      · exact .leave (.inr ⟨h, he⟩)
      · exact .move (.inr (.inr ⟨h, henter⟩))
          ((exit_seq_right hd (G.enter_mem henter)).mpr hexit)
    | move h _ ih => exact .move (.inl h) (ih hspan)

/-- **A sequence spans what its parts span one after the other.** -/
theorem span_seq (hd : F.Apart G) :
    (seq F G).Span t u ↔ ∃ v, F.Span t v ∧ G.Span v u := by
  constructor
  · rintro (⟨rfl, hF, hG⟩ | ⟨q, henter | ⟨hF, henter⟩, hexit⟩)
    · exact ⟨t, .inl ⟨rfl, hF⟩, .inl ⟨rfl, hG⟩⟩
    · obtain ⟨v, hv, hspan⟩ := (exit_seq_left hd (F.enter_mem henter)).mp hexit
      exact ⟨v, .inr ⟨q, henter, hv⟩, hspan⟩
    · exact ⟨t, .inl ⟨rfl, hF⟩,
        .inr ⟨q, henter, (exit_seq_right hd (G.enter_mem henter)).mp hexit⟩⟩
  · rintro ⟨v, ⟨rfl, hF⟩ | ⟨q, henter, hexit⟩, hspan⟩
    · rcases hspan with ⟨rfl, hG⟩ | ⟨q, henter, hexit⟩
      · exact .inl ⟨rfl, hF, hG⟩
      · exact .inr ⟨q, .inr ⟨hF, henter⟩, (exit_seq_right hd (G.enter_mem henter)).mpr hexit⟩
    · exact .inr ⟨q, .inl henter, (exit_seq_left hd (F.enter_mem henter)).mpr ⟨v, hexit, hspan⟩⟩

/-- Who is in one of two alternatives stays there. -/
theorem exit_alt_left (hd : F.Apart G) (hq : q ∈ F.states) :
    (alt F G).Exit q t u ↔ F.Exit q t u := by
  have hnot : ∀ {p}, p ∈ G.states → p ∉ F.states := fun hG hF => hd _ hF hG
  constructor
  · intro h
    induction h with
    | leave h =>
      rcases h with h | h
      · exact .leave h
      · exact absurd hq (hnot (G.leave_mem h))
    | move h _ ih =>
      rcases h with h | h
      · exact .move h (ih (F.move_mem h).2)
      · exact absurd hq (hnot (G.move_mem h).1)
  · intro h
    clear hq
    induction h with
    | leave h => exact .leave (.inl h)
    | move h _ ih => exact .move (.inl h) ih

theorem alt_comm : alt F G = alt G F := by
  ext <;> simp [or_comm]

/-- **Alternatives span what one of them spans.** -/
theorem span_alt (hd : F.Apart G) :
    (alt F G).Span t u ↔ F.Span t u ∨ G.Span t u := by
  have hG : ∀ {q}, q ∈ G.states → ((alt F G).Exit q t u ↔ G.Exit q t u) := by
    intro q hq
    rw [alt_comm]
    exact exit_alt_left (fun p hG hF => hd p hF hG) hq
  constructor
  · rintro (⟨rfl, he | he⟩ | ⟨q, henter | henter, hexit⟩)
    · exact .inl (.inl ⟨rfl, he⟩)
    · exact .inr (.inl ⟨rfl, he⟩)
    · exact .inl (.inr ⟨q, henter, (exit_alt_left hd (F.enter_mem henter)).mp hexit⟩)
    · exact .inr (.inr ⟨q, henter, (hG (G.enter_mem henter)).mp hexit⟩)
  · rintro ((⟨rfl, he⟩ | ⟨q, henter, hexit⟩) | (⟨rfl, he⟩ | ⟨q, henter, hexit⟩))
    · exact .inl ⟨rfl, .inl he⟩
    · exact .inr ⟨q, .inl henter, (exit_alt_left hd (F.enter_mem henter)).mpr hexit⟩
    · exact .inl ⟨rfl, .inr he⟩
    · exact .inr ⟨q, .inr henter, (hG (G.enter_mem henter)).mpr hexit⟩

theorem Exit.loop (h : F.Exit q t u) : F.loop.Exit q t u := by
  induction h with
  | leave h => exact .leave h
  | move h _ ih => exact .move (.inl h) ih

/-- Around the loop once more. -/
theorem Exit.around (h : F.Exit q t v) (henter : F.enter q' v) (hexit : F.loop.Exit q' v u) :
    F.loop.Exit q t u := by
  induction h with
  | leave h => exact .move (.inr ⟨h, henter⟩) hexit
  | move h _ ih => exact .move (.inl h) (ih henter hexit)

/-- Who is in a loop leaves its fragment, and may pass it several times then. -/
theorem Exit.of_loop (h : F.loop.Exit q t u) :
    ∃ v, F.Exit q t v ∧ ReflTransGen F.Span v u := by
  induction h with
  | leave h => exact ⟨_, .leave h, .refl⟩
  | move h _ ih =>
    obtain ⟨v, hv, hspan⟩ := ih
    rcases h with h | ⟨h, henter⟩
    · exact ⟨v, .move h hv, hspan⟩
    · exact ⟨_, .leave h, .head (.inr ⟨_, henter, hv⟩) hspan⟩

/-- **A loop spans what its fragment spans, once or more often.** -/
theorem span_loop : F.loop.Span t u ↔ TransGen F.Span t u := by
  constructor
  · rintro (⟨rfl, he⟩ | ⟨q, henter, hexit⟩)
    · exact .single (.inl ⟨rfl, he⟩)
    · obtain ⟨v, hv, hspan⟩ := hexit.of_loop
      exact TransGen.head' (.inr ⟨q, henter, hv⟩) hspan
  · intro h
    induction h using TransGen.head_induction_on with
    | single h =>
      rcases h with h | ⟨q, henter, hexit⟩
      · exact .inl h
      · exact .inr ⟨q, henter, hexit.loop⟩
    | head h _ ih =>
      rcases h with ⟨rfl, -⟩ | ⟨q, henter, hexit⟩
      · exact ih
      · rcases ih with ⟨rfl, -⟩ | ⟨q', henter', hexit'⟩
        · exact .inr ⟨q, henter, hexit.loop⟩
        · exact .inr ⟨q, henter, hexit.around henter' hexit'⟩

theorem exit_withEmpty {c : T → Prop} : (F.withEmpty c).Exit q t u ↔ F.Exit q t u := by
  constructor <;> intro h <;> induction h with
  | leave h => exact .leave h
  | move h _ ih => exact .move h ih

/-- A fragment that may be passed by when `c` holds spans that beside what it spanned, or less. -/
theorem span_of_withEmpty {c : T → Prop} (h : (F.withEmpty c).Span t u) :
    (t = u ∧ c t) ∨ F.Span t u := by
  rcases h with h | ⟨q, henter, hexit⟩
  · exact .inl h
  · exact .inr (.inr ⟨q, henter, exit_withEmpty.mp hexit⟩)

/-- It spans all of that if `c` holds wherever it could be passed by before. -/
theorem span_withEmpty {c : T → Prop} (hc : ∀ t, F.empty t → c t) :
    (F.withEmpty c).Span t u ↔ (t = u ∧ c t) ∨ F.Span t u := by
  constructor
  · exact span_of_withEmpty
  · rintro (h | ⟨rfl, h⟩ | ⟨q, henter, hexit⟩)
    · exact .inl h
    · exact .inl ⟨rfl, hc t h⟩
    · exact .inr ⟨q, henter, exit_withEmpty.mpr hexit⟩

/-! ### A last state -/

/-- **In front of a last state.**  A run that enters where the fragment may be entered, or the last
state where the fragment may be passed by, arrives at the last state when the fragment is left. -/
theorem arrives_iff_span (hf : f ∉ F.states) {r : T → T → Prop} :
    (∃ q, (seq F (one f r)).enter q t ∧ (seq F (one f r)).Arrives f q t u) ↔ F.Span t u := by
  have hd : F.Apart (one f Eq) := by
    rintro p hp rfl
    exact hf hp
  -- with a last state that reads nothing, to arrive is to leave
  have key : ∀ {q t}, (seq F (one f r)).Arrives f q t u ↔ (seq F (one f Eq)).Exit q t u := by
    intro q t
    constructor
    · intro h
      induction h with
      | here t => exact .leave (.inl ⟨rfl, rfl⟩)
      | move h _ ih => exact .move h ih
    · intro h
      induction h with
      | leave h =>
        rcases h with ⟨rfl, rfl⟩ | ⟨-, h⟩
        · exact .here _
        · exact h.elim
      | move h _ ih => exact .move h ih
  have hspan := @span_seq Q T F (one f Eq) t u hd
  simp only [span_one, exists_eq_right] at hspan
  rw [← hspan]
  constructor
  · rintro ⟨q, henter, h⟩
    exact .inr ⟨q, henter, key.mp h⟩
  · rintro (⟨-, -, h⟩ | ⟨q, henter, h⟩)
    · exact h.elim
    · exact ⟨q, henter, key.mpr h⟩

end Fragment
end UtilWin
