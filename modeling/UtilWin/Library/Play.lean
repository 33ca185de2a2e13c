import Mathlib.Data.List.Basic
import Mathlib.Tactic.SplitIfs

/-!
# Playing a list of events

A recursive search whose course is known beforehand is a list of events, and what comes of it a matter of
going through them: each event may go wrong altogether, stop the search with a verdict, or lead on.

* `play_append`: a list is played part by part.
* `play_stops`: a search that was stopped came to a certain event, and everything before it was played.
* `play_keeps`, `play_gains`: what every event keeps is kept, and what came about did so at some event.
-/

namespace UtilWin

universe u v w

variable {ε : Type u} {σ : Type v} {ν : Type w} {step : ε → σ → Option (Option ν × σ)}

/-- What comes of the events from a state: `none` if something goes wrong, and otherwise the verdict, if
the search was stopped, and the state in the end. -/
def play (step : ε → σ → Option (Option ν × σ)) : List ε → σ → Option (Option ν × σ)
  | [], s => some (none, s)
  | e :: t, s =>
    (step e s).bind fun r => if r.1.isSome then some r else play step t r.2

/-- An event that leads on. -/
theorem play_cons_of_next {e : ε} {s s' : σ} (h : step e s = some (none, s')) (t : List ε) :
    play step (e :: t) s = play step t s' := by
  rw [play, h]
  rfl

/-- An event that stops the search. -/
theorem play_cons_of_stop {e : ε} {s s' : σ} {v : ν} (h : step e s = some (some v, s'))
    (t : List ε) : play step (e :: t) s = some (some v, s') := by
  rw [play, h]
  rfl

/-- An event that goes wrong. -/
theorem play_cons_of_none {e : ε} {s : σ} (h : step e s = none) (t : List ε) :
    play step (e :: t) s = none := by
  rw [play, h]
  rfl

theorem play_singleton (e : ε) (s : σ) : play step [e] s = step e s := by
  cases h : step e s with
  | none => exact play_cons_of_none h []
  | some r =>
    obtain ⟨_ | v, s'⟩ := r
    · exact play_cons_of_next h []
    · exact play_cons_of_stop h []

/-- **A list is played part by part**, as long as nothing stops it. -/
theorem play_append (t t' : List ε) (s : σ) :
    play step (t ++ t') s =
      (play step t s).bind fun r => if r.1.isSome then some r else play step t' r.2 := by
  induction t generalizing s with
  | nil => rfl
  | cons e t ih =>
    cases h : step e s with
    | none => rw [List.cons_append, play_cons_of_none h, play_cons_of_none h, Option.bind_none]
    | some r =>
      obtain ⟨_ | v, s'⟩ := r
      · rw [List.cons_append, play_cons_of_next h, play_cons_of_next h, ih]
      · rw [List.cons_append, play_cons_of_stop h, play_cons_of_stop h]
        rfl

theorem play_append_of_next {t : List ε} {s s' : σ} (h : play step t s = some (none, s'))
    (t' : List ε) : play step (t ++ t') s = play step t' s' := by
  rw [play_append, h]
  rfl

/-- **Where a search was stopped.** -/
theorem play_stops {t : List ε} {s s' : σ} {v : ν} (h : play step t s = some (some v, s')) :
    ∃ pre e post s₁, t = pre ++ e :: post ∧ play step pre s = some (none, s₁) ∧
      step e s₁ = some (some v, s') := by
  induction t generalizing s with
  | nil => cases h
  | cons e t ih =>
    cases hstep : step e s with
    | none =>
      rw [play_cons_of_none hstep] at h
      cases h
    | some r =>
      obtain ⟨_ | v', s₁⟩ := r
      · rw [play_cons_of_next hstep] at h
        obtain ⟨pre, e', post, s₂, rfl, hpre, hstop⟩ := ih h
        exact ⟨e :: pre, e', post, s₂, rfl, (play_cons_of_next hstep pre).trans hpre, hstop⟩
      · rw [play_cons_of_stop hstep] at h
        cases h
        exact ⟨[], e, t, s, rfl, rfl, hstep⟩

/-- An event that would stop a search stops it when the search comes to it. -/
theorem play_of_stop {pre post : List ε} {e : ε} {s s₁ s' : σ} {v : ν}
    (hpre : play step pre s = some (none, s₁)) (hstop : step e s₁ = some (some v, s')) :
    play step (pre ++ e :: post) s = some (some v, s') :=
  (play_append_of_next hpre _).trans (play_cons_of_stop hstop post)

/-- What every event keeps is kept. -/
theorem play_keeps {P : σ → Prop} (h : ∀ e s r, step e s = some r → P s → P r.2) {t : List ε} {s : σ}
    {r : Option ν × σ} (hplay : play step t s = some r) (hs : P s) : P r.2 := by
  induction t generalizing s with
  | nil =>
    cases hplay
    exact hs
  | cons e t ih =>
    obtain ⟨r₁, hstep, hrest⟩ := Option.bind_eq_some_iff.mp hplay
    have hr₁ := h e s r₁ hstep hs
    split_ifs at hrest
    · cases hrest
      exact hr₁
    · exact ih hrest hr₁

/-- What every event keeps is there in the end if the search came to an event that brings it about. -/
theorem play_reaches {P : σ → Prop} (h : ∀ e s r, step e s = some r → P s → P r.2)
    {pre post : List ε} {e : ε} {s s₁ : σ} {r₁ r : Option ν × σ}
    (hpre : play step pre s = some (none, s₁)) (hstep : step e s₁ = some r₁) (hr₁ : P r₁.2)
    (hplay : play step (pre ++ e :: post) s = some r) : P r.2 := by
  rw [play_append_of_next hpre, play, hstep, Option.bind_some] at hplay
  split_ifs at hplay
  · cases hplay
    exact hr₁
  · exact play_keeps h hplay hr₁

/-- **Where something came about**: at an event that the search came to, and which, if it stopped the
search, was the last. -/
theorem play_gains {P : σ → Prop} {t : List ε} {s : σ} {r : Option ν × σ}
    (hplay : play step t s = some r) (hs : ¬P s) (hr : P r.2) :
    ∃ pre e post s₁ r₁, t = pre ++ e :: post ∧ play step pre s = some (none, s₁) ∧
      step e s₁ = some r₁ ∧ ¬P s₁ ∧ P r₁.2 ∧ (r₁.1.isSome = true → r = r₁) := by
  induction t generalizing s with
  | nil =>
    cases hplay
    exact absurd hr hs
  | cons e t ih =>
    obtain ⟨⟨v, s₁⟩, hstep, hrest⟩ := Option.bind_eq_some_iff.mp hplay
    by_cases hs₁ : P s₁
    · refine ⟨[], e, t, s, (v, s₁), rfl, rfl, hstep, hs, hs₁, fun hv => ?_⟩
      rw [if_pos hv] at hrest
      exact (Option.some.inj hrest).symm
    · cases v with
      | some v =>
        cases hrest
        exact absurd hr hs₁
      | none =>
        obtain ⟨pre, e', post, s₂, r₂, rfl, hpre, hrest⟩ := ih hrest hs₁
        exact ⟨e :: pre, e', post, s₂, r₂, rfl, (play_cons_of_next hstep pre).trans hpre, hrest⟩

end UtilWin
