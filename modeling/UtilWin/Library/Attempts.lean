import Mathlib.Data.List.Forall2

/-!
# Attempts

A computation that may go wrong is an `Except`.  `bind_eq_ok` and `mapM_eq_ok` take apart what has come to
an end, and `bind_ne_error`, `foldlM_ne_error` and `mapM_ne_error` put together what does not go wrong in
some way: the parts do not, where a loop may keep an invariant.
-/

namespace UtilWin

universe u v

variable {ε : Type v} {α β : Type u} {fault : ε}

/-- A computation that goes on with the result of another. -/
theorem bind_eq_ok {x : Except ε α} {f : α → Except ε β} {r : β} :
    x >>= f = .ok r ↔ ∃ a, x = .ok a ∧ f a = .ok r := by
  cases x with
  | ok a =>
    refine ⟨fun h => ⟨a, rfl, h⟩, ?_⟩
    rintro ⟨b, hb, h⟩
    cases hb
    exact h
  | error e =>
    refine ⟨fun h => (by cases h), ?_⟩
    rintro ⟨b, hb, -⟩
    cases hb

/-- A computation goes wrong in its first part or behind it. -/
theorem bind_ne_error {x : Except ε α} {f : α → Except ε β} (hx : x ≠ .error fault)
    (hf : ∀ a, x = .ok a → f a ≠ .error fault) : x >>= f ≠ .error fault := by
  cases x with
  | ok a => exact hf a rfl
  | error e =>
    intro h
    cases h
    exact hx rfl

theorem ok_ne_error (a : α) : (.ok a : Except ε α) ≠ .error fault := fun h => (by cases h)

/-- A loop that collects results. -/
theorem mapM_eq_ok {α : Type v} {f : α → Except ε β} {l : List α} {rs : List β} :
    l.mapM f = .ok rs ↔ List.Forall₂ (fun a r => f a = .ok r) l rs := by
  induction l generalizing rs with
  | nil =>
    rw [List.mapM_nil, List.forall₂_nil_left_iff]
    exact ⟨fun h => (by cases h; rfl), fun h => (by rw [h]; rfl)⟩
  | cons a l ih =>
    rw [List.mapM_cons, List.forall₂_cons_left_iff]
    constructor
    · intro h
      obtain ⟨r, hr, h⟩ := bind_eq_ok.mp h
      obtain ⟨rs', hrs, h⟩ := bind_eq_ok.mp h
      cases h
      exact ⟨r, rs', hr, ih.mp hrs, rfl⟩
    · rintro ⟨r, rs', hr, hrs, rfl⟩
      exact bind_eq_ok.mpr ⟨r, hr, bind_eq_ok.mpr ⟨rs', ih.mpr hrs, rfl⟩⟩

theorem mapM_ne_error {α : Type v} {f : α → Except ε β} (h : ∀ a, f a ≠ .error fault)
    (l : List α) : l.mapM f ≠ .error fault := by
  induction l with
  | nil => exact ok_ne_error []
  | cons a l ih =>
    rw [List.mapM_cons]
    exact bind_ne_error (h a) fun _ _ => bind_ne_error ih fun _ _ => ok_ne_error _

/-- A loop with an invariant. -/
theorem foldlM_ne_error {α : Type v} {f : β → α → Except ε β} {I : β → Prop}
    (hstep : ∀ m a m', I m → f m a = .ok m' → I m') (h : ∀ m a, I m → f m a ≠ .error fault)
    (l : List α) {m : β} (hm : I m) : l.foldlM f m ≠ .error fault := by
  induction l generalizing m with
  | nil => exact ok_ne_error m
  | cons a l ih =>
    rw [List.foldlM_cons]
    exact bind_ne_error (h m a hm) fun m' hrun => ih (hstep m a m' hm hrun)

end UtilWin
