import Mathlib.Data.List.TakeWhile

/-!
# Tokens between separators

`tokens p l` are the parts of `l` between the elements that satisfy `p`, without the empty ones, so
that a run of separators counts as one.  A separator anywhere splits the tokens in two
(`tokens_append_cons`), and joining tokens with a separator and taking them apart again gives them
back (`tokens_intercalate`).
-/

namespace UtilWin

universe u

variable {α : Type u} {p : α → Bool} {l xs ys : List α} {sep : α}

/-- The non-empty parts between separators. -/
def tokens (p : α → Bool) (l : List α) : List (List α) := (l.splitOnP p).filter (!·.isEmpty)

@[simp] theorem tokens_nil : tokens p [] = [] := by
  rw [tokens, List.splitOnP_nil, List.filter_cons_of_neg (by simp), List.filter_nil]

/-- **A separator splits the tokens.** -/
theorem tokens_append_cons (hsep : p sep = true) :
    tokens p (xs ++ sep :: ys) = tokens p xs ++ tokens p ys := by
  rw [tokens, List.splitOnP_append_cons xs ys hsep, List.filter_append, tokens, tokens]

theorem tokens_cons_of_pos (hsep : p sep = true) : tokens p (sep :: l) = tokens p l := by
  rw [← List.nil_append (sep :: l), tokens_append_cons hsep, tokens_nil, List.nil_append]

/-- What has no separator is one token. -/
theorem tokens_eq_singleton (hne : l ≠ []) (h : ∀ x ∈ l, p x = false) : tokens p l = [l] := by
  rw [tokens, List.splitOnP_eq_singleton h, List.filter_cons_of_pos (by simp [hne]),
    List.filter_nil]

/-- Separators in front do not count. -/
theorem tokens_dropWhile (l : List α) : tokens p (l.dropWhile p) = tokens p l := by
  induction l with
  | nil => rfl
  | cons x l ih =>
    cases hx : p x with
    | true => rw [List.dropWhile_cons_of_pos hx, ih, tokens_cons_of_pos hx]
    | false => rw [List.dropWhile_cons_of_neg (by simp [hx])]

theorem intercalate_snoc {ls : List (List α)} (hne : ls ≠ []) (sep l : List α) :
    sep.intercalate (ls ++ [l]) = sep.intercalate ls ++ (sep ++ l) := by
  induction ls with
  | nil => exact absurd rfl hne
  | cons l₁ ls ih =>
    cases ls with
    | nil =>
      rw [List.cons_append, List.nil_append, List.intercalate_cons_cons,
        List.intercalate_singleton, List.intercalate_singleton, List.append_assoc]
    | cons l₂ ls =>
      have ih := ih (List.cons_ne_nil _ _)
      rw [List.cons_append] at ih ⊢
      rw [List.cons_append, List.intercalate_cons_cons, List.intercalate_cons_cons, ih,
        List.append_assoc, List.append_assoc, List.append_assoc]

/-- **Joining and taking apart.** -/
theorem tokens_intercalate {ls : List (List α)} (hsep : p sep = true)
    (h : ∀ l ∈ ls, l ≠ [] ∧ ∀ x ∈ l, p x = false) : tokens p ([sep].intercalate ls) = ls := by
  induction ls with
  | nil => rw [List.intercalate_nil, tokens_nil]
  | cons l ls ih =>
    have hl := tokens_eq_singleton (h l (List.mem_cons_self ..)).1 (h l (List.mem_cons_self ..)).2
    cases ls with
    | nil => rw [List.intercalate_singleton, hl]
    | cons l' ls =>
      rw [List.intercalate_cons_cons, List.append_assoc, List.singleton_append,
        tokens_append_cons hsep, hl, ih fun x hx => h x (List.mem_cons_of_mem _ hx),
        List.singleton_append]

/-- What is left begins with something else. -/
theorem of_mem_head?_dropWhile {x : α} (hx : x ∈ (l.dropWhile p).head?) : p x = false := by
  have h := List.head?_dropWhile_not p l
  rwa [Option.mem_def.mp hx] at h

/-- A list with a separator, split at the first one: in front of it there is none. -/
theorem exists_split_of_any (h : l.any p = true) :
    ∃ sep ys, p sep = true ∧ l = l.takeWhile (!p ·) ++ sep :: ys ∧ l.dropWhile (!p ·) = sep :: ys ∧
      ∀ x ∈ l.takeWhile (!p ·), p x = false := by
  have hne : l.dropWhile (!p ·) ≠ [] := by
    rw [Ne, List.dropWhile_eq_nil_iff]
    intro hall
    obtain ⟨x, hx, hpx⟩ := List.any_eq_true.mp h
    simpa [hpx] using hall x hx
  obtain ⟨sep, ys, hys⟩ := List.exists_cons_of_ne_nil hne
  have hhead := List.head_dropWhile_not (!p ·) hne
  simp only [hys, List.head_cons] at hhead
  refine ⟨sep, ys, by simpa using hhead, ?_, hys, fun x hx => ?_⟩
  · rw [← hys, List.takeWhile_append_dropWhile]
  · simpa using List.mem_takeWhile_imp hx

end UtilWin
