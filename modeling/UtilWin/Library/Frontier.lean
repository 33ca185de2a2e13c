import Mathlib.Data.List.Nodup
import Mathlib.Order.Basic

/-!
# One entry for each key

A search that goes along all paths at once keeps a list of the places that it has reached.  If it comes
to a place again, the better one of the two ways there stays (`keep`).

Which places are in the list does not depend on which ways are better (`mem_keys_keepAll`).  If the ways
come in the order of a rank that the better one is chosen by first, the list stays in this order, and for each
place a way of the best rank stays (`keepAll_ranked`).
-/

namespace UtilWin
namespace Frontier

universe u v

variable {κ : Type u} {β : Type v} [DecidableEq κ] (wins : β → β → Bool)

/-- An entry in the place of the one with the same key if it wins, at the end if there is none. -/
def keep (k : κ) (v : β) : List (κ × β) → List (κ × β)
  | [] => [(k, v)]
  | (k', w) :: l =>
    if k' = k then (k', if wins v w then v else w) :: l else (k', w) :: keep k v l

/-- The entries one after the other. -/
def keepAll (l : List (κ × β)) (cands : List (κ × β)) : List (κ × β) :=
  cands.foldl (fun l c => keep wins c.1 c.2 l) l

variable {wins} {k : κ} {v : β} {l cands : List (κ × β)}

theorem mem_keys_keep {k' : κ} :
    k' ∈ (keep wins k v l).map Prod.fst ↔ k' = k ∨ k' ∈ l.map Prod.fst := by
  induction l with
  | nil => simp [keep]
  | cons x l ih =>
    obtain ⟨k₁, w⟩ := x
    rw [keep]
    split
    · next h =>
      subst h
      simp
    · rw [List.map_cons, List.mem_cons, ih, List.map_cons, List.mem_cons]
      exact or_left_comm

/-- Nothing is made up. -/
theorem of_mem_keep {x : κ × β} (h : x ∈ keep wins k v l) : x = (k, v) ∨ x ∈ l := by
  induction l with
  | nil => exact .inl (List.mem_singleton.mp h)
  | cons y l ih =>
    obtain ⟨k₁, w⟩ := y
    rw [keep] at h
    split at h
    · next hk =>
      rcases List.mem_cons.mp h with rfl | h
      · split
        · exact .inl (by rw [hk])
        · exact .inr List.mem_cons_self
      · exact .inr (List.mem_cons_of_mem _ h)
    · rcases List.mem_cons.mp h with rfl | h
      · exact .inr List.mem_cons_self
      · exact (ih h).imp_right (List.mem_cons_of_mem _)

/-- A new key comes to the end. -/
theorem keep_of_new (h : k ∉ l.map Prod.fst) : keep wins k v l = l ++ [(k, v)] := by
  induction l with
  | nil => rfl
  | cons x l ih =>
    obtain ⟨k₁, w⟩ := x
    rw [List.map_cons, List.mem_cons, not_or] at h
    rw [keep, if_neg (Ne.symm h.1), ih h.2, List.cons_append]

/-- **The keys of the list are the keys that have come.** -/
theorem mem_keys_keepAll {k' : κ} :
    k' ∈ (keepAll wins l cands).map Prod.fst ↔
      k' ∈ l.map Prod.fst ∨ k' ∈ cands.map Prod.fst := by
  induction cands generalizing l with
  | nil => simp [keepAll]
  | cons c cands ih =>
    have hfold : keepAll wins l (c :: cands) = keepAll wins (keep wins c.1 c.2 l) cands := rfl
    rw [hfold, ih, mem_keys_keep, List.map_cons, List.mem_cons]
    constructor
    · rintro ((h | h) | h)
      · exact .inr (.inl h)
      · exact .inl h
      · exact .inr (.inr h)
    · rintro (h | h | h)
      · exact .inl (.inr h)
      · exact .inl (.inl h)
      · exact .inr h

/-- Every entry of the list has come with its value. -/
theorem of_mem_keepAll {x : κ × β} (h : x ∈ keepAll wins l cands) : x ∈ l ∨ x ∈ cands := by
  induction cands generalizing l with
  | nil => exact .inl h
  | cons c cands ih =>
    rcases ih h with h | h
    · rcases of_mem_keep h with rfl | h
      · exact .inr List.mem_cons_self
      · exact .inl h
    · exact .inr (List.mem_cons_of_mem _ h)

/-! ## Entries with a rank -/

/-- The ranks rise from the front to the end. -/
def Ranked {γ : Type*} [LE γ] (rank : β → γ) (l : List (κ × β)) : Prop :=
  l.Pairwise fun x y => rank x.2 ≤ rank y.2

section

variable {γ : Type*} [PartialOrder γ] {rank : β → γ}

/-- If an entry does not win over a smaller rank, the ranks in the list stay. -/
theorem keep_ranks (hwins : ∀ w, wins v w = true → rank v ≤ rank w)
    (h : ∀ x ∈ l, rank x.2 ≤ rank v) :
    (keep wins k v l).map (Prod.map id rank) =
      if k ∈ l.map Prod.fst then l.map (Prod.map id rank)
      else l.map (Prod.map id rank) ++ [(k, rank v)] := by
  induction l with
  | nil => rfl
  | cons x l ih =>
    obtain ⟨k', w⟩ := x
    have hw : rank w ≤ rank v := h _ List.mem_cons_self
    rw [keep]
    by_cases hk : k' = k
    · subst hk
      have hrank : rank (if wins v w then v else w) = rank w := by
        split
        · next hwin => exact le_antisymm (hwins w hwin) hw
        · rfl
      simp [hrank]
    · rw [if_neg hk, List.map_cons, ih fun x hx => h x (List.mem_cons_of_mem _ hx)]
      by_cases hmem : k ∈ l.map Prod.fst
      · have hcons : k ∈ ((k', w) :: l).map Prod.fst := List.mem_cons_of_mem _ hmem
        rw [if_pos hmem, if_pos hcons, List.map_cons]
      · have hcons : k ∉ ((k', w) :: l).map Prod.fst := fun hc =>
          (List.mem_cons.mp hc).elim (Ne.symm hk) hmem
        rw [if_neg hmem, if_neg hcons, List.map_cons, List.cons_append]

omit [DecidableEq κ] in
theorem ranked_iff : Ranked rank l ↔
    (l.map (Prod.map id rank)).Pairwise fun x y => x.2 ≤ y.2 := by
  rw [Ranked, List.pairwise_map]
  rfl

/-- One more entry behind those that are held. -/
theorem Ranked.keep (h : Ranked rank (l ++ (k, v) :: cands))
    (hwins : ∀ w, wins v w = true → rank v ≤ rank w) :
    Ranked rank (keep wins k v l ++ cands) ∧
      ∀ c ∈ l ++ (k, v) :: cands, ∃ x ∈ Frontier.keep wins k v l ++ cands,
        x.1 = c.1 ∧ rank x.2 ≤ rank c.2 := by
  obtain ⟨hl, -, hlast⟩ := List.pairwise_append.mp h
  have hle : ∀ x ∈ l, rank x.2 ≤ rank v := fun x hx => hlast x hx _ List.mem_cons_self
  have hranks := @keep_ranks _ _ _ wins k v l _ _ rank hwins hle
  have hfind : ∀ {y : κ × γ}, y ∈ (Frontier.keep wins k v l).map (Prod.map id rank) →
      ∃ x ∈ Frontier.keep wins k v l ++ cands, x.1 = y.1 ∧ rank x.2 = y.2 := by
    intro y hy
    obtain ⟨x, hx, rfl⟩ := List.mem_map.mp hy
    exact ⟨x, List.mem_append_left _ hx, rfl, rfl⟩
  constructor
  · rw [ranked_iff, List.map_append, hranks]
    rw [ranked_iff, List.map_append, List.map_cons] at h
    split
    · exact h.sublist (List.Sublist.append_left (List.sublist_cons_self _ _) _)
    · rwa [List.append_assoc, List.singleton_append]
  · intro c hc
    rcases List.mem_append.mp hc with hc | hc
    · have hmem : (c.1, rank c.2) ∈ (Frontier.keep wins k v l).map (Prod.map id rank) := by
        have hc' : (c.1, rank c.2) ∈ l.map (Prod.map id rank) := List.mem_map_of_mem hc
        rw [hranks]
        split
        · exact hc'
        · exact List.mem_append_left _ hc'
      obtain ⟨x, hx, hk, hr⟩ := hfind hmem
      exact ⟨x, hx, hk, hr.le⟩
    · rcases List.mem_cons.mp hc with rfl | hc
      · by_cases hk : k ∈ l.map Prod.fst
        · obtain ⟨y, hy, rfl⟩ := List.mem_map.mp hk
          have hmem : (y.1, rank y.2) ∈ (Frontier.keep wins y.1 v l).map (Prod.map id rank) := by
            rw [hranks, if_pos hk]
            exact List.mem_map_of_mem hy
          obtain ⟨x, hx, hk, hr⟩ := hfind hmem
          exact ⟨x, hx, hk, hr.le.trans (hle y hy)⟩
        · have hmem : (k, rank v) ∈ (Frontier.keep wins k v l).map (Prod.map id rank) := by
            rw [hranks, if_neg hk]
            exact List.mem_append_right _ (List.mem_singleton.mpr rfl)
          obtain ⟨x, hx, hk, hr⟩ := hfind hmem
          exact ⟨x, hx, hk, hr.le⟩
      · exact ⟨c, List.mem_append_right _ hc, rfl, le_refl _⟩

/-- **For every key an entry of the smallest rank is held**, and the ranks rise. -/
theorem keepAll_ranked (h : Ranked rank (l ++ cands))
    (hwins : ∀ v w, wins v w = true → rank v ≤ rank w) :
    Ranked rank (keepAll wins l cands) ∧
      ∀ c ∈ l ++ cands, ∃ x ∈ keepAll wins l cands, x.1 = c.1 ∧ rank x.2 ≤ rank c.2 := by
  induction cands generalizing l with
  | nil =>
    rw [List.append_nil] at h ⊢
    exact ⟨h, fun c hc => ⟨c, hc, rfl, le_refl _⟩⟩
  | cons c cands ih =>
    have hfold : keepAll wins l (c :: cands) = keepAll wins (keep wins c.1 c.2 l) cands := rfl
    obtain ⟨hone, hfind⟩ := h.keep (hwins c.2)
    obtain ⟨hall, hrest⟩ := ih hone
    rw [hfold]
    refine ⟨hall, fun y hy => ?_⟩
    obtain ⟨x, hx, hk, hr⟩ := hfind y hy
    obtain ⟨z, hz, hk', hr'⟩ := hrest x hx
    exact ⟨z, hz, hk'.trans hk, hr'.trans hr⟩

end
end Frontier
end UtilWin
