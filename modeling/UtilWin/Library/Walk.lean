import Mathlib.Data.List.Basic
import Mathlib.Data.List.Nodup
import Mathlib.Tactic.SplitIfs

/-!
# Walks in a labelled graph

A graph is given by the edges out of each node, as a list, and the node each edge leads to.
`walks out target n ts` are the walks from `n` whose edges pass the tests `ts` one by one, in the
order in which a depth-first search meets them.  They are exactly those walks (`mem_walks`), each once
(`nodup_walks`), and when no node has two edges with one label, a walk is known by its labels
(`IsWalk.eq_of_labels`).
-/

namespace UtilWin

universe u v w

variable {N : Type u} {E : Type v} {L : Type w} (out : N → List E) (target : E → N)

/-- `c` is a walk from a node. -/
def IsWalk : N → List E → Prop
  | _, [] => True
  | n, e :: c => e ∈ out n ∧ IsWalk (target e) c

/-- Where a walk from `n` ends. -/
def stop : N → List E → N
  | n, [] => n
  | _, e :: c => stop (target e) c

/-- The walks whose edges pass the tests. -/
def walks : N → List (E → Bool) → List (List E)
  | _, [] => [[]]
  | n, t :: ts => (out n).flatMap fun e => if t e then (walks (target e) ts).map (e :: ·) else []

variable {out target} {n : N} {c c' : List E} {e : E} {ts : List (E → Bool)}

@[simp] theorem stop_append : stop target n (c ++ c') = stop target (stop target n c) c' := by
  induction c generalizing n with
  | nil => rfl
  | cons e c ih => exact ih

theorem isWalk_append :
    IsWalk out target n (c ++ c') ↔
      IsWalk out target n c ∧ IsWalk out target (stop target n c) c' := by
  induction c generalizing n with
  | nil => exact ⟨fun h => ⟨trivial, h⟩, fun h => h.2⟩
  | cons e c ih => rw [List.cons_append, IsWalk, IsWalk, ih, and_assoc, stop]

/-- **The walks are those that pass.** -/
theorem mem_walks : c ∈ walks out target n ts ↔
    IsWalk out target n c ∧ List.Forall₂ (fun t e => t e = true) ts c := by
  induction ts generalizing n c with
  | nil =>
    rw [walks, List.mem_singleton, List.forall₂_nil_left_iff]
    exact ⟨fun h => ⟨h ▸ trivial, h⟩, fun h => h.2⟩
  | cons t ts ih =>
    rw [walks, List.mem_flatMap]
    constructor
    · rintro ⟨e, he, hc⟩
      split_ifs at hc with ht
      · obtain ⟨d, hd, rfl⟩ := List.mem_map.mp hc
        obtain ⟨hwalk, htests⟩ := ih.mp hd
        exact ⟨⟨he, hwalk⟩, .cons ht htests⟩
      · cases hc
    · rintro ⟨hwalk, htests⟩
      cases htests with
      | @cons _ e _ c ht htests =>
        refine ⟨e, hwalk.1, ?_⟩
        rw [if_pos ht]
        exact List.mem_map.mpr ⟨c, ih.mpr ⟨hwalk.2, htests⟩, rfl⟩

/-- **Each once.** -/
theorem nodup_walks (h : ∀ n, (out n).Nodup) : (walks out target n ts).Nodup := by
  induction ts generalizing n with
  | nil => exact List.nodup_singleton []
  | cons t ts ih =>
    rw [walks, List.nodup_flatMap]
    refine ⟨fun e _ => ?_, (h n).imp fun {e e'} hne => ?_⟩
    · split_ifs
      · exact ih.map List.cons_injective
      · exact List.nodup_nil
    · show List.Disjoint (ite _ _ _) (ite _ _ _)
      rw [List.disjoint_left]
      intro c hc hc'
      split_ifs at hc with ht
      · split_ifs at hc' with ht'
        · obtain ⟨d, -, rfl⟩ := List.mem_map.mp hc
          obtain ⟨d', -, hd'⟩ := List.mem_map.mp hc'
          exact hne (List.cons.inj hd').1.symm
        · cases hc'
      · cases hc

/-- **A walk is known by its labels.** -/
theorem IsWalk.eq_of_labels {label : E → L} (huniq : ∀ n, ((out n).map label).Nodup)
    (hc : IsWalk out target n c) (hc' : IsWalk out target n c')
    (heq : c.map label = c'.map label) : c = c' := by
  induction c generalizing n c' with
  | nil => exact (List.map_eq_nil_iff.mp heq.symm).symm
  | cons e c ih =>
    cases c' with
    | nil => cases heq
    | cons e' c' =>
      rw [List.map_cons, List.map_cons] at heq
      obtain ⟨hlabel, hrest⟩ := List.cons.inj heq
      have he : e = e' := List.inj_on_of_nodup_map (huniq n) hc.1 hc'.1 hlabel
      subst he
      rw [ih hc.2 hc'.2 hrest]

end UtilWin
