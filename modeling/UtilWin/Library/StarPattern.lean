import Mathlib.Data.List.Forall2

/-!
# Patterns with stars

A pattern is a list of items, each of which accepts one letter or is a star, which accepts any word.
`Matches` says what a pattern accepts, with a free choice of what each star takes.

A matcher has no need to try the choices.  What stands before the first star is compared with the
front of the word (`matches_ones_append`), what stands behind the last one with its end
(`matches_append_ones`), and a component between two stars is searched from the left and taken where
it occurs first: when it occurs at the front it may as well be taken there (`matches_component_here`),
when it does not the first letter goes to the star (`matches_component_later`), and when the word is
too short there is no match (`not_matches_of_length_lt`).
-/

namespace UtilWin
namespace StarPattern

universe u v

variable {ι : Type u} {κ : Type v} {acc : ι → κ → Prop}

/-- An item of a pattern. -/
inductive Item (ι : Type u) where
  | one (i : ι)
  | star
  deriving DecidableEq

/-- The pattern accepts the word, for an `acc` that says which letters an item accepts. -/
inductive Matches (acc : ι → κ → Prop) : List (Item ι) → List κ → Prop
  | nil : Matches acc [] []
  | one {i k is ks} : acc i k → Matches acc is ks → Matches acc (.one i :: is) (k :: ks)
  | skip {is ks} : Matches acc is ks → Matches acc (.star :: is) ks
  | more {is k ks} : Matches acc (.star :: is) ks → Matches acc (.star :: is) (k :: ks)

/-- The word begins with letters that the items `c` accept one by one. -/
def Begins (acc : ι → κ → Prop) (c : List ι) (ks : List κ) : Prop :=
  List.Forall₂ acc c (ks.take c.length)

variable {i : ι} {k : κ} {c h t : List ι} {is js : List (Item ι)} {ks xs : List κ}

/-! ## One item -/

@[simp] theorem matches_nil : Matches acc [] ks ↔ ks = [] := by
  constructor
  · rintro ⟨⟩
    rfl
  · rintro rfl
    exact .nil

@[simp] theorem matches_one_nil : ¬Matches acc (.one i :: is) [] := by
  rintro ⟨⟩

@[simp] theorem matches_one_cons :
    Matches acc (.one i :: is) (k :: ks) ↔ acc i k ∧ Matches acc is ks := by
  constructor
  · rintro ⟨⟩
    exact ⟨‹_›, ‹_›⟩
  · exact fun hk => .one hk.1 hk.2

@[simp] theorem matches_star_nil : Matches acc (.star :: is) [] ↔ Matches acc is [] := by
  constructor
  · rintro ⟨⟩
    assumption
  · exact .skip

theorem matches_star_cons :
    Matches acc (.star :: is) (k :: ks) ↔
      Matches acc is (k :: ks) ∨ Matches acc (.star :: is) ks := by
  constructor
  · intro hk
    cases hk with
    | skip hk => exact Or.inl hk
    | more hk => exact Or.inr hk
  · rintro (hk | hk)
    · exact .skip hk
    · exact .more hk

/-- A star accepts any word in front of what follows. -/
theorem Matches.star_append (xs : List κ) (hk : Matches acc (.star :: is) ks) :
    Matches acc (.star :: is) (xs ++ ks) := by
  induction xs with
  | nil => exact hk
  | cons x xs ih => exact .more ih

/-- A star takes some word and leaves the rest to what follows it. -/
theorem matches_star_iff :
    Matches acc (.star :: is) ks ↔ ∃ n, n ≤ ks.length ∧ Matches acc is (ks.drop n) := by
  constructor
  · intro hk
    induction ks with
    | nil => exact ⟨0, Nat.le_refl _, matches_star_nil.mp hk⟩
    | cons k ks ih =>
      rcases matches_star_cons.mp hk with hk | hk
      · exact ⟨0, Nat.zero_le _, hk⟩
      · obtain ⟨n, hn, hm⟩ := ih hk
        exact ⟨n + 1, Nat.succ_le_succ hn, hm⟩
  · rintro ⟨n, -, hm⟩
    rw [← List.take_append_drop n ks]
    exact hm.skip.star_append _

/-! ## Composition -/

/-- A pattern made of two accepts the words made of two. -/
theorem matches_append :
    Matches acc (is ++ js) ks ↔ ∃ x y, ks = x ++ y ∧ Matches acc is x ∧ Matches acc js y := by
  induction is generalizing ks with
  | nil =>
    constructor
    · exact fun hk => ⟨[], ks, rfl, .nil, hk⟩
    · rintro ⟨x, y, rfl, hx, hy⟩
      rw [matches_nil] at hx
      rw [hx]
      exact hy
  | cons i is ih =>
    cases i with
    | one i =>
      cases ks with
      | nil =>
        constructor
        · intro hk
          exact absurd hk matches_one_nil
        · rintro ⟨x, y, hxy, hx, -⟩
          rw [(List.append_eq_nil_iff.mp hxy.symm).1] at hx
          exact absurd hx matches_one_nil
      | cons k ks =>
        rw [List.cons_append, matches_one_cons, ih]
        constructor
        · rintro ⟨hk, x, y, rfl, hx, hy⟩
          exact ⟨k :: x, y, rfl, .one hk hx, hy⟩
        · rintro ⟨x, y, hxy, hx, hy⟩
          cases hx with
          | one hk hx =>
            rw [List.cons_append, List.cons.injEq] at hxy
            obtain ⟨rfl, rfl⟩ := hxy
            exact ⟨hk, _, y, rfl, hx, hy⟩
    | star =>
      rw [List.cons_append, matches_star_iff]
      constructor
      · rintro ⟨n, -, hm⟩
        obtain ⟨x, y, hxy, hx, hy⟩ := ih.mp hm
        refine ⟨ks.take n ++ x, y, ?_, hx.skip.star_append _, hy⟩
        rw [List.append_assoc, ← hxy, List.take_append_drop]
      · rintro ⟨x, y, rfl, hx, hy⟩
        obtain ⟨n, hn, hm⟩ := matches_star_iff.mp hx
        refine ⟨n, ?_, ih.mpr ⟨x.drop n, y, ?_, hm, hy⟩⟩
        · rw [List.length_append]
          omega
        · exact List.drop_append_of_le_length hn

/-- Without stars the letters are accepted one by one. -/
theorem matches_ones : Matches acc (h.map .one) ks ↔ List.Forall₂ acc h ks := by
  induction h generalizing ks with
  | nil => rw [List.map_nil, matches_nil, List.forall₂_nil_left_iff]
  | cons i h ih =>
    cases ks with
    | nil => simp
    | cons k ks => rw [List.map_cons, matches_one_cons, ih, List.forall₂_cons]

/-- **The front.**  Items before the first star are compared with the first letters. -/
theorem matches_ones_append :
    Matches acc (h.map .one ++ is) ks ↔ Begins acc h ks ∧ Matches acc is (ks.drop h.length) := by
  rw [matches_append]
  constructor
  · rintro ⟨x, y, rfl, hx, hy⟩
    have hx := matches_ones.mp hx
    rw [Begins, hx.length_eq, List.take_left, List.drop_left]
    exact ⟨hx, hy⟩
  · rintro ⟨hx, hy⟩
    exact ⟨_, _, (List.take_append_drop _ _).symm, matches_ones.mpr hx, hy⟩

/-- **The end.**  Items behind the last star are compared with the last letters. -/
theorem matches_append_ones :
    Matches acc (is ++ t.map .one) ks ↔
      t.length ≤ ks.length ∧ Matches acc is (ks.take (ks.length - t.length)) ∧
        List.Forall₂ acc t (ks.drop (ks.length - t.length)) := by
  rw [matches_append]
  constructor
  · rintro ⟨x, y, rfl, hx, hy⟩
    have hy := matches_ones.mp hy
    rw [List.length_append, hy.length_eq, Nat.add_sub_cancel_right, List.take_left, List.drop_left]
    exact ⟨Nat.le_add_left _ _, hx, hy⟩
  · rintro ⟨-, hx, hy⟩
    exact ⟨_, _, (List.take_append_drop _ _).symm, hx, matches_ones.mpr hy⟩

/-- A pattern that ends in a star accepts the longer words too. -/
theorem matches_star_singleton : Matches acc [.star] ks :=
  matches_star_iff.mpr ⟨ks.length, Nat.le_refl _, by rw [List.drop_length]; exact .nil⟩

/-! ## The component behind a star -/

theorem Begins.length_le (hc : Begins acc c ks) : c.length ≤ ks.length := by
  have := hc.length_eq
  rw [List.length_take] at this
  omega

/-- **A component that is there may be taken there.**  Any other choice takes it later, and leaves
less to the next star. -/
theorem matches_component_here (hc : Begins acc c ks) :
    Matches acc (.star :: (c.map .one ++ .star :: is)) ks ↔
      Matches acc (.star :: is) (ks.drop c.length) := by
  constructor
  · intro hk
    obtain ⟨n, hn, hm⟩ := matches_star_iff.mp hk
    have hm := (matches_ones_append.mp hm).2
    rw [List.drop_drop, Nat.add_comm, ← List.drop_drop] at hm
    have := hm.star_append ((ks.drop c.length).take n)
    rwa [List.take_append_drop] at this
  · exact fun hk => .skip (matches_ones_append.mpr ⟨hc, hk⟩)

/-- **A component that is not there is somewhere behind**: the first letter goes to the star. -/
theorem matches_component_later (hc : ¬Begins acc c (k :: ks)) :
    Matches acc (.star :: (c.map .one ++ is)) (k :: ks) ↔
      Matches acc (.star :: (c.map .one ++ is)) ks := by
  rw [matches_star_cons]
  constructor
  · rintro (hk | hk)
    · exact absurd (matches_ones_append.mp hk).1 hc
    · exact hk
  · exact Or.inr

/-- A word that is shorter than a component is not accepted. -/
theorem not_matches_of_length_lt (hlt : ks.length < c.length) :
    ¬Matches acc (.star :: (c.map .one ++ is)) ks := by
  intro hk
  obtain ⟨n, -, hm⟩ := matches_star_iff.mp hk
  have := (matches_ones_append.mp hm).1.length_le
  rw [List.length_drop] at this
  omega

end StarPattern
end UtilWin
