import UtilWin.Regex.RunParallel

/-!
# The leftmost match, and the longest one there

The tag `0` is put to where a match begins and is never moved.  The states are held in the order in which
their matches begin: the transitions are followed in the order of the states, and the initial states come
behind.  `tre_tag_order` looks at the tag `0` first, so only a path that begins with the one that is held can
win over it, and the order stays (`keepAll_ranked`).

A path that comes to the final state first is a match only if it does not begin later than the match that is
known.  But one that wins there is a match in any case (`record_held`).  If there are no other tags, this
does not happen, and the match that is found is the leftmost one.  If there are, a match that ends earlier
than the one that is found may begin earlier, too (`treTnfaRunParallel_leftmost`).

As long as there is no match, matches that begin at any time so far are on their way.  Behind the first one
no more are begun, and all that begin later are worse (`Search.Follows`).
-/

namespace UtilWin
namespace Tre

open Glob (Str has)
open Frontier

/-- The tag `0` says where a match begins, and there may be others. -/
structure Search.StartFirst (s : Search) : Prop where
  marked : s.tnfa.Marked
  numTags : 0 < s.numTags
  direction : s.tagDirections 0 = .minimize
  initial : ∀ i ∈ s.tnfa.initial, 0 ∈ i.tags
  transitions : ∀ q, ∀ tr ∈ s.tnfa.transitions q, 0 ∉ tr.tags

/-- Where a match begins. -/
def begun (tags : List ℤ) : ℤ := tags.headD 0

/-- The order of the tags. -/
abbrev Search.wins (s : Search) : List ℤ → List ℤ → Bool := treTagOrder s.tagDirections 0

section

variable {s : Search} {text : List (ℤ × ℕ)} {p p' : Progress} {i j t u q k : ℕ} {tags v w : List ℤ}
  {ids : List ℕ} {pos : ℕ}

/-! ## Where a match begins -/

theorem length_setTags : (setTags tags ids pos).length = tags.length := by
  rw [setTags]
  induction ids generalizing tags with
  | nil => rfl
  | cons id ids ih => rw [List.foldl_cons, ih, List.length_set]

theorem begun_setTags_of_notMem (h : 0 ∉ ids) : begun (setTags tags ids pos) = begun tags := by
  rw [setTags]
  induction ids generalizing tags with
  | nil => rfl
  | cons id ids ih =>
    rw [List.mem_cons, not_or] at h
    rw [List.foldl_cons, ih h.2]
    obtain ⟨n, rfl⟩ := Nat.exists_eq_succ_of_ne_zero (Ne.symm h.1)
    cases tags <;> rfl

theorem begun_setTags_of_mem (h : 0 ∈ ids) (hlen : 0 < tags.length) :
    begun (setTags tags ids pos) = pos := by
  induction ids generalizing tags with
  | nil => exact absurd h List.not_mem_nil
  | cons id ids ih =>
    have hfold : setTags tags (id :: ids) pos = setTags (tags.set id pos) ids pos := rfl
    rw [hfold]
    by_cases hmem : 0 ∈ ids
    · exact ih hmem (by rwa [List.length_set])
    · obtain rfl : 0 = id := (List.mem_cons.mp h).resolve_right hmem
      rw [begun_setTags_of_notMem hmem]
      cases tags with
      | nil => exact absurd hlen (Nat.lt_irrefl 0)
      | cons a tags => rfl

/-- The tag `0` says where a path begins. -/
theorem begun_path (h : s.StartFirst) (hpath : s.Path text i t q tags) :
    begun tags = offset text i := by
  induction hpath with
  | start hi _ =>
    exact begun_setTags_of_mem (h.initial _ hi) (by rw [List.length_replicate]; exact h.numTags)
  | step _ htr _ ih => rw [begun_setTags_of_notMem (h.transitions _ _ htr), ih]

theorem length_path (hpath : s.Path text i t q tags) : tags.length = s.numTags := by
  induction hpath with
  | start _ _ => rw [length_setTags, List.length_replicate]
  | step _ _ _ ih => rw [length_setTags, ih]

/-! ## The order of the tags -/

theorem Search.StartFirst.wins_le (h : s.StartFirst) (hw : s.wins v w = true) : begun v ≤ begun w := by
  cases v with
  | nil => cases hw
  | cons a v =>
    cases w with
    | nil => cases hw
    | cons b w =>
      rw [Search.wins, treTagOrder] at hw
      split at hw
      · next hab => exact hab.le
      · rw [if_pos h.direction, decide_eq_true_eq] at hw
        exact hw.le

/-- If there is only one tag, nothing wins over what begins with it. -/
theorem wins_one (hone : s.numTags = 1) (hv : v.length = s.numTags) (hw : w.length = s.numTags)
    (h : begun v = begun w) : s.wins v w = false := by
  obtain ⟨a, rfl⟩ := List.length_eq_one_iff.mp (hv.trans hone)
  obtain ⟨b, rfl⟩ := List.length_eq_one_iff.mp (hw.trans hone)
  obtain rfl : a = b := h
  simp [Search.wins, treTagOrder]

/-- A character has at least one byte. -/
theorem wchars_pos {loc : Locale} {n : ℕ} {str : Str} : ∀ c ∈ (wchars loc n str).1, 0 < c.2 := by
  induction str generalizing n with
  | nil => cases n <;> exact fun c hc => absurd hc List.not_mem_nil
  | cons b str ih =>
    cases n with
    | succ n => exact ih
    | zero =>
      rw [wchars]
      split
      · exact fun c hc => absurd hc List.not_mem_nil
      · split
        · exact fun c hc => absurd hc List.not_mem_nil
        · intro c hc
          rcases List.mem_cons.mp hc with rfl | hc
          · exact Nat.lt_of_lt_of_le Nat.one_pos (Nat.le_max_right _ _)
          · exact ih c hc

theorem offset_lt (hpos : ∀ c ∈ text, 0 < c.2) (hi : i < j) (hj : j ≤ text.length) :
    offset text i < offset text j := by
  induction j with
  | zero => exact absurd hi (Nat.not_lt_zero i)
  | succ j ih =>
    have hlt : offset text j < offset text (j + 1) := by
      rw [offset_succ (List.getElem?_eq_getElem hj)]
      exact Nat.lt_add_of_pos_right (hpos _ (List.getElem_mem hj))
    rcases Nat.lt_succ_iff_lt_or_eq.mp hi with hi | rfl
    · exact (ih hi (Nat.le_of_succ_le hj)).trans hlt
    · exact hlt

theorem offset_le_iff (hpos : ∀ c ∈ text, 0 < c.2) (hi : i ≤ text.length) (hj : j ≤ text.length) :
    offset text i ≤ offset text j ↔ i ≤ j := by
  constructor
  · intro h
    by_contra hlt
    exact absurd (offset_lt hpos (Nat.lt_of_not_le hlt) hi) (Nat.not_lt.mpr h)
  · intro h
    rcases Nat.lt_or_eq_of_le h with hlt | rfl
    · exact (offset_lt hpos hlt hj).le
    · exact Nat.le_refl _

theorem begun_le_iff (hpos : ∀ c ∈ text, 0 < c.2) (hi : i ≤ text.length) (hj : j ≤ text.length) :
    (offset text i : ℤ) ≤ offset text j ↔ i ≤ j := by
  rw [← offset_le_iff hpos hi hj]
  omega

/-! ## The match behind a round -/

/-- The match that is known. -/
def Progress.record (p : Progress) : Option ℕ × List ℤ := (p.matchEo, p.matchTags)

theorem length_follow {n : ℕ} {c : ℕ × List ℤ} {cands : List (ℕ × List ℤ)}
    (h : ∀ x ∈ p.reachNext ++ c :: cands, x.2.length = n) :
    ∀ x ∈ (s.follow pos p c.1 c.2).reachNext ++ cands, x.2.length = n := by
  intro x hx
  rw [(follow_cases s pos p c.1 c.2).1] at hx
  rcases List.mem_append.mp hx with hx | hx
  · rcases of_mem_keep hx with rfl | hx
    · exact h _ (List.mem_append_right _ List.mem_cons_self)
    · exact h x (List.mem_append_left _ hx)
  · exact h x (List.mem_append_right _ (List.mem_cons_of_mem _ hx))

/-- If the final state is held already, only a path that begins where that one does becomes the match, and
this needs another tag. -/
theorem record_held (h : s.StartFirst) (pos : ℕ) {cands : List (ℕ × List ℤ)} {b : ℤ}
    (hr : Ranked begun (p.reachNext ++ cands)) (hlen : ∀ x ∈ p.reachNext ++ cands, x.2.length = s.numTags)
    (hheld : s.tnfa.final ∈ p.states)
    (hb : ∀ x ∈ p.reachNext, x.1 = s.tnfa.final → begun x.2 = b) :
    let r := cands.foldl (fun q x => s.follow pos q x.1 x.2) p
    r.record = p.record ∨
      s.numTags ≠ 1 ∧ ∃ v, (s.tnfa.final, v) ∈ cands ∧ begun v = b ∧ r.record = (some pos, v) := by
  induction cands generalizing p with
  | nil => exact .inl rfl
  | cons c cands ih =>
    obtain ⟨k, w⟩ := c
    have hle : ∀ x ∈ p.reachNext, begun x.2 ≤ begun w := fun x hx =>
      (List.pairwise_append.mp hr).2.2 x hx _ List.mem_cons_self
    have hreach := (follow_cases s pos p k w).1
    have hranks := @keep_ranks _ _ _ s.wins k w p.reachNext _ _ begun (fun _ => h.wins_le) hle
    have hr' : Ranked begun ((s.follow pos p k w).reachNext ++ cands) := by
      rw [hreach]
      exact (hr.keep fun _ => h.wins_le).1
    have hlen' := @length_follow s p pos _ _ _ hlen
    have hheld' : s.tnfa.final ∈ (s.follow pos p k w).states := by
      rw [Progress.states, hreach]
      exact mem_keys_keep.mpr (.inr hheld)
    have hb' : ∀ x ∈ (s.follow pos p k w).reachNext, x.1 = s.tnfa.final → begun x.2 = b := by
      intro x hx hfinal
      rw [hreach] at hx
      have hmem : (x.1, begun x.2) ∈ (keep s.wins k w p.reachNext).map (Prod.map id begun) :=
        List.mem_map_of_mem hx
      rw [hranks] at hmem
      have hold : (x.1, begun x.2) ∈ p.reachNext.map (Prod.map id begun) := by
        split at hmem
        · exact hmem
        · next hk =>
          refine (List.mem_append.mp hmem).resolve_right fun hc => hk ?_
          have hkx : x.1 = k := congrArg Prod.fst (List.mem_singleton.mp hc)
          rw [← hkx, hfinal]
          exact hheld
      obtain ⟨y, hy, hyx⟩ := List.mem_map.mp hold
      have hk : (Prod.map id begun y).1 = x.1 := congrArg Prod.fst hyx
      have hbegun : (Prod.map id begun y).2 = begun x.2 := congrArg Prod.snd hyx
      rw [← hbegun]
      exact hb y hy (hk.trans hfinal)
    have hnew : (s.follow pos p k w).record = p.record ∨
        s.numTags ≠ 1 ∧ k = s.tnfa.final ∧ begun w = b ∧
          (s.follow pos p k w).record = (some pos, w) := by
      rw [Search.follow]
      split
      · next hnone =>
        split
        · next hfinal =>
          obtain ⟨x, hx, hxk⟩ := List.mem_map.mp hheld
          exact absurd (List.find?_eq_none.mp hnone x hx) (by simp [hxk, hfinal.1])
        · exact .inl rfl
      · next other hsome =>
        split
        · next hwins =>
          have hmem := List.mem_of_find?_eq_some hsome
          have hkey : other.1 = k := by simpa using List.find?_some hsome
          have hob : begun other.2 = b := hb other hmem (hkey.trans hwins.2)
          have hwb : begun w = b := le_antisymm ((h.wins_le hwins.1).trans hob.le) (hob ▸ hle other hmem)
          have hmany : s.numTags ≠ 1 := by
            intro hone
            have hlose := wins_one hone (hlen (k, w) (List.mem_append_right _ List.mem_cons_self))
              (hlen other (List.mem_append_left _ hmem)) (hwb.trans hob.symm)
            exact Bool.false_ne_true (hlose.symm.trans hwins.1)
          exact .inr ⟨hmany, hwins.2, hwb, rfl⟩
        · exact .inl rfl
    rw [List.foldl_cons]
    rcases ih hr' hlen' hheld' hb' with hsame | ⟨hmany, v, hv, hvb, hrec⟩
    · rcases hnew with hold | ⟨hmany, rfl, hwb, hrec⟩
      · exact .inl (hsame.trans hold)
      · exact .inr ⟨hmany, w, List.mem_cons_self, hwb, hsame.trans hrec⟩
    · exact .inr ⟨hmany, v, List.mem_cons_of_mem _ hv, hvb, hrec⟩

/-- **The match behind a round**: it stays if nothing comes to the final state, or only what begins later
than it.  Otherwise it ends here, and nothing that ends here begins earlier. -/
theorem record_fold (h : s.StartFirst) (pos : ℕ) {cands : List (ℕ × List ℤ)}
    (hr : Ranked begun (p.reachNext ++ cands)) (hlen : ∀ x ∈ p.reachNext ++ cands, x.2.length = s.numTags)
    (hfree : s.tnfa.final ∉ p.states) :
    let r := cands.foldl (fun q x => s.follow pos q x.1 x.2) p
    (∀ v, (s.tnfa.final, v) ∉ cands) ∧ r.record = p.record ∨
      ∃ v, (s.tnfa.final, v) ∈ cands ∧ (∀ w, (s.tnfa.final, w) ∈ cands → begun v ≤ begun w) ∧
        (r.record = (some pos, v) ∧
            (s.numTags = 1 → p.matchEo = none ∨ begun v ≤ begun p.matchTags) ∨
          r.record = p.record ∧ p.matchEo ≠ none ∧ begun p.matchTags < begun v) := by
  induction cands generalizing p with
  | nil => exact .inl ⟨fun _ => List.not_mem_nil, rfl⟩
  | cons c cands ih =>
    obtain ⟨k, w⟩ := c
    have hr' : Ranked begun ((s.follow pos p k w).reachNext ++ cands) := by
      rw [(follow_cases s pos p k w).1]
      exact (hr.keep fun _ => h.wins_le).1
    have hlen' := @length_follow s p pos _ _ _ hlen
    rw [List.foldl_cons]
    by_cases hk : k = s.tnfa.final
    · subst hk
      have hle : ∀ v, (s.tnfa.final, v) ∈ (s.tnfa.final, w) :: cands → begun w ≤ begun v := by
        intro v hv
        rcases List.mem_cons.mp hv with hv | hv
        · exact (congrArg (fun x => begun x.2) hv).ge
        · exact (List.pairwise_cons.mp (List.pairwise_append.mp hr).2.1).1 _ hv
      have hreach : (s.follow pos p s.tnfa.final w).reachNext = p.reachNext ++ [(s.tnfa.final, w)] := by
        rw [(follow_cases s pos p _ w).1, keep_of_new hfree]
      have hb : ∀ x ∈ (s.follow pos p s.tnfa.final w).reachNext, x.1 = s.tnfa.final →
          begun x.2 = begun w := by
        intro x hx hfinal
        rw [hreach] at hx
        rcases List.mem_append.mp hx with hx | hx
        · exact absurd (hfinal ▸ List.mem_map_of_mem hx) hfree
        · rw [List.mem_singleton.mp hx]
      have hheld : s.tnfa.final ∈ (s.follow pos p s.tnfa.final w).states := by
        rw [Progress.states, hreach, List.map_append]
        exact List.mem_append_right _ (List.mem_singleton.mpr rfl)
      have hone : (s.follow pos p s.tnfa.final w).record =
          if s.isMatch w p = true then (some pos, w) else p.record := by
        rw [Search.follow, find?_isNone hfree]
        by_cases hm : s.isMatch w p = true
        · simp only [hm, and_self, if_true]
          rfl
        · simp only [hm]
          rfl
      rcases record_held h pos hr' hlen' hheld hb with hsame | ⟨hmany, v, hv, hvb, hrec⟩
      · refine .inr ⟨w, List.mem_cons_self, hle, ?_⟩
        rw [hsame, hone]
        by_cases hm : s.isMatch w p = true
        · refine .inl ⟨if_pos hm, fun _ => ?_⟩
          rw [Search.isMatch, Bool.or_eq_true, decide_eq_true_eq, Bool.and_eq_true, decide_eq_true_eq,
            decide_eq_true_eq] at hm
          exact hm.imp_right And.right
        · refine .inr ⟨if_neg hm, ?_⟩
          rw [Search.isMatch, Bool.or_eq_true, not_or, decide_eq_true_eq, Bool.and_eq_true,
            decide_eq_true_eq, decide_eq_true_eq] at hm
          exact ⟨hm.1, not_le.mp fun hc => hm.2 ⟨h.numTags, hc⟩⟩
      · exact .inr ⟨v, List.mem_cons_of_mem _ hv, fun w' hw' => hvb.trans_le (hle w' hw'),
          .inl ⟨hrec, fun hone => absurd hone hmany⟩⟩
    · have hne : ∀ v, (s.tnfa.final, v) ≠ (k, w) := fun v hv => hk (congrArg Prod.fst hv).symm
      have hfree' : s.tnfa.final ∉ (s.follow pos p k w).states := by
        rw [Progress.states, (follow_cases s pos p k w).1]
        exact fun hc => (mem_keys_keep.mp hc).elim (Ne.symm hk) hfree
      obtain ⟨hEo, hTags⟩ : (s.follow pos p k w).matchEo = p.matchEo ∧
          (s.follow pos p k w).matchTags = p.matchTags :=
        (follow_cases s pos p k w).2.resolve_right fun hc => hk hc.1
      have hrec : (s.follow pos p k w).record = p.record := by
        rw [Progress.record, hEo, hTags]
        rfl
      simp only [List.mem_cons, hne, false_or]
      rw [← hrec, ← hEo, ← hTags]
      exact ih hr' hlen' hfree'

/-! ## Which match is known at a time -/

/-- The matches that begin before `n` have been followed up to a time: for each state that they can be in
a path that begins earliest is held, and a match is known that is the best of those that do not end earlier,
or of all, if there is only one tag. -/
structure Search.Follows (s : Search) (text : List (ℤ × ℕ)) (n t : ℕ) (p : Progress) : Prop where
  reach : ∀ x ∈ p.reachNext, ∃ i < n, s.Path text i t x.1 x.2
  ranked : Ranked begun p.reachNext
  best : ∀ i < n, ∀ q tags, s.Path text i t q tags →
    ∃ x ∈ p.reachNext, x.1 = q ∧ begun x.2 ≤ offset text i
  unmatched : p.matchEo = none → ∀ i < n, ∀ u ≤ t, ∀ tags, ¬ s.Path text i u s.tnfa.final tags
  matched : ∀ eo ∈ p.matchEo, ∃ i < n, ∃ u ≤ t, eo = offset text u ∧
    s.Path text i u s.tnfa.final p.matchTags ∧
    ∀ j < n, ∀ v ≤ t, u ≤ v ∨ s.numTags = 1 → ∀ tags, s.Path text j v s.tnfa.final tags →
      i < j ∨ i = j ∧ v ≤ u

/-- The transitions that match lead on from what is held, in the same order. -/
theorem candidates_ranked (h : s.StartFirst) (hp : Ranked begun p.reachNext) :
    Ranked begun (s.candidatesAt text t p) := by
  rw [Ranked, Search.candidatesAt, Search.candidates, List.pairwise_flatMap]
  constructor
  · intro x _
    rw [List.pairwise_map]
    refine List.pairwise_of_forall_mem_list fun a ha b hb => ?_
    rw [begun_setTags_of_notMem (h.transitions _ _ (List.mem_of_mem_filter ha)),
      begun_setTags_of_notMem (h.transitions _ _ (List.mem_of_mem_filter hb))]
  · refine List.Pairwise.imp ?_ hp
    intro x y hxy a ha b hb
    obtain ⟨tr, htr, rfl⟩ := List.mem_map.mp ha
    obtain ⟨tr', htr', rfl⟩ := List.mem_map.mp hb
    rw [begun_setTags_of_notMem (h.transitions _ _ (List.mem_of_mem_filter htr)),
      begun_setTags_of_notMem (h.transitions _ _ (List.mem_of_mem_filter htr'))]
    exact hxy

section

variable {n : ℕ} (h : s.StartFirst) (hpos : ∀ c ∈ text, 0 < c.2) (hn : n ≤ t + 1)
  (ht : t < text.length) (hp : s.Follows text n t p)

include h ht hp in
/-- A transition that matches is one more step of a path. -/
theorem path_of_follows : ∀ x ∈ s.candidatesAt text t p, ∃ i < n, s.Path text i (t + 1) x.1 x.2 := by
  rintro ⟨k, v⟩ hx
  obtain ⟨y, hy, tr, htr, hmatch, rfl, rfl⟩ := mem_candidates.mp hx
  obtain ⟨i, hi, hpath⟩ := hp.reach y hy
  rw [prevC_take_succ (List.getElem?_eq_getElem ht)] at hmatch
  exact ⟨i, hi, hpath.step htr
    ((fires_iff (h.marked _ _ htr)).mpr ⟨rfl, _, List.getElem?_eq_getElem ht, hmatch⟩)⟩

include h hn hp in
/-- Every step of a path is a transition that matches, from a path that does not begin later. -/
theorem follows_path (hi : i < n) (hpath : s.Path text i (t + 1) q tags) :
    ∃ x ∈ s.candidatesAt text t p, x.1 = q ∧ begun x.2 ≤ offset text i := by
  rcases path_cases h.marked hpath with
    ⟨rfl, -⟩ | ⟨u, tags', hu, -, q', tr, hpath', htr, hfires, rfl, -⟩
  · exact absurd (hi.trans_le hn) (Nat.lt_irrefl _)
  · obtain rfl : t = u := Nat.succ_injective hu
    obtain ⟨-, c, hc, hmatch⟩ := (fires_iff (h.marked _ _ htr)).mp hfires
    obtain ⟨x, hx, rfl, hle⟩ := hp.best i hi q' tags' hpath'
    rw [← prevC_take_succ hc] at hmatch
    refine ⟨_, mem_candidates.mpr ⟨x, hx, tr, htr, hmatch, rfl, rfl⟩, rfl, ?_⟩
    rw [begun_setTags_of_notMem (h.transitions _ _ htr)]
    exact hle

include h hpos hn ht hp in
/-- The match behind a round. -/
theorem match_round :
    (∀ i < n, ∀ tags, ¬ s.Path text i (t + 1) s.tnfa.final tags) ∧
        (s.roundAt text t p).record = p.record ∨
      ∃ i < n, (∀ j < n, ∀ tags, s.Path text j (t + 1) s.tnfa.final tags → i ≤ j) ∧
        ((s.roundAt text t p).matchEo = some (offset text (t + 1)) ∧
            s.Path text i (t + 1) s.tnfa.final (s.roundAt text t p).matchTags ∧
            (s.numTags = 1 → p.matchEo = none ∨ offset text i ≤ begun p.matchTags) ∨
          (s.roundAt text t p).record = p.record ∧ p.matchEo ≠ none ∧
            begun p.matchTags < offset text i) := by
  have hlen : ∀ {i}, i < n → i ≤ text.length := fun hi =>
    (Nat.lt_succ_iff.mp (hi.trans_le hn)).trans ht.le
  have hr : Ranked begun ([] ++ s.candidatesAt text t p) := candidates_ranked h hp.ranked
  have hlength : ∀ x ∈ [] ++ s.candidatesAt text t p, x.2.length = s.numTags := fun x hx => by
    obtain ⟨i, -, hpath⟩ := path_of_follows h ht hp x hx
    exact length_path hpath
  rcases record_fold (p := { p with reachNext := [] }) h (offset text (t + 1)) hr hlength
    List.not_mem_nil with ⟨hnone, hrecord⟩ | ⟨v, hv, hbest, hrecord⟩
  · refine .inl ⟨fun i hi tags hpath => ?_, hrecord⟩
    obtain ⟨⟨k, v⟩, hmem, rfl, -⟩ := follows_path h hn hp hi hpath
    exact hnone v hmem
  · obtain ⟨i, hi, hpath⟩ := path_of_follows h ht hp _ hv
    have hfirst : ∀ j < n, ∀ tags, s.Path text j (t + 1) s.tnfa.final tags → i ≤ j := by
      intro j hj tags hpath'
      obtain ⟨⟨k, w⟩, hmem, rfl, hle⟩ := follows_path h hn hp hj hpath'
      have hvw := (hbest w hmem).trans hle
      rwa [begun_path h hpath, begun_le_iff hpos (hlen hi) (hlen hj)] at hvw
    refine .inr ⟨i, hi, hfirst, ?_⟩
    rcases hrecord with ⟨hrecord, hearly⟩ | ⟨hrecord, hmatch, hlt⟩
    · have htags : (s.roundAt text t p).matchTags = v := congrArg Prod.snd hrecord
      rw [begun_path h hpath] at hearly
      exact .inl ⟨congrArg Prod.fst hrecord, by rwa [htags], hearly⟩
    · exact .inr ⟨hrecord, hmatch, by rwa [begun_path h hpath] at hlt⟩

include h hpos hn ht hp in
theorem follows_round : s.Follows text n (t + 1) (s.roundAt text t p) := by
  have hlen : ∀ {i}, i < n → i ≤ text.length := fun hi =>
    (Nat.lt_succ_iff.mp (hi.trans_le hn)).trans ht.le
  have hr : Ranked begun ([] ++ s.candidatesAt text t p) := candidates_ranked h hp.ranked
  obtain ⟨hranked, hbest⟩ := keepAll_ranked hr fun _ _ => h.wins_le
  rw [← roundAt_reachNext] at hranked hbest
  refine ⟨fun x hx => ?_, hranked, fun i hi q tags hpath => ?_, fun hnone i hi u hu tags hpath => ?_,
    fun eo heo => ?_⟩
  · rw [roundAt_reachNext] at hx
    exact path_of_follows h ht hp x ((of_mem_keepAll hx).resolve_left List.not_mem_nil)
  · obtain ⟨c, hc, rfl, hle⟩ := follows_path h hn hp hi hpath
    obtain ⟨x, hx, hk, hle'⟩ := hbest c hc
    exact ⟨x, hx, hk, hle'.trans hle⟩
  · rcases match_round h hpos hn ht hp with ⟨hfree, hrecord⟩ | ⟨j, hj, -, hmatch⟩
    · rcases Nat.le_succ_iff.mp hu with hu | rfl
      · exact hp.unmatched ((congrArg Prod.fst hrecord).symm.trans hnone) i hi u hu tags hpath
      · exact hfree i hi tags hpath
    · rcases hmatch with ⟨hEo, -⟩ | ⟨hrecord, hmatch, -⟩
      · cases hEo.symm.trans hnone
      · exact hmatch ((congrArg Prod.fst hrecord).symm.trans hnone)
  · rcases match_round h hpos hn ht hp with ⟨hfree, hrecord⟩ | ⟨k, hk, hfirst, hmatch⟩
    · obtain ⟨hEo, hTags⟩ := Prod.mk.inj hrecord
      obtain ⟨i, hi, u, hu, hmatch⟩ := hp.matched eo (hEo ▸ heo)
      rw [← hTags] at hmatch
      obtain ⟨heo, hpath, hlast⟩ := hmatch
      refine ⟨i, hi, u, Nat.le_succ_of_le hu, heo, hpath, fun j hj v hv huv tags hj' => ?_⟩
      rcases Nat.le_succ_iff.mp hv with hv | rfl
      · exact hlast j hj v hv huv tags hj'
      · exact absurd hj' (hfree j hj tags)
    · rcases hmatch with ⟨hEo, hpath, hearly⟩ | ⟨hrecord, -, hlt⟩
      · obtain rfl : offset text (t + 1) = eo := Option.some_inj.mp (hEo.symm.trans heo)
        refine ⟨k, hk, t + 1, Nat.le_refl _, rfl, hpath, fun j hj v hv huv tags hj' => ?_⟩
        rcases Nat.le_succ_iff.mp hv with hv | rfl
        · -- an older match is known, and does not begin earlier
          have hone : s.numTags = 1 := huv.resolve_left (Nat.not_le.mpr (Nat.lt_succ_of_le hv))
          cases hp' : p.matchEo with
          | none => exact absurd hj' (hp.unmatched hp' j hj v hv tags)
          | some eo' =>
            obtain ⟨i, hi, u, -, -, hold, hbest⟩ := hp.matched eo' hp'
            have hle := (hearly hone).resolve_left (by simp [hp'])
            rw [begun_path h hold, begun_le_iff hpos (hlen hk) (hlen hi)] at hle
            have hbest' := hbest j hj v hv (.inr hone) tags hj'
            omega
        · have hle := hfirst j hj tags hj'
          omega
      · -- what comes to the final state begins later than the match that is known
        obtain ⟨hEo, hTags⟩ := Prod.mk.inj hrecord
        obtain ⟨i, hi, u, hu, heo, hpath, hlast⟩ := hp.matched eo (hEo ▸ heo)
        have hik : i < k := by
          rw [begun_path h hpath] at hlt
          exact Nat.lt_of_not_le fun hle =>
            absurd ((begun_le_iff hpos (hlen hk) (hlen hi)).mpr hle) (not_le.mpr hlt)
        rw [← hTags] at hpath
        refine ⟨i, hi, u, Nat.le_succ_of_le hu, heo, hpath, fun j hj v hv huv tags hj' => ?_⟩
        rcases Nat.le_succ_iff.mp hv with hv | rfl
        · exact hlast j hj v hv huv tags hj'
        · exact .inl (hik.trans_le (hfirst j hj tags hj'))

end

/-! ## The initial states -/

section

variable (h : s.StartFirst) (hpos : ∀ c ∈ text, 0 < c.2) (ht : t ≤ text.length)
  (hp : s.Follows text t t p) (hnone : p.matchEo = none) (hb : s.beginAt text t p = some p')

include hb in
theorem reachNext_begin : p.reachNext ⊆ p'.reachNext := by
  refine begin_induction (P := fun q => p.reachNext ⊆ q.reachNext) (List.Subset.refl _) hb
    fun q i _ hq => ?_
  rcases addInitial_cases s (offset text t) (Search.prevC (text.take t))
    (Search.nextC (text.drop t)) q i with hsame | ⟨-, -, hreach, -⟩
  · rwa [hsame.1]
  · rw [hreach]
    exact List.subset_append_of_subset_left _ hq

include h hpos ht hp hb in
/-- The initial states are held behind the other ones, as the matches begin later. -/
theorem held_begin :
    (∀ x ∈ p'.reachNext, ∃ i < t + 1, s.Path text i t x.1 x.2) ∧ Ranked begun p'.reachNext := by
  refine begin_induction (P := fun q =>
    (∀ x ∈ q.reachNext, ∃ i < t + 1, s.Path text i t x.1 x.2) ∧ Ranked begun q.reachNext)
    ⟨fun x hx => ?_, hp.ranked⟩ hb fun q i hi hq => ?_
  · obtain ⟨i, hi, hx⟩ := hp.reach x hx
    exact ⟨i, hi.trans (Nat.lt_succ_self t), hx⟩
  · rcases addInitial_cases s (offset text t) (Search.prevC (text.take t))
      (Search.nextC (text.drop t)) q i with hsame | ⟨hholds, -, hreach, -⟩
    · rwa [hsame.1]
    · have hpath := Search.Path.start hi (checkAssertions_eq_false.mp hholds)
      rw [hreach]
      refine ⟨fun x hx => ?_, List.pairwise_append.mpr ⟨hq.2, List.pairwise_singleton _ _, ?_⟩⟩
      · rcases List.mem_append.mp hx with hx | hx
        · exact hq.1 x hx
        · rw [List.mem_singleton.mp hx]
          exact ⟨t, Nat.lt_succ_self t, hpath⟩
      · intro x hx y hy
        obtain ⟨j, hj, hxj⟩ := hq.1 x hx
        have hle : j ≤ t := Nat.lt_succ_iff.mp hj
        rw [List.mem_singleton.mp hy, begun_path h hxj, begun_path h hpath]
        exact (begun_le_iff hpos (hle.trans ht) ht).mpr hle

include hnone hb in
/-- The first match of all begins and ends here. -/
theorem first_match : ∀ eo ∈ p'.matchEo, eo = offset text t ∧
    s.Path text t t s.tnfa.final p'.matchTags := by
  refine begin_induction (P := fun q => ∀ eo ∈ q.matchEo, eo = offset text t ∧
    s.Path text t t s.tnfa.final q.matchTags) (fun eo heo => by simp [hnone] at heo) hb
    fun q i hi hq => ?_
  rcases addInitial_cases s (offset text t) (Search.prevC (text.take t))
    (Search.nextC (text.drop t)) q i with hsame | ⟨hholds, -, -, hmatch⟩
  · rwa [hsame.1]
  · have hpath := Search.Path.start hi (checkAssertions_eq_false.mp hholds)
    split at hmatch
    · next hfinal =>
      intro eo heo
      rw [hmatch.1] at heo
      rw [hmatch.2, ← hfinal]
      exact ⟨(Option.some_inj.mp heo).symm, hpath⟩
    · rwa [hmatch.1, hmatch.2]

include h hpos ht hp hnone hb in
theorem follows_begin : s.Follows text (t + 1) t p' := by
  obtain ⟨hreach, hranked⟩ := held_begin h hpos ht hp hb
  have hunmatched : s.Unmatched p' := by
    refine begin_induction (fun _ hmem => ?_) hb fun q i _ hq => unmatched_addInitial hq
    obtain ⟨x, hx, hfinal⟩ := List.mem_map.mp hmem
    obtain ⟨i, hi, hpath⟩ := hp.reach x hx
    rw [hfinal] at hpath
    exact hp.unmatched hnone i hi t (Nat.le_refl t) _ hpath
  have hheld : ∀ q tags, s.Path text t t q tags → q ∈ p'.states := by
    intro q tags hpath
    rcases path_cases h.marked hpath with ⟨-, x, hx, hholds, hq⟩ | ⟨u, tags', hu, hle, -⟩
    · exact (states_begin hnone hb).mpr (.inr ⟨x, hx, hholds, hq⟩)
    · omega
  refine ⟨hreach, hranked, fun i hi q tags hpath => ?_, fun hnone' i hi u hu tags hpath => ?_,
    fun eo heo => ?_⟩
  · rcases Nat.lt_succ_iff_lt_or_eq.mp hi with hi | rfl
    · obtain ⟨x, hx, hq, hle⟩ := hp.best i hi q tags hpath
      exact ⟨x, reachNext_begin hb hx, hq, hle⟩
    · obtain ⟨x, hx, rfl⟩ := List.mem_map.mp (hheld q tags hpath)
      obtain ⟨j, hj, hxj⟩ := hreach x hx
      have hle : j ≤ i := Nat.lt_succ_iff.mp hj
      refine ⟨x, hx, rfl, ?_⟩
      rw [begun_path h hxj]
      exact (begun_le_iff hpos (hle.trans ht) ht).mpr hle
  · rcases Nat.lt_succ_iff_lt_or_eq.mp hi with hi | rfl
    · exact hp.unmatched hnone i hi u hu tags hpath
    · obtain rfl : i = u := Nat.le_antisymm (path_le h.marked hpath) hu
      exact hunmatched hnone' (hheld _ tags hpath)
  · obtain ⟨rfl, hpath⟩ := first_match hnone hb eo heo
    refine ⟨t, Nat.lt_succ_self t, t, Nat.le_refl t, rfl, hpath, fun j hj v hv htv tags hj' => ?_⟩
    rcases Nat.lt_succ_iff_lt_or_eq.mp hj with hj | rfl
    · exact absurd hj' (hp.unmatched hnone j hj v hv tags)
    · exact .inr ⟨rfl, hv⟩

end

/-- A path has been in some state at each time before. -/
theorem path_at (hm : s.tnfa.Marked) (hpath : s.Path text i t q tags) (hi : i ≤ u) (hu : u ≤ t) :
    ∃ q' tags', s.Path text i u q' tags' := by
  induction hpath with
  | start hi' hholds =>
    obtain rfl := Nat.le_antisymm hi hu
    exact ⟨_, _, .start hi' hholds⟩
  | @step t v w q tags tr hpath htr hfires ih =>
    obtain ⟨hw, -⟩ := (fires_iff (hm _ _ htr)).mp hfires
    rcases Nat.lt_or_eq_of_le hu with hlt | rfl
    · exact ih hi (by omega)
    · exact ⟨_, _, hpath.step htr hfires⟩

end

/-- **The match that is found is the best of those that do not end earlier**: none of them begins earlier,
and none that begins there is longer.  If there is only one tag, it is the best of all. -/
theorem treTnfaRunParallel_leftmost (s : Search) (string : Str) (h : s.StartFirst) (eo : ℕ)
    (tags : List ℤ) (hr : treTnfaRunParallel s string = some (eo, tags)) :
    let text := (wchars s.loc 0 string).1
    ∃ i u, u ≤ text.length ∧ eo = offset text u ∧ s.Path text i u s.tnfa.final tags ∧
      ∀ j v, v ≤ text.length → s.tnfa.Accepts (s.reading text) j v → u ≤ v ∨ s.numTags = 1 →
        i < j ∨ i = j ∧ v ≤ u := by
  obtain ⟨p, hrun, heo, rfl⟩ := treTnfaRunParallel_eq_some hr
  have hpos : ∀ c ∈ (wchars s.loc 0 string).1, 0 < c.2 := wchars_pos
  generalize (wchars s.loc 0 string).1 = text at *
  have hstart : s.Follows text 0 0 ⟨[], none, []⟩ :=
    ⟨fun x hx => absurd hx List.not_mem_nil, List.Pairwise.nil,
      fun i hi => absurd hi (Nat.not_lt_zero i), fun _ i hi => absurd hi (Nat.not_lt_zero i),
      fun eo heo => by cases heo⟩
  have hrule := rounds_rule
    (I := fun t p => ∃ n ≤ t, (p.matchEo = none → n = t) ∧ s.Follows text n t p)
    (J := fun t p => ∃ n ≤ t + 1, (p.matchEo = none → n = t + 1) ∧ s.Follows text n t p)
    (t := 0) (p := ⟨[], none, []⟩) ?_ ?_ text rfl (Nat.zero_le _)
    ⟨0, Nat.le_refl 0, fun _ => rfl, hstart⟩ hrun
  · -- the matches that have begun by the end, and those that can still come
    have hend : ∃ n t, t ≤ text.length ∧ n ≤ t + 1 ∧ s.Follows text n t p ∧
        (t < text.length → n ≤ t ∧ p.reachNext = []) := by
      rcases hrule with ⟨t, ht, ⟨n, hn, -, hp⟩, hb⟩ | ⟨n, hn, -, hp⟩
      · rw [Search.beginAt, Search.begin, heo, if_neg (by simp)] at hb
        have hempty : p.reachNext = [] := by
          by_contra hne
          rw [if_neg (by simpa [Nat.ne_of_gt h.numTags] using hne)] at hb
          cases hb
        exact ⟨n, t, ht, Nat.le_succ_of_le hn, hp, fun _ => ⟨hn, hempty⟩⟩
      · exact ⟨n, _, Nat.le_refl _, hn, hp, fun hlt => absurd hlt (Nat.lt_irrefl _)⟩
    obtain ⟨n, t, ht, hn, hp, hlast⟩ := hend
    obtain ⟨i, hi, u, hu, rfl, hpath, hbest⟩ := hp.matched _ heo
    refine ⟨i, u, hu.trans ht, rfl, hpath, fun j v hv hacc huv => ?_⟩
    obtain ⟨tags, hj⟩ := accepts_iff_path.mp hacc
    by_cases hjn : j < n
    · by_cases hvt : v ≤ t
      · exact hbest j hjn v hvt huv tags hj
      · obtain ⟨hn', hempty⟩ := hlast ((Nat.lt_of_not_le hvt).trans_le hv)
        obtain ⟨q', tags', hmid⟩ := path_at h.marked hj (hjn.le.trans hn') (Nat.le_of_not_le hvt)
        obtain ⟨_, hmem, -⟩ := hp.best j hjn q' tags' hmid
        rw [hempty] at hmem
        exact absurd hmem List.not_mem_nil
    · exact .inl (hi.trans_le (Nat.le_of_not_lt hjn))
  · rintro t p p' ht ⟨n, hn, hnone, hp⟩ hb
    cases hmatch : p.matchEo with
    | none =>
      obtain rfl := hnone hmatch
      exact ⟨n + 1, Nat.le_refl _, fun _ => rfl, follows_begin h hpos ht hp hmatch hb⟩
    | some eo' =>
      rw [Search.beginAt, Search.begin, hmatch, if_neg (by simp)] at hb
      split at hb
      · cases hb
      · obtain rfl := Option.some_inj.mp hb
        exact ⟨n, Nat.le_succ_of_le hn, fun hc => by simp [hmatch] at hc, hp⟩
  · rintro t p ht ⟨n, hn, hnone, hp⟩
    exact ⟨n, hn, fun hc => hnone (matchEo_round hc), follows_round h hpos hn ht hp⟩

end Tre
end UtilWin
