import UtilWin.Library.StarPattern
import UtilWin.Regex.Brackets

/-!
# The tokens of a pattern

Every token that `pat_next` finds is delimited by its own bytes (`patNext_shorter`): it does not matter
whether the pattern goes on behind it.  So reading a part of a pattern that ends between two tokens
gives the tokens it has in the whole pattern (`Upto.shorter`), which is what the search for the
components and the loop over a path rely on.
-/

namespace UtilWin
namespace Fnmatch

open Glob StarPattern

variable {loc : Locale} {flags : BitVec 32}

/-! ## The next token -/

/-- What `pat_next` reports of a token, other than the end and what cannot be matched. -/
def IsToken (c : ℤ) : Prop := c ≠ codeEnd ∧ c ≠ codeUnmatchable

theorem patNext_nil (m : ℕ) : patNext loc flags [] m = (codeEnd, 0) := by
  rw [patNext, List.take_nil]

theorem patNext_zero (pat : Str) : patNext loc flags pat 0 = (codeEnd, 0) := by
  rw [patNext, List.take_zero]

theorem patNext_cons (c : UInt8) (q : Str) (n : ℕ) :
    patNext loc flags (c :: q) (n + 1) =
      if c = backslash ∧ q ≠ [] ∧ !has flags fnmNoescape then patChar loc q (n + 1) 2 1
      else if c = bracketOpen then
        match bracketScan none ((q.take n).drop (bracketSkip (q.take n))) with
        | none => ((bracketOpen.toNat : ℤ), 1)
        | some j => (codeBracket, 1 + bracketSkip (q.take n) + j + 1)
      else if c = star then (codeStar, 1)
      else if c = question then (codeQuestion, 1)
      else patChar loc (c :: q) (n + 1) 1 0 := rfl

/-- A character of a pattern is an ASCII byte or is decoded. -/
theorem patChar_cases (hloc : loc.Utf8OrSingleByte) {p : Str} {m step esc : ℕ} {c : ℤ} {st : ℕ}
    (hm : 0 < m) (h : patChar loc p m step esc = (c, st)) (hc : IsToken c) :
    ∃ a q, p = a :: q ∧
      ((a < 128 ∧ c = a.toNat ∧ st = step ∧ 0 < c) ∨
        ∃ k, 128 ≤ a ∧ loc.mbtowc (p.take m) = some (c, k) ∧ st = k + esc ∧ 1 ≤ k ∧
          k ≤ p.length ∧ 128 ≤ c) := by
  cases p with
  | nil =>
    rw [patChar, Prod.mk.injEq] at h
    exact absurd h.1.symm hc.1
  | cons a q =>
    refine ⟨a, q, rfl, ?_⟩
    rw [patChar] at h
    split at h
    · rename_i ha
      split at h
      · rw [Prod.mk.injEq] at h
        exact absurd h.1.symm hc.2
      · rename_i wc k hmb
        obtain ⟨rfl, rfl⟩ := Prod.mk.inj h
        obtain ⟨m, rfl⟩ : ∃ n, m = n + 1 := ⟨m - 1, by omega⟩
        rw [List.take_succ_cons] at hmb
        obtain ⟨hwc, hk, hlen⟩ := hloc.wide _ _ _ _ ha hmb
        rw [List.length_take] at hlen
        exact Or.inr ⟨k, ha, hmb, rfl, hk, by rw [List.length_cons]; omega, hwc⟩
    · rename_i ha
      obtain ⟨rfl, rfl⟩ := Prod.mk.inj h
      refine Or.inl ⟨UInt8.not_le.mp ha, rfl, rfl, ?_⟩
      have : (a.toNat : ℤ) ≠ 0 := hc.1
      omega

/-- **What `pat_next` finds.** -/
theorem patNext_cases (hloc : loc.Utf8OrSingleByte) {pat : Str} {m : ℕ} {c : ℤ} {st : ℕ}
    (h : patNext loc flags pat m = (c, st)) (hc : IsToken c) :
    ∃ a q n, pat = a :: q ∧ m = n + 1 ∧ 1 ≤ st ∧
      ((c = codeStar ∧ st = 1) ∨ (c = codeQuestion ∧ st = 1) ∨ (0 < c ∧ st ≤ pat.length) ∨
        (c = codeBracket ∧ a = bracketOpen ∧ ∃ j,
          bracketScan none ((q.take n).drop (bracketSkip (q.take n))) = some j ∧
            st = 1 + bracketSkip (q.take n) + j + 1)) := by
  cases pat with
  | nil =>
    rw [patNext_nil, Prod.mk.injEq] at h
    exact absurd h.1.symm hc.1
  | cons a q =>
    cases m with
    | zero =>
      rw [patNext_zero, Prod.mk.injEq] at h
      exact absurd h.1.symm hc.1
    | succ n =>
      refine ⟨a, q, n, rfl, rfl, ?_⟩
      rw [patNext_cons] at h
      split at h
      · obtain ⟨b, r, rfl, hcase⟩ := patChar_cases hloc (Nat.succ_pos n) h hc
        rw [List.length_cons, List.length_cons]
        rcases hcase with ⟨-, -, rfl, hpos⟩ | ⟨k, -, -, rfl, hk, hlen, hwc⟩
        · exact ⟨by omega, Or.inr (Or.inr (Or.inl ⟨hpos, by omega⟩))⟩
        · rw [List.length_cons] at hlen
          exact ⟨by omega, Or.inr (Or.inr (Or.inl ⟨by omega, by omega⟩))⟩
      split at h
      · rename_i hopen
        split at h
        · obtain ⟨rfl, rfl⟩ := Prod.mk.inj h
          exact ⟨Nat.le_refl 1, Or.inr (Or.inr (Or.inl ⟨by decide, Nat.succ_pos _⟩))⟩
        · rename_i j hj
          obtain ⟨rfl, rfl⟩ := Prod.mk.inj h
          exact ⟨by omega, Or.inr (Or.inr (Or.inr ⟨rfl, hopen, j, hj, rfl⟩))⟩
      split at h
      · obtain ⟨rfl, rfl⟩ := Prod.mk.inj h
        exact ⟨Nat.le_refl 1, Or.inl ⟨rfl, rfl⟩⟩
      split at h
      · obtain ⟨rfl, rfl⟩ := Prod.mk.inj h
        exact ⟨Nat.le_refl 1, Or.inr (Or.inl ⟨rfl, rfl⟩)⟩
      · obtain ⟨b, r, hbr, hcase⟩ := patChar_cases hloc (Nat.succ_pos n) h hc
        rcases hcase with ⟨-, -, rfl, hpos⟩ | ⟨k, -, -, rfl, hk, hlen, hwc⟩
        · exact ⟨Nat.le_refl 1, Or.inr (Or.inr (Or.inl ⟨hpos, Nat.succ_pos _⟩))⟩
        · exact ⟨by omega, Or.inr (Or.inr (Or.inl ⟨by omega, by omega⟩))⟩

theorem patChar_shorter (hloc : loc.Utf8OrSingleByte) {p : Str} {m m₀ step esc : ℕ} {c : ℤ} {st : ℕ}
    (hm : 0 < m) (h : patChar loc p m step esc = (c, st)) (hc : IsToken c) (hst : st ≤ m₀)
    (hle : m₀ ≤ m) : patChar loc p m₀ step esc = (c, st) := by
  obtain ⟨a, q, rfl, ⟨ha, hca, hsa, -⟩ | ⟨k, ha, hmb, hk, -⟩⟩ := patChar_cases hloc hm h hc
  · rw [patChar, if_neg (UInt8.not_le.mpr ha), ← hca, ← hsa]
  · have hmb : loc.mbtowc ((a :: q).take m₀) = some (c, k) := by
      refine hloc.own _ _ _ _ hmb ?_
      rw [List.take_take, Nat.min_eq_left (by omega)]
      exact List.take_prefix_take_left (by omega)
    rw [patChar, if_pos ha, hmb, hk]

/-- **A token is delimited by its own bytes**: it is found as well when the pattern is cut anywhere
behind it. -/
theorem patNext_shorter (hloc : loc.Utf8OrSingleByte) {pat : Str} {m m₀ : ℕ} {c : ℤ} {st : ℕ}
    (h : patNext loc flags pat m = (c, st)) (hc : IsToken c) (hst : st ≤ m₀) (hle : m₀ ≤ m) :
    patNext loc flags pat m₀ = (c, st) := by
  obtain ⟨a, q, n, rfl, rfl, hpos, -⟩ := patNext_cases hloc h hc
  obtain ⟨n₀, rfl⟩ : ∃ n₀, m₀ = n₀ + 1 := ⟨m₀ - 1, by omega⟩
  have hagree : ∀ i ≤ n₀, Agree i (q.take n₀) (q.take n) := by
    intro i hi
    rw [Agree, List.take_take, List.take_take, Nat.min_eq_left hi, Nat.min_eq_left (by omega)]
  rw [patNext_cons] at h ⊢
  split at h
  · rw [if_pos ‹_›]
    exact patChar_shorter hloc (Nat.succ_pos n) h hc hst hle
  rw [if_neg ‹_›]
  split at h
  · rw [if_pos ‹_›]
    cases hj : bracketScan none ((q.take n).drop (bracketSkip (q.take n))) with
    | some j =>
      rw [hj] at h
      obtain ⟨rfl, rfl⟩ := Prod.mk.inj h
      have hskip : bracketSkip (q.take n₀) = bracketSkip (q.take n) :=
        bracketSkip_agree (hagree _ (by omega))
      have hscan : bracketScan none ((q.take n₀).drop (bracketSkip (q.take n))) = some j :=
        bracketScan_stable hj ((hagree _ (by omega)).drop _)
      rw [hskip, hscan]
    | none =>
      rw [hj] at h
      cases hj₀ : bracketScan none ((q.take n₀).drop (bracketSkip (q.take n₀))) with
      | none => exact h
      | some j =>
        -- a `]` in the shorter pattern is there in the longer one
        obtain ⟨hlen, -⟩ := List.getElem?_eq_some_iff.mp (getElem?_of_bracketScan hj₀)
        rw [List.length_drop] at hlen
        have hlen₀ := List.length_take_le n₀ q
        have hskip := bracketSkip_agree (hagree (bracketSkip (q.take n₀) + 1) (by omega)).symm
        have hscan := bracketScan_stable hj₀
          ((hagree (bracketSkip (q.take n₀) + (j + 1)) (by omega)).symm.drop _)
        rw [hskip, hscan] at hj
        cases hj
  rw [if_neg ‹_›]
  split at h
  · rw [if_pos ‹_›, h]
  rw [if_neg ‹_›]
  split at h
  · rw [if_pos ‹_›, h]
  rw [if_neg ‹_›]
  exact patChar_shorter hloc (Nat.succ_pos n) h hc hst hle

/-- A token of a pattern that goes to the terminator is inside the pattern. -/
theorem patNext_le_length (hloc : loc.Utf8OrSingleByte) {pat : Str} {m : ℕ} {c : ℤ} {st : ℕ}
    (h : patNext loc flags pat m = (c, st)) (hc : IsToken c) : st ≤ pat.length := by
  obtain ⟨a, q, n, rfl, rfl, -, ⟨-, rfl⟩ | ⟨-, rfl⟩ | ⟨-, hle⟩ | ⟨-, -, j, hj, rfl⟩⟩ :=
    patNext_cases hloc h hc
  · exact Nat.succ_pos _
  · exact Nat.succ_pos _
  · exact hle
  · obtain ⟨hlen, -⟩ := List.getElem?_eq_some_iff.mp (getElem?_of_bracketScan hj)
    rw [List.length_drop, List.length_take] at hlen
    rw [List.length_cons]
    omega

/-! ## Reading a pattern -/

/-- A token that stands for one character: a character, and whether it is written without a
backslash; any character; the bytes of a bracket expression. -/
inductive Tok where
  | lit (c : ℤ) (plain : Bool)
  | any
  | set (b : Str)
  deriving DecidableEq

/-- The item for what `pat_next` reports. -/
def itemOf (pat : Str) (c : ℤ) (st : ℕ) : Item Tok :=
  if c = codeStar then .star
  else if c = codeQuestion then .one .any
  else if c = codeBracket then .one (.set (pat.take st))
  else .one (.lit c (pat.head? ≠ some backslash))

/-- Reading the items leads from the pattern `pat` of length `m` to the pattern `p` of length `n`. -/
inductive Upto (loc : Locale) (flags : BitVec 32) : Str → ℕ → List (Item Tok) → Str → ℕ → Prop
  | refl {pat m} : Upto loc flags pat m [] pat m
  | step {pat m c st is p n} : patNext loc flags pat m = (c, st) → IsToken c → st ≤ m →
      Upto loc flags (pat.drop st) (m - st) is p n →
      Upto loc flags pat m (itemOf pat c st :: is) p n

/-- The items of a pattern. -/
def Reads (loc : Locale) (flags : BitVec 32) (pat : Str) (m : ℕ) (is : List (Item Tok)) : Prop :=
  ∃ p n, Upto loc flags pat m is p n ∧ (patNext loc flags p n).1 = codeEnd

variable {pat p p' : Str} {m n n' st : ℕ} {c : ℤ} {is js : List (Item Tok)}

theorem Upto.le (h : Upto loc flags pat m is p n) : n ≤ m := by
  induction h with
  | refl => exact Nat.le_refl _
  | step _ _ _ _ ih => omega

theorem Upto.drop_eq (h : Upto loc flags pat m is p n) : p = pat.drop (m - n) := by
  induction h with
  | refl => rw [Nat.sub_self, List.drop_zero]
  | step _ _ hst hrest ih =>
    have := hrest.le
    rw [ih, List.drop_drop]
    congr 1
    omega

theorem Upto.notMem (h : Upto loc flags pat m is p n) (h0 : 0 ∉ pat) : 0 ∉ p := by
  rw [h.drop_eq]
  exact fun hmem => h0 (List.mem_of_mem_drop hmem)

theorem Upto.trans (h : Upto loc flags pat m is p n) (h' : Upto loc flags p n js p' n') :
    Upto loc flags pat m (is ++ js) p' n' := by
  induction h with
  | refl => exact h'
  | step hnext hc hst _ ih => exact .step hnext hc hst (ih h')

theorem Upto.single (h : patNext loc flags pat m = (c, st)) (hc : IsToken c) (hst : st ≤ m) :
    Upto loc flags pat m [itemOf pat c st] (pat.drop st) (m - st) := .step h hc hst .refl

/-- What is read first. -/
theorem Upto.cons_cases {i : Item Tok} (h : Upto loc flags pat m (i :: is) p n) :
    ∃ c st, patNext loc flags pat m = (c, st) ∧ IsToken c ∧ st ≤ m ∧ i = itemOf pat c st ∧
      Upto loc flags (pat.drop st) (m - st) is p n := by
  cases h with
  | step hnext hc hst hrest => exact ⟨_, _, hnext, hc, hst, rfl, hrest⟩

theorem Upto.split (h : Upto loc flags pat m (is ++ js) p n) :
    ∃ q k, Upto loc flags pat m is q k ∧ Upto loc flags q k js p n := by
  induction is generalizing pat m with
  | nil => exact ⟨pat, m, .refl, h⟩
  | cons i is ih =>
    obtain ⟨c, st, hnext, hc, hst, rfl, hrest⟩ := h.cons_cases
    obtain ⟨q, k, hq, hk⟩ := ih hrest
    exact ⟨q, k, .step hnext hc hst hq, hk⟩

/-- **A pattern that ends between two tokens has the tokens it has in the whole pattern.** -/
theorem Upto.shorter (hloc : loc.Utf8OrSingleByte) {d : ℕ} (h : Upto loc flags pat m is p n)
    (hd : d ≤ n) :
    Upto loc flags pat (m - d) is p (n - d) := by
  induction h with
  | refl => exact .refl
  | step hnext hc hst hrest ih =>
    have := hrest.le
    refine .step (patNext_shorter hloc hnext hc (by omega) (Nat.sub_le _ _)) hc (by omega) ?_
    rw [Nat.sub_right_comm]
    exact ih hd

/-- No token goes beyond the length of the pattern. -/
def Whole (loc : Locale) (flags : BitVec 32) (pat : Str) (m : ℕ) : Prop :=
  ∀ is p n c st, Upto loc flags pat m is p n → patNext loc flags p n = (c, st) → IsToken c → st ≤ n

theorem Whole.upto (hw : Whole loc flags pat m) (h : Upto loc flags pat m is p n) :
    Whole loc flags p n :=
  fun _ _ _ _ _ h' hnext hc => hw _ _ _ _ _ (h.trans h') hnext hc

theorem Whole.le (hw : Whole loc flags pat m) (h : patNext loc flags pat m = (c, st))
    (hc : IsToken c) : st ≤ m := hw _ _ _ _ _ .refl h hc

theorem Upto.length_eq (h : Upto loc flags pat m is p n) (hm : m ≤ pat.length) :
    p.length + m = pat.length + n := by
  have := h.le
  rw [h.drop_eq, List.length_drop]
  omega

/-- No token goes beyond the terminator. -/
theorem whole_length (hloc : loc.Utf8OrSingleByte) (pat : Str) : Whole loc flags pat pat.length := by
  intro is p n c st h hnext hc
  have := h.length_eq (Nat.le_refl _)
  have := patNext_le_length hloc hnext hc
  omega

/-- No token goes beyond a place between two tokens. -/
theorem Upto.whole (hloc : loc.Utf8OrSingleByte) (h : Upto loc flags pat m is p n) :
    Whole loc flags pat (m - n) := by
  induction h with
  | refl =>
    intro is q k c st h hnext hc
    have := h.le
    rw [Nat.sub_self] at this
    rw [Nat.le_zero.mp this, patNext_zero] at hnext
    exact absurd (Prod.mk.inj hnext).1.symm hc.1
  | @step pat m c st is p n hnext hc hst hrest ih =>
    intro js q k d sd h hd hdc
    have hle := hrest.le
    have hcut := patNext_shorter hloc hnext hc (by omega : st ≤ m - n) (Nat.sub_le _ _)
    cases h with
    | refl =>
      rw [hcut] at hd
      obtain ⟨rfl, rfl⟩ := Prod.mk.inj hd
      omega
    | step hnext' hc' hst' hrest' =>
      rw [hcut] at hnext'
      obtain ⟨rfl, rfl⟩ := Prod.mk.inj hnext'
      rw [Nat.sub_right_comm] at hrest'
      exact ih _ _ _ _ _ hrest' hd hdc

theorem reads_of_end (h : (patNext loc flags pat m).1 = codeEnd) :
    Reads loc flags pat m is ↔ is = [] := by
  constructor
  · rintro ⟨p, n, hup, -⟩
    cases is with
    | nil => rfl
    | cons i is =>
      obtain ⟨c, st, hnext, hc, -⟩ := hup.cons_cases
      rw [hnext] at h
      exact absurd h hc.1
  · rintro rfl
    exact ⟨pat, m, .refl, h⟩

theorem not_reads_of_unmatchable (h : (patNext loc flags pat m).1 = codeUnmatchable) :
    ¬Reads loc flags pat m is := by
  rintro ⟨p, n, hup, hend⟩
  cases hup with
  | refl =>
    rw [h] at hend
    exact absurd hend (by decide)
  | step hnext hc =>
    rw [hnext] at h
    exact hc.2 h

theorem reads_of_token (h : patNext loc flags pat m = (c, st)) (hc : IsToken c) (hst : st ≤ m) :
    Reads loc flags pat m is ↔
      ∃ js, is = itemOf pat c st :: js ∧ Reads loc flags (pat.drop st) (m - st) js := by
  constructor
  · rintro ⟨p, n, hup, hend⟩
    cases hup with
    | refl =>
      rw [h] at hend
      exact absurd hend hc.1
    | step hnext hc' hst' hrest =>
      rw [h] at hnext
      obtain ⟨rfl, rfl⟩ := Prod.mk.inj hnext
      exact ⟨_, rfl, p, n, hrest, hend⟩
  · rintro ⟨js, rfl, p, n, hup, hend⟩
    exact ⟨p, n, .step h hc hst hup, hend⟩

/-- A pattern reads in one way. -/
theorem Reads.unique (h : Reads loc flags pat m is) (h' : Reads loc flags pat m js) : is = js := by
  obtain ⟨p, n, hup, hend⟩ := h
  induction hup generalizing js with
  | refl => exact ((reads_of_end hend).mp h').symm
  | step hnext hc hst _ ih =>
    obtain ⟨ks, rfl, hks⟩ := (reads_of_token hnext hc hst).mp h'
    rw [ih hks hend]

/-- Reading on from a place between two tokens. -/
theorem Upto.reads (h : Upto loc flags pat m is p n) :
    Reads loc flags p n js → Reads loc flags pat m (is ++ js) := by
  rintro ⟨q, k, hup, hend⟩
  exact ⟨q, k, h.trans hup, hend⟩

end Fnmatch
end UtilWin
