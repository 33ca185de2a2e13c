import UtilWin.Regex.FnmatchMatches

/-!
# Matching a path

With `FNM_PATHNAME` both the pattern and the string are cut at each `/`, and the parts are matched one
by one; with `FNM_LEADING_DIR` the string may go on behind what the pattern has matched
(`fnmatch_answers`).

The loop that looks for the next `/` of the pattern steps over each token by its length, and the length
of a token that cannot be matched is `0`.  So a pattern with an undecodable byte is not always answered
with `FNM_NOMATCH`, as it is without `FNM_PATHNAME`: as soon as the loop enters the component of that
byte it does not come to an end (`fnmatch_eq_none_iff`).
-/

namespace UtilWin
namespace Fnmatch

open Glob StarPattern

variable {loc : Locale} {flags : BitVec 32} {pat p q : Str} {m n fuel : ℕ} {c : ℤ} {st : ℕ}
  {is js : List (Item Tok)} {s : Str} {k : ℤ} {ks : List ℤ}

/-- An item that stands for `/`. -/
def isSlash : Item Tok → Bool
  | .one (.lit c _) => c = (slash.toNat : ℤ)
  | _ => false

/-- The character `/`. -/
def isSlashChar (k : ℤ) : Bool := k = (slash.toNat : ℤ)

theorem isSlash_itemOf : isSlash (itemOf pat c st) = true ↔ c = (slash.toNat : ℤ) := by
  unfold itemOf
  split_ifs with h1 h2 h3
  · rw [h1]
    decide
  · rw [h2]
    decide
  · rw [h3]
    exact iff_of_false (by simp [isSlash]) (by decide)
  · rw [isSlash, decide_eq_true_eq]

/-! ## The components of the string -/

/-- The character `/` is the byte `/`. -/
theorem strNext_slash (hloc : loc.Utf8OrSingleByte) (h : strNext loc s = (k, st)) (hk : 0 < k) :
    (isSlashChar k = false ∧ slash ∉ s.take st) ∨
      (k = (slash.toNat : ℤ) ∧ st = 1 ∧ ∃ t, s = slash :: t) := by
  cases s with
  | nil =>
    rw [strNext_nil, Prod.mk.injEq] at h
    omega
  | cons c t =>
    rw [strNext] at h
    split at h
    · rename_i hc
      split at h
      · rw [Prod.mk.injEq] at h
        omega
      · rename_i wc l hmb
        obtain ⟨rfl, rfl⟩ := Prod.mk.inj h
        refine Or.inl ⟨decide_eq_false ?_, fun hmem => ?_⟩
        · rintro rfl
          exact absurd (hloc.wide _ _ _ _ hc hmb).1 (by decide)
        · exact absurd (hloc.ge_of_mem hc hmb _ hmem) (by decide)
    · obtain ⟨rfl, rfl⟩ := Prod.mk.inj h
      by_cases hslash : c = slash
      · exact Or.inr ⟨by rw [hslash], rfl, t, by rw [hslash]⟩
      · refine Or.inl ⟨decide_eq_false fun heq => hslash ?_, fun hmem => ?_⟩
        · exact UInt8.toNat_inj.mp (Int.ofNat_inj.mp heq)
        · exact hslash (List.mem_singleton.mp hmem).symm

/-- A `/` in the string is a character of it. -/
theorem Decodes.slash_cases (hloc : loc.Utf8OrSingleByte) (h : Decodes loc s ks) :
    (slash ∉ s ∧ ∀ k ∈ ks, isSlashChar k = false) ∨
      ∃ a b ka kb, s = a ++ slash :: b ∧ ks = ka ++ (slash.toNat : ℤ) :: kb ∧ slash ∉ a ∧
        (∀ k ∈ ka, isSlashChar k = false) ∧ Decodes loc a ka ∧ Decodes loc b kb := by
  induction h with
  | nil => exact Or.inl ⟨by simp, by simp⟩
  | @cons s k st ks hs hk hrest ih =>
    obtain ⟨hst, hle, -, hown⟩ := strNext_pos hloc hs hk
    rcases strNext_slash hloc hs hk with ⟨hk47, hmem⟩ | ⟨rfl, rfl, t, rfl⟩
    · rcases ih with ⟨hno, hks⟩ | ⟨a, b, ka, kb, hab, rfl, ha, hka, hda, hdb⟩
      · refine Or.inl ⟨?_, List.forall_mem_cons.mpr ⟨hk47, hks⟩⟩
        rw [← List.take_append_drop st s, List.mem_append]
        exact not_or.mpr ⟨hmem, hno⟩
      · refine Or.inr ⟨s.take st ++ a, b, k :: ka, kb, ?_, rfl, ?_,
          List.forall_mem_cons.mpr ⟨hk47, hka⟩, ?_, hdb⟩
        · rw [List.append_assoc, ← hab, List.take_append_drop]
        · rw [List.mem_append]
          exact not_or.mpr ⟨hmem, ha⟩
        · refine .cons (hown _ (List.prefix_append _ _)) hk ?_
          rw [List.drop_append_of_le_length (by rw [List.length_take]; omega),
            List.drop_take, Nat.sub_self, List.take_zero]
          exact hda
    · exact Or.inr ⟨[], t, [], ks, rfl, rfl, by simp, by simp, .nil, hrest⟩

/-! ## The components of the pattern -/

/-- Reading has come to the end of the pattern, or to what cannot be matched. -/
def Stops (loc : Locale) (flags : BitVec 32) (q : Str) (n : ℕ) (c : ℤ) : Prop :=
  (patNext loc flags q n).1 = c ∧ (c = codeEnd ∨ c = codeUnmatchable)

/-- Every pattern is read to its end, or to what cannot be matched. -/
theorem exists_stops (hloc : loc.Utf8OrSingleByte) (flags : BitVec 32) (pat : Str) :
    ∃ is q c, Upto loc flags pat pat.length is q q.length ∧ Stops loc flags q q.length c := by
  induction hl : pat.length using Nat.strong_induction_on generalizing pat with
  | _ l ih =>
    subst hl
    obtain ⟨c, st, hnext⟩ : ∃ c st, patNext loc flags pat pat.length = (c, st) := ⟨_, _, rfl⟩
    by_cases hc : IsToken c
    · obtain ⟨-, -, -, -, -, hpos, -⟩ := patNext_cases hloc hnext hc
      have hst := patNext_le_length hloc hnext hc
      obtain ⟨is, q, d, hup, hstop⟩ := ih (pat.drop st).length
        (by rw [List.length_drop]; omega) (pat.drop st) rfl
      rw [List.length_drop] at hup
      exact ⟨_, q, d, .step hnext hc hst hup, hstop⟩
    · refine ⟨[], pat, c, .refl, by rw [hnext], ?_⟩
      unfold IsToken at hc
      tauto

theorem patChar_unmatchable (hloc : loc.Utf8OrSingleByte) {step esc : ℕ} (hm : 0 < m)
    (h : patChar loc p m step esc = (codeUnmatchable, st)) : st = 0 := by
  cases p with
  | nil => exact absurd (Prod.mk.inj h).1 (by decide)
  | cons a t =>
    rw [patChar] at h
    split at h
    · rename_i ha
      split at h
      · exact (Prod.mk.inj h).2.symm
      · rename_i wc k hmb
        obtain ⟨m, rfl⟩ : ∃ i, m = i + 1 := ⟨m - 1, by omega⟩
        have hwide := (hloc.wide _ _ _ _ ha (List.take_succ_cons ▸ hmb)).1
        rw [(Prod.mk.inj h).1] at hwide
        exact absurd hwide (by decide)
    · have := (Prod.mk.inj h).1
      rw [codeUnmatchable] at this
      omega

/-- What cannot be matched has no length. -/
theorem patNext_unmatchable (hloc : loc.Utf8OrSingleByte)
    (h : patNext loc flags pat m = (codeUnmatchable, st)) : st = 0 := by
  cases pat with
  | nil => exact absurd (Prod.mk.inj ((patNext_nil m).symm.trans h)).1 (by decide)
  | cons a q =>
    cases m with
    | zero => exact absurd (Prod.mk.inj ((patNext_zero _).symm.trans h)).1 (by decide)
    | succ n =>
      rw [patNext_cons] at h
      split at h
      · exact patChar_unmatchable hloc (Nat.succ_pos n) h
      split at h
      · split at h
        · exact absurd (Prod.mk.inj h).1 (by decide)
        · exact absurd (Prod.mk.inj h).1 (by decide)
      split at h
      · exact absurd (Prod.mk.inj h).1 (by decide)
      split at h
      · exact absurd (Prod.mk.inj h).1 (by decide)
      · exact patChar_unmatchable hloc (Nat.succ_pos n) h

/-- The loop over the pattern passes over the tokens that are not `/`. -/
theorem patComponent_upto (hup : Upto loc flags pat m is p n) (hm : m = pat.length)
    (hno : ∀ i ∈ is, isSlash i = false) :
    patComponent loc flags (fuel + is.length) pat = patComponent loc flags fuel p := by
  induction hup with
  | refl => rfl
  | @step pat m c st is p n hnext hc hst _ ih =>
    subst hm
    obtain ⟨hi, hno⟩ := List.forall_mem_cons.mp hno
    have hslash : c ≠ (slash.toNat : ℤ) := fun h => by
      rw [isSlash_itemOf.mpr h] at hi
      cases hi
    rw [List.length_cons, ← Nat.add_assoc, patComponent]
    simp only [hnext]
    rw [if_neg (not_or.mpr ⟨hc.1, hslash⟩)]
    exact ih (List.length_drop ..).symm hno

/-- The loop over the pattern ends at the first `/`, or at the end. -/
theorem patComponent_found (hloc : loc.Utf8OrSingleByte) (hup : Upto loc flags pat pat.length is p p.length)
    (hno : ∀ i ∈ is, isSlash i = false) (hnext : patNext loc flags p p.length = (c, st))
    (hc : c = codeEnd ∨ c = (slash.toNat : ℤ)) :
    patComponent loc flags (pat.length + 1) pat = some (c, p, st) := by
  have hlen := hup.length_le hloc
  obtain ⟨d, hd⟩ : ∃ d, pat.length + 1 = d + 1 + is.length := ⟨pat.length - is.length, by omega⟩
  rw [hd, patComponent_upto hup rfl hno, patComponent]
  simp only [hnext]
  rw [if_pos hc]

/-- In front of what cannot be matched the loop stands still. -/
theorem patComponent_stuck (hloc : loc.Utf8OrSingleByte) (h : Stops loc flags p p.length codeUnmatchable)
    (fuel : ℕ) : patComponent loc flags fuel p = none := by
  induction fuel with
  | zero => rfl
  | succ fuel ih =>
    obtain ⟨c, st, hnext⟩ : ∃ c st, patNext loc flags p p.length = (c, st) := ⟨_, _, rfl⟩
    have hc : c = codeUnmatchable := by rw [← h.1, hnext]
    subst hc
    obtain rfl := patNext_unmatchable hloc hnext
    rw [patComponent]
    simp only [hnext]
    rw [if_neg (by decide), List.drop_zero]
    exact ih

/-! ## Paths -/

/-- The components of the pattern match those of the string one by one, up to the last one of the
pattern for `FNM_LEADING_DIR`. -/
def PathMatches (loc : Locale) (flags : BitVec 32) (cs : List (List (Item Tok)))
    (ss : List (List ℤ)) : Prop :=
  List.Forall₂ (Component loc flags) cs (if has flags fnmLeadingDir then ss.take cs.length else ss)

/-- The components before the last one match, and the string has as many components. -/
def Reached (loc : Locale) (flags : BitVec 32) (cs : List (List (Item Tok)))
    (ss : List (List ℤ)) : Prop :=
  cs.length ≤ ss.length ∧ List.Forall₂ (Component loc flags) cs.dropLast (ss.take (cs.length - 1))

/-- What is expected of the loop for a pattern that is read up to a stop with the code `c`. -/
def Verdict (loc : Locale) (flags : BitVec 32) (c : ℤ) (o : Option ℕ)
    (cs : List (List (Item Tok))) (ss : List (List ℤ)) : Prop :=
  if c = codeEnd then Answers o (PathMatches loc flags cs ss)
  else (Reached loc flags cs ss → o = none) ∧
    (¬Reached loc flags cs ss → o = some fnmNomatch)

section

variable {cs : List (List (Item Tok))} {ss : List (List ℤ)} {comp : List (Item Tok)} {ka : List ℤ}
  {o : Option ℕ}

/-- What does not match is not reached either. -/
theorem Verdict.no (h : ¬PathMatches loc flags cs ss) (h' : ¬Reached loc flags cs ss) :
    Verdict loc flags c (some fnmNomatch) cs ss := by
  unfold Verdict
  split
  · exact .no rfl h
  · exact ⟨fun hr => absurd hr h', fun _ => rfl⟩

theorem pathMatches_cons : PathMatches loc flags (comp :: cs) (ka :: ss) ↔
    Component loc flags comp ka ∧ PathMatches loc flags cs ss := by
  unfold PathMatches
  split
  · rw [List.length_cons, List.take_succ_cons, List.forall₂_cons]
  · rw [List.forall₂_cons]

theorem reached_cons (hcs : cs ≠ []) : Reached loc flags (comp :: cs) (ka :: ss) ↔
    Component loc flags comp ka ∧ Reached loc flags cs ss := by
  cases cs with
  | nil => exact absurd rfl hcs
  | cons d cs =>
    unfold Reached
    rw [List.dropLast_cons_cons]
    simp only [List.length_cons, Nat.add_sub_cancel, List.take_succ_cons, List.forall₂_cons,
      Nat.succ_le_succ_iff]
    tauto

/-- A component more of the pattern than of the string. -/
theorem Verdict.short (hcs : cs ≠ []) :
    Verdict loc flags c (some fnmNomatch) (comp :: cs) [ka] := by
  refine .no (fun h => ?_) fun h => ?_
  · have := (pathMatches_cons.mp h).2
    cases cs with
    | nil => exact hcs rfl
    | cons d cs =>
      unfold PathMatches at this
      split at this <;> cases this
  · have := ((reached_cons hcs).mp h).2.1
    cases cs with
    | nil => exact hcs rfl
    | cons d cs => exact absurd this (by simp)

theorem Verdict.mismatch (hcs : cs ≠ []) (h : ¬Component loc flags comp ka) :
    Verdict loc flags c (some fnmNomatch) (comp :: cs) (ka :: ss) :=
  .no (fun hp => h (pathMatches_cons.mp hp).1) fun hr => h ((reached_cons hcs).mp hr).1

theorem Verdict.step (hcs : cs ≠ []) (h : Component loc flags comp ka)
    (hv : Verdict loc flags c o cs ss) : Verdict loc flags c o (comp :: cs) (ka :: ss) := by
  unfold Verdict at hv ⊢
  simp only [pathMatches_cons, reached_cons hcs, h, true_and]
  exact hv

end

/-- A component is matched where it stands. -/
theorem component_answers (hloc : loc.Utf8OrSingleByte) (h0 : 0 ∉ pat)
    (hup : Upto loc flags pat pat.length is p p.length)
    (hnext : patNext loc flags p p.length = (c, st)) (hc : c = codeEnd ∨ c = (slash.toNat : ℤ))
    (hs : Decodes loc s ks) :
    Answers (fnmatchInternal loc flags pat (pat.length - p.length) s)
      (Component loc flags is ks) := by
  have hcut := hup.shorter hloc (Nat.le_refl _)
  rw [Nat.sub_self] at hcut
  have hreads : Reads loc flags pat (pat.length - p.length) is :=
    ⟨p, 0, hcut, by rw [patNext_zero]⟩
  have hperiod : pat.length - p.length = 0 → pat.head? ≠ some period := by
    intro hm hhead
    have hpat : p = pat := by rw [hup.drop_eq, hm, List.drop_zero]
    subst hpat
    cases p with
    | nil => cases hhead
    | cons a q =>
      have ha : a = period := Option.some_inj.mp hhead
      subst ha
      rw [List.length_cons, patNext_period] at hnext
      rw [← (Prod.mk.inj hnext).1] at hc
      exact absurd hc (by decide)
  refine (fnmatchInternal_answers hloc h0 (Nat.sub_le _ _) hperiod (hup.whole hloc) hs).congr ?_
  constructor
  · rintro ⟨js, hjs, hcomp⟩
    rwa [hjs.unique hreads] at hcomp
  · exact fun hcomp => ⟨is, hreads, hcomp⟩

theorem pathMatches_nil {ss : List (List ℤ)} :
    PathMatches loc flags [] ss ↔ has flags fnmLeadingDir = true ∨ ss = [] := by
  unfold PathMatches
  split
  · rename_i h
    simp [h]
  · rename_i h
    rw [List.forall₂_nil_left_iff]
    simp [h]

theorem takeWhile_slash {a b : Str} (ha : slash ∉ a) :
    (a ++ slash :: b).takeWhile (· ≠ slash) = a ∧
      (a ++ slash :: b).dropWhile (· ≠ slash) = slash :: b := by
  have hall : ∀ x ∈ a, decide (x ≠ slash) = true := fun x hx =>
    decide_eq_true fun h => ha (h ▸ hx)
  rw [List.takeWhile_append_of_pos hall, List.dropWhile_append_of_pos hall]
  exact ⟨by simp, rfl⟩

theorem takeWhile_noSlash {a : Str} (ha : slash ∉ a) :
    a.takeWhile (· ≠ slash) = a ∧ a.dropWhile (· ≠ slash) = [] := by
  have hall : ∀ x ∈ a, decide (x ≠ slash) = true := fun x hx =>
    decide_eq_true fun h => ha (h ▸ hx)
  exact ⟨List.takeWhile_eq_self_iff.mpr hall, List.dropWhile_eq_nil_iff.mpr hall⟩

/-- **The loop over the components.** -/
theorem matchPath_verdict (hloc : loc.Utf8OrSingleByte) (hfuel : pat.length < fuel) (h0 : 0 ∉ pat)
    (hup : Upto loc flags pat pat.length is q q.length) (hstop : Stops loc flags q q.length c)
    (hs : Decodes loc s ks) :
    Verdict loc flags c (matchPath loc flags fuel pat s) (is.splitOnP isSlash)
      (ks.splitOnP isSlashChar) := by
  induction fuel generalizing pat is s ks with
  | zero => omega
  | succ fuel ih =>
    rw [matchPath]
    cases hany : is.any isSlash with
    | false =>
      have hno : ∀ i ∈ is, isSlash i = false := by simpa using List.any_eq_false.mp hany
      rw [List.splitOnP_eq_singleton hno]
      rcases hstop.2 with rfl | rfl
      · -- the last component
        obtain ⟨st, hnext⟩ : ∃ st, patNext loc flags q q.length = (codeEnd, st) :=
          ⟨_, Prod.ext hstop.1 rfl⟩
        rw [patComponent_found hloc hup hno hnext (Or.inl rfl)]
        rw [Verdict, if_pos rfl]
        rcases hs.slash_cases hloc with ⟨hslash, hks⟩ |
          ⟨a, b, ka, kb, rfl, rfl, ha, hka, hda, hdb⟩
        · obtain ⟨htake, hdrop⟩ := takeWhile_noSlash hslash
          rw [List.splitOnP_eq_singleton hks]
          simp only [htake, hdrop]
          rw [if_neg (fun h => h.1 rfl)]
          have hcomp := component_answers hloc h0 hup hnext (Or.inl rfl) hs
          have hiff : PathMatches loc flags [is] [ks] ↔ Component loc flags is ks := by
            rw [pathMatches_cons, pathMatches_nil]
            simp
          rw [hiff]
          exact ⟨fun h => by rw [hcomp.1 h]; rfl, fun h => by rw [hcomp.2 h]; rfl⟩
        · obtain ⟨htake, hdrop⟩ := takeWhile_slash (b := b) ha
          rw [List.splitOnP_append_cons_of_forall_mem hka _ (decide_eq_true rfl)]
          simp only [htake, hdrop]
          have hne : List.splitOnP isSlashChar kb ≠ [] := List.splitOnP_ne_nil _ _
          cases hlead : has flags fnmLeadingDir with
          | false =>
            rw [if_pos ⟨fun h => absurd h (by decide : codeEnd ≠ (slash.toNat : ℤ)), Or.inr rfl⟩]
            refine .no rfl fun h => ?_
            rcases pathMatches_nil.mp (pathMatches_cons.mp h).2 with h | h
            · rw [hlead] at h
              cases h
            · exact hne h
          | true =>
            rw [if_neg (fun h => h.2.elim (fun h => by cases h) fun h => by cases h)]
            have hcomp := component_answers hloc h0 hup hnext (Or.inl rfl) hda
            have hiff : PathMatches loc flags [is] (ka :: List.splitOnP isSlashChar kb) ↔
                Component loc flags is ka := by
              rw [pathMatches_cons, pathMatches_nil]
              simp [hlead]
            rw [hiff]
            exact ⟨fun h => by rw [hcomp.1 h]; rfl, fun h => by rw [hcomp.2 h]; rfl⟩
      · -- the component of what cannot be matched
        have hlen := hup.length_le hloc
        obtain ⟨d, hd⟩ : ∃ d, pat.length + 1 = d + is.length := ⟨pat.length + 1 - is.length, by omega⟩
        rw [hd, patComponent_upto hup rfl hno, patComponent_stuck hloc hstop]
        rw [Verdict, if_neg (by decide)]
        refine ⟨fun _ => rfl, fun hnot => absurd ⟨?_, .nil⟩ hnot⟩
        exact List.length_pos_iff.mpr (List.splitOnP_ne_nil _ _)
    | true =>
      obtain ⟨i, rest, hi, his, -, hno⟩ := exists_split_of_any hany
      generalize List.takeWhile (fun x => !isSlash x) is = comp at his hno
      subst his
      rw [List.splitOnP_append_cons_of_forall_mem hno _ hi]
      obtain ⟨p, n, hcomp, hrest⟩ := hup.split
      obtain ⟨c', inc, hnext, hc', hinc, rfl, hrest'⟩ := hrest.cons_cases
      obtain rfl : c' = (slash.toNat : ℤ) := isSlash_itemOf.mp hi
      have hlen := hcomp.length_eq (Nat.le_refl _)
      obtain rfl : n = p.length := by omega
      rw [patComponent_found hloc hcomp hno hnext (Or.inr rfl)]
      have hne : List.splitOnP isSlash rest ≠ [] := List.splitOnP_ne_nil _ _
      rcases hs.slash_cases hloc with ⟨hslash, hks⟩ |
        ⟨a, b, ka, kb, rfl, rfl, ha, hka, hda, hdb⟩
      · obtain ⟨htake, hdrop⟩ := takeWhile_noSlash hslash
        rw [List.splitOnP_eq_singleton hks]
        simp only [hdrop]
        rw [if_pos ⟨fun h => absurd h (by decide : (slash.toNat : ℤ) ≠ (([] : Str).headD 0).toNat),
          Or.inl trivial⟩]
        exact .short hne
      · obtain ⟨htake, hdrop⟩ := takeWhile_slash (b := b) ha
        rw [List.splitOnP_append_cons_of_forall_mem hka _ (decide_eq_true rfl)]
        simp only [htake, hdrop]
        rw [if_neg (fun h => h.1 rfl)]
        have hans := component_answers hloc h0 hcomp hnext (Or.inr rfl) hda
        by_cases hC : Component loc flags comp ka
        · have hpos : 1 ≤ inc := by
            obtain ⟨-, -, -, -, -, hpos, -⟩ := patNext_cases hloc hnext hc'
            exact hpos
          rw [← List.length_drop] at hrest'
          rw [hans.1 hC]
          show Verdict loc flags c (matchPath loc flags fuel (p.drop inc) b) _ _
          have := hcomp.le
          refine .step hne hC (ih ?_ ?_ hrest' hdb)
          · rw [List.length_drop]
            omega
          · exact fun hmem => hcomp.notMem h0 (List.mem_of_mem_drop hmem)
        · rw [hans.2 hC]
          exact .mismatch hne hC

/-! ## Leading directories -/

/-- The loop goes on byte by byte where there is no `/`. -/
theorem matchLeading_skip {e : Str} (he : slash ∉ e) (str : Str) (d : ℕ) :
    matchLeading loc flags pat str d (e ++ s) = matchLeading loc flags pat str (d + e.length) s := by
  induction e generalizing d with
  | nil => rfl
  | cons c e ih =>
    obtain ⟨hc, he⟩ := not_or.mp (List.mem_cons.not.mp he)
    rw [List.cons_append, matchLeading, if_pos (Ne.symm hc), ih he, List.length_cons,
      Nat.add_right_comm, Nat.add_assoc]

/-- **The loop over the leading parts.** -/
theorem matchLeading_spec (hloc : loc.Utf8OrSingleByte) {P : List ℤ → Prop} {str x : Str} {z : List ℤ}
    (hP : ∀ t kt, Decodes loc t kt →
      Answers (fnmatchInternal loc flags pat pat.length t) (P kt))
    (hstr : str = x ++ s) (hx : ∀ t kt, Decodes loc t kt → Decodes loc (x ++ t) (z ++ kt))
    (hs : Decodes loc s ks) :
    ∃ v, matchLeading loc flags pat str x.length s = some v ∧
      (v = true ↔ ∃ n, ks[n]? = some (slash.toNat : ℤ) ∧ P (z ++ ks.take n)) := by
  induction hs generalizing x z with
  | nil => exact ⟨false, rfl, by simp⟩
  | @cons s k st ks hs hk hrest ih =>
    obtain ⟨hst, hle, -, hown⟩ := strNext_pos hloc hs hk
    -- the rest, with the character behind what is done
    have hx' : ∀ t kt, Decodes loc t kt → Decodes loc ((x ++ s.take st) ++ t) ((z ++ [k]) ++ kt) := by
      intro t kt ht
      rw [List.append_assoc, List.append_assoc]
      refine hx _ _ (.cons (hown _ (List.prefix_append _ _)) hk ?_)
      rw [List.drop_append_of_le_length (by rw [List.length_take]; omega),
        List.drop_take, Nat.sub_self, List.take_zero]
      exact ht
    have hstr' : str = (x ++ s.take st) ++ s.drop st := by
      rw [List.append_assoc, List.take_append_drop, hstr]
    obtain ⟨v, hv, hiff⟩ := ih hstr' hx'
    have hlen : (x ++ s.take st).length = x.length + (s.take st).length := List.length_append
    have hshift : (∃ n, (k :: ks)[n + 1]? = some (slash.toNat : ℤ) ∧
        P (z ++ (k :: ks).take (n + 1))) ↔ v = true := by
      rw [hiff]
      simp only [List.getElem?_cons_succ, List.take_succ_cons, List.append_assoc,
        List.singleton_append]
    rcases strNext_slash hloc hs hk with ⟨hk47, hmem⟩ | ⟨rfl, rfl, t, rfl⟩
    · refine ⟨v, ?_, ?_⟩
      · rw [← List.take_append_drop st s, matchLeading_skip hmem, ← hlen]
        exact hv
      · rw [← hshift]
        constructor
        · rintro ⟨n, hn⟩
          exact ⟨n + 1, hn⟩
        · rintro ⟨n, hn, hp⟩
          cases n with
          | zero =>
            rw [List.getElem?_cons_zero, Option.some_inj] at hn
            exact absurd (decide_eq_true hn) (by rw [← isSlashChar, hk47]; decide)
          | succ n => exact ⟨n, hn, hp⟩
    · rw [matchLeading, if_neg (fun h => h rfl), hstr, List.take_left]
      have hans := hP x z (by simpa using hx [] [] .nil)
      by_cases hp : P z
      · rw [hans.1 hp]
        exact ⟨true, rfl, iff_of_true rfl ⟨0, rfl, by simpa using hp⟩⟩
      · rw [hans.2 hp]
        refine ⟨v, ?_, ?_⟩
        · rw [← hstr, ← hv, hlen]
          rfl
        · rw [← hshift]
          constructor
          · rintro ⟨n, hn⟩
            exact ⟨n + 1, hn⟩
          · rintro ⟨n, hn, hpn⟩
            cases n with
            | zero => exact absurd (by simpa using hpn) hp
            | succ n => exact ⟨n, hn, hpn⟩

/-! ## The whole -/

/-- **What a pattern accepts**, by its items and the characters of the string. -/
def Accepts (loc : Locale) (flags : BitVec 32) (is : List (Item Tok)) (ks : List ℤ) : Prop :=
  if has flags fnmPathname then
    PathMatches loc flags (is.splitOnP isSlash) (ks.splitOnP isSlashChar)
  else Component loc flags is ks ∨
    has flags fnmLeadingDir = true ∧
      ∃ n, ks[n]? = some (slash.toNat : ℤ) ∧ Component loc flags is (ks.take n)

/-- **`fnmatch` answers whether the pattern accepts the string.** -/
theorem fnmatch_answers (hloc : loc.Utf8OrSingleByte) (h0 : 0 ∉ pat) (hs : Decodes loc s ks)
    (hread : has flags fnmPathname = true → ∃ is, Reads loc flags pat pat.length is) :
    Answers (fnmatch loc flags pat s)
      (∃ is, Reads loc flags pat pat.length is ∧ Accepts loc flags is ks) := by
  have hinternal : ∀ t kt, Decodes loc t kt →
      Answers (fnmatchInternal loc flags pat pat.length t)
        (∃ is, Reads loc flags pat pat.length is ∧ Component loc flags is kt) := fun t kt ht =>
    fnmatchInternal_answers hloc h0 (Nat.le_refl _)
      (fun h => by rw [List.length_eq_zero_iff.mp h]; simp) (whole_length hloc pat) ht
  unfold fnmatch Accepts
  cases hpath : has flags fnmPathname with
  | true =>
    rw [if_pos rfl]
    obtain ⟨is, hreads⟩ := hread hpath
    obtain ⟨q, n, hup, hend⟩ := hreads
    have hn := hup.length_eq (Nat.le_refl _)
    obtain rfl : n = q.length := by omega
    have hv := matchPath_verdict hloc (Nat.lt_succ_self _) h0 hup ⟨hend, Or.inl rfl⟩ hs
    rw [Verdict, if_pos rfl] at hv
    refine hv.congr ?_
    simp only [if_true]
    constructor
    · exact fun h => ⟨is, ⟨q, _, hup, hend⟩, h⟩
    · rintro ⟨js, hjs, h⟩
      rwa [hjs.unique ⟨q, _, hup, hend⟩] at h
  | false =>
    rw [if_neg (by decide)]
    simp only [Bool.false_eq_true, if_false]
    cases hlead : has flags fnmLeadingDir with
    | false =>
      simp only [Bool.false_eq_true, if_false, false_and, or_false]
      exact hinternal s ks hs
    | true =>
      simp only [if_true, true_and]
      obtain ⟨v, hv, hiff⟩ := matchLeading_spec hloc (x := []) (z := []) hinternal rfl
        (fun t kt ht => ht) hs
      have hsplit : (∃ is, Reads loc flags pat pat.length is ∧ (Component loc flags is ks ∨
          ∃ n, ks[n]? = some (slash.toNat : ℤ) ∧ Component loc flags is (ks.take n))) ↔
          (∃ is, Reads loc flags pat pat.length is ∧ Component loc flags is ks) ∨ v = true := by
        rw [hiff]
        constructor
        · rintro ⟨is, hr, hc | ⟨n, hn, hc⟩⟩
          · exact Or.inl ⟨is, hr, hc⟩
          · exact Or.inr ⟨n, hn, is, hr, hc⟩
        · rintro (⟨is, hr, hc⟩ | ⟨n, hn, is, hr, hc⟩)
          · exact ⟨is, hr, Or.inl hc⟩
          · exact ⟨is, hr, Or.inr ⟨n, hn, hc⟩⟩
      rw [List.length_nil, List.nil_append] at hv
      rw [hv]
      cases v with
      | true => exact .yes rfl (hsplit.mpr (Or.inr rfl))
      | false =>
        refine (hinternal s ks hs).congr (hsplit.trans ?_).symm
        exact or_iff_left (by decide)

/-- The pattern `a*` and the string `ab`. -/
theorem fnmatch_answers_star :
    Answers (fnmatch ascii 0 [0x61, 0x2a] [0x61, 0x62])
      (∃ is, Reads ascii 0 [0x61, 0x2a] 2 is ∧ Accepts ascii 0 is [0x61, 0x62]) :=
  fnmatch_answers ascii_utf8OrSingleByte (by decide) (decodes_ascii [0x61, 0x62] rfl)
    (fun h => absurd h (by decide))

/-- **With `FNM_PATHNAME` `fnmatch` does not come to an end** exactly if the pattern cannot be read,
the components before the one that cannot be read match, and the string has as many. -/
theorem fnmatch_eq_none_iff (hloc : loc.Utf8OrSingleByte) (h0 : 0 ∉ pat) (hs : Decodes loc s ks) :
    fnmatch loc flags pat s = none ↔
      has flags fnmPathname = true ∧ ∃ is q, Upto loc flags pat pat.length is q q.length ∧
        (patNext loc flags q q.length).1 = codeUnmatchable ∧
          Reached loc flags (is.splitOnP isSlash) (ks.splitOnP isSlashChar) := by
  cases hpath : has flags fnmPathname with
  | false =>
    refine iff_of_false ?_ (fun h => by cases h.1)
    exact (fnmatch_answers hloc h0 hs (by simp [hpath])).ne_none
  | true =>
    have hdef : fnmatch loc flags pat s = matchPath loc flags (pat.length + 1) pat s := by
      rw [fnmatch, if_pos hpath]
    rw [hdef]
    constructor
    · intro hnone
      obtain ⟨is, q, c, hup, hstop⟩ := exists_stops hloc flags pat
      have hv := matchPath_verdict hloc (Nat.lt_succ_self _) h0 hup hstop hs
      rcases hstop.2 with rfl | rfl
      · rw [Verdict, if_pos rfl] at hv
        exact absurd hnone hv.ne_none
      · rw [Verdict, if_neg (by decide)] at hv
        refine ⟨rfl, is, q, hup, hstop.1, ?_⟩
        by_contra hnot
        rw [hv.2 hnot] at hnone
        cases hnone
    · rintro ⟨-, is, q, hup, hun, hreached⟩
      have hv := matchPath_verdict hloc (Nat.lt_succ_self _) h0 hup ⟨hun, Or.inr rfl⟩ hs
      rw [Verdict, if_neg (by decide)] at hv
      exact hv.1 hreached

/-- The pattern `/` and an undecodable byte, and the string `/a`. -/
theorem fnmatch_eq_none_iff_undecodable :
    fnmatch ascii fnmPathname [0x2f, 0xff] [0x2f, 0x61] = none :=
  (fnmatch_eq_none_iff ascii_utf8OrSingleByte (by decide) (decodes_ascii [0x2f, 0x61] rfl)).mpr
    ⟨by decide, [.one (.lit 0x2f true)], [0xff],
      .step (by decide : patNext ascii fnmPathname [0x2f, 0xff] 2 = (0x2f, 1))
        ⟨by decide, by decide⟩ (by decide) .refl, by decide, by
      rw [Reached]
      refine ⟨by decide, ?_⟩
      show List.Forall₂ (Component ascii fnmPathname) [[]] [[]]
      exact .cons ⟨fun h => absurd h.1 (by decide), .nil⟩ .nil⟩

end Fnmatch
end UtilWin
