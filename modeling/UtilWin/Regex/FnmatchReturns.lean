import UtilWin.Regex.FnmatchPath

/-!
# `fnmatch` returns for every string

What `fnmatch` answers is stated for strings of which all bytes are characters.  Whether it answers at
all does not depend on that: for any bytes before the terminator, characters or not, every loop comes
to an end, and no step reads behind a terminator (`fnmatch_ne_none`).  Each round of a loop takes a
byte of the string or of the pattern, because a byte that cannot be decoded counts as one.
-/

namespace UtilWin
namespace Fnmatch

open Glob StarPattern

variable {loc : Locale} {flags : BitVec 32} {pat p q : Str} {m n fuel : ℕ} {c : ℤ} {st : ℕ}
  {is : List (Item Tok)} {s str : Str}

/-- A step in the string that is not at its end takes a byte. -/
theorem strNext_ne_zero (hloc : loc.Utf8OrSingleByte) (h : (strNext loc s).1 ≠ 0) :
    ((strNext loc s).1 = -1 ∨ 0 < (strNext loc s).1) ∧ 1 ≤ (strNext loc s).2 ∧ s ≠ [] := by
  cases s with
  | nil => exact absurd rfl h
  | cons c q =>
    rw [strNext] at h ⊢
    split
    · rename_i hc
      cases hmb : loc.mbtowc (c :: q) with
      | none => exact ⟨Or.inl rfl, Nat.le_refl 1, List.cons_ne_nil _ _⟩
      | some r =>
        obtain ⟨wc, l⟩ := r
        obtain ⟨hwc, hl, -⟩ := hloc.wide _ _ _ _ hc hmb
        exact ⟨Or.inr (by show 0 < wc; omega), hl, List.cons_ne_nil _ _⟩
    · rename_i hc
      rw [if_neg hc] at h
      have h : (c.toNat : ℤ) ≠ 0 := h
      exact ⟨Or.inr (by show 0 < (c.toNat : ℤ); omega), Nat.le_refl 1, List.cons_ne_nil _ _⟩

/-- A comparison always has a result. -/
theorem exists_test_eq (hloc : loc.Utf8OrSingleByte) (h0 : 0 ∉ p) (hw : Whole loc flags p m) (k : ℤ) :
    ∃ v, test loc flags p (patNext loc flags p m).1 k = some v := by
  obtain ⟨c, st, hnext⟩ : ∃ c st, patNext loc flags p m = (c, st) := ⟨_, _, rfl⟩
  rw [hnext]
  by_cases hb : c = codeBracket
  · have hc : IsToken c := by
      rw [hb]
      exact ⟨by decide, by decide⟩
    obtain ⟨-, v, -, hv, -⟩ := exists_test hloc h0 hnext hc (by rw [hb]; decide) (hw.le hnext hc) k
    exact ⟨v, hv⟩
  · unfold test
    exact ⟨_, if_neg hb⟩

/-- The step in the pattern keeps what is known of it, and takes nothing at its end or in front of
what cannot be matched. -/
theorem Whole.next (hloc : loc.Utf8OrSingleByte) (hw : Whole loc flags p m) (h0 : 0 ∉ p) :
    Whole loc flags (p.drop (patNext loc flags p m).2) (m - (patNext loc flags p m).2) ∧
      0 ∉ p.drop (patNext loc flags p m).2 := by
  refine ⟨?_, fun hmem => h0 (List.mem_of_mem_drop hmem)⟩
  obtain ⟨c, st, hnext⟩ : ∃ c st, patNext loc flags p m = (c, st) := ⟨_, _, rfl⟩
  rw [hnext]
  by_cases hc : IsToken c
  · exact hw.upto (.single hnext hc (hw.le hnext hc))
  have hzero : st = 0 := by
    by_cases hun : c = codeUnmatchable
    · exact patNext_unmatchable hloc (hun ▸ hnext)
    have hend : c = codeEnd := by
      unfold IsToken at hc
      tauto
    by_cases hp : p = []
    · rw [hp, patNext_nil] at hnext
      exact (Prod.mk.inj hnext).2.symm
    by_cases hm : m = 0
    · rw [hm, patNext_zero] at hnext
      exact (Prod.mk.inj hnext).2.symm
    · exact absurd (by rw [hnext, hend]) (patNext_ne_end hloc h0 (Nat.pos_of_ne_zero hm) hp)
  subst hzero
  exact hw

/-- The head of the pattern. -/
theorem exists_matchHead (hloc : loc.Utf8OrSingleByte) (hfuel : m < fuel) (h0 : 0 ∉ pat)
    (hw : Whole loc flags pat m) (s : Str) :
    (∃ r, matchHead loc flags fuel pat m s = some (.answer r)) ∨
      ∃ is p n s', matchHead loc flags fuel pat m s = some (.star p n s') ∧
        Upto loc flags pat m is p n := by
  induction fuel generalizing pat m s with
  | zero => omega
  | succ fuel ih =>
    obtain ⟨c, st, hnext⟩ : ∃ c st, patNext loc flags pat m = (c, st) := ⟨_, _, rfl⟩
    obtain ⟨v, hv⟩ := exists_test_eq hloc h0 hw (strNext loc s).1
    rw [matchHead]
    rw [hnext] at hv
    simp only [hnext]
    by_cases hun : c = codeUnmatchable
    · rw [if_pos hun]
      exact Or.inl ⟨_, rfl⟩
    rw [if_neg hun]
    by_cases hstar : c = codeStar
    · rw [if_pos hstar]
      have hc : IsToken c := by
        rw [hstar]
        exact ⟨by decide, by decide⟩
      obtain rfl : st = 1 := patNext_star hloc (hstar ▸ hnext)
      exact Or.inr ⟨_, _, _, s, rfl, .single hnext hc (hw.le hnext hc)⟩
    rw [if_neg hstar]
    by_cases hk : (strNext loc s).1 ≤ 0
    · rw [if_pos hk]
      exact Or.inl ⟨_, rfl⟩
    rw [if_neg hk, hv]
    cases v with
    | false => exact Or.inl ⟨_, rfl⟩
    | true =>
      by_cases hend : c = codeEnd
      · rw [hend, test_end hloc (by omega)] at hv
        cases hv
      have hc : IsToken c := ⟨hend, hun⟩
      have hst := hw.le hnext hc
      have hone := Upto.single hnext hc hst
      obtain ⟨-, -, -, -, -, hpos, -⟩ := patNext_cases hloc hnext hc
      rcases ih (by omega) (fun hmem => h0 (List.mem_of_mem_drop hmem)) (hw.upto hone)
        (s.drop (strNext loc s).2) with ⟨r, hr⟩ | ⟨is, p, n, s', hr, hup⟩
      · exact Or.inl ⟨r, hr⟩
      · exact Or.inr ⟨_, p, n, s', hr, hone.trans hup⟩

/-- The comparison of the tails. -/
theorem matchTail_ne_none (hloc : loc.Utf8OrSingleByte) (hfuel : s.length < fuel) (h0 : 0 ∉ p)
    (hw : Whole loc flags p m) : matchTail loc flags fuel p m s ≠ none := by
  induction fuel generalizing p m s with
  | zero => omega
  | succ fuel ih =>
    obtain ⟨v, hv⟩ := exists_test_eq hloc h0 hw (strNext loc s).1
    rw [matchTail]
    simp only [hv]
    by_cases hk : (strNext loc s).1 ≤ 0
    · rw [if_pos hk]
      exact Option.some_ne_none _
    rw [if_neg hk]
    cases v with
    | false => exact Option.some_ne_none _
    | true =>
      obtain ⟨-, hst, hne⟩ := strNext_ne_zero hloc (by omega : (strNext loc s).1 ≠ 0)
      have := List.length_pos_iff.mpr hne
      obtain ⟨hw', h0'⟩ := hw.next hloc h0
      exact ih (by rw [List.length_drop]; omega) h0' hw'

/-- An attempt at one place. -/
theorem exists_attempt (hloc : loc.Utf8OrSingleByte) (hfuel : s.length < fuel) (h0 : 0 ∉ p)
    (hw : Whole loc flags p m) :
    (∃ p' m' s', attempt loc flags fuel p m s = some (.commit p' m' s') ∧ m' < m ∧
        s'.length ≤ s.length ∧ 0 ∉ p' ∧ Whole loc flags p' m') ∨
      attempt loc flags fuel p m s = some .nomatch ∨
        attempt loc flags fuel p m s = some .fail ∧ s ≠ [] := by
  induction fuel generalizing p m s with
  | zero => omega
  | succ fuel ih =>
    obtain ⟨v, hv⟩ := exists_test_eq hloc h0 hw (strNext loc s).1
    obtain ⟨hw', h0'⟩ := hw.next hloc h0
    rw [attempt]
    simp only [hv]
    by_cases hstar : (patNext loc flags p m).1 = codeStar
    · rw [if_pos hstar]
      have hnext : patNext loc flags p m = (codeStar, (patNext loc flags p m).2) :=
        Prod.ext hstar rfl
      obtain ⟨_, _, n, _, rfl, _⟩ := patNext_cases hloc hnext ⟨by decide, by decide⟩
      have hst := patNext_star hloc hnext
      exact Or.inl ⟨_, _, s, rfl, by omega, Nat.le_refl _, h0', hw'⟩
    rw [if_neg hstar]
    by_cases hk : (strNext loc s).1 = 0
    · rw [if_pos hk]
      exact Or.inr (Or.inl rfl)
    rw [if_neg hk]
    obtain ⟨-, hst, hne⟩ := strNext_ne_zero hloc hk
    cases v with
    | false => exact Or.inr (Or.inr ⟨rfl, hne⟩)
    | true =>
      have hlen := List.length_pos_iff.mpr hne
      have hdrop : (s.drop (strNext loc s).2).length < s.length := by
        rw [List.length_drop]
        omega
      rcases ih (s := s.drop (strNext loc s).2) (by omega) h0' hw' with
        ⟨p', m', s', hr, hm, hs, hp0, hpw⟩ | hr | ⟨hr, -⟩
      · exact Or.inl ⟨p', m', s', hr, by omega, by omega, hp0, hpw⟩
      · exact Or.inr (Or.inl hr)
      · exact Or.inr (Or.inr ⟨hr, hne⟩)

theorem skipInvalid_length (loc : Locale) (s : Str) : (skipInvalid loc s).length ≤ s.length := by
  induction s with
  | nil => exact Nat.le_refl _
  | cons c q ih =>
    rw [skipInvalid]
    split
    · exact ih.trans (Nat.le_succ _)
    · exact Nat.le_refl _

/-- The search for the components. -/
theorem matchSea_ne_none (hloc : loc.Utf8OrSingleByte) (hfuel : m + s.length < fuel) (h0 : 0 ∉ pat)
    (hw : Whole loc flags pat m) : matchSea loc flags fuel pat m s ≠ none := by
  induction fuel generalizing pat m s with
  | zero => omega
  | succ fuel ih =>
    rw [matchSea]
    split
    · exact Option.some_ne_none _
    rcases exists_attempt hloc (Nat.lt_succ_self s.length) h0 hw with
      ⟨p', m', s', hr, hm, hs, hp0, hpw⟩ | hr | ⟨hr, hne⟩
    · rw [hr]
      exact ih (by omega) hp0 hpw
    · rw [hr]
      exact Option.some_ne_none _
    · rw [hr]
      have hlen := List.length_pos_iff.mpr hne
      show (if 0 < (strNext loc s).1 then _ else _) ≠ none
      split
      · obtain ⟨-, hst, -⟩ := strNext_ne_zero hloc (by omega : (strNext loc s).1 ≠ 0)
        exact ih (by rw [List.length_drop]; omega) h0 hw
      · have := skipInvalid_length loc (s.drop 1)
        rw [List.length_drop] at this
        exact ih (by omega) h0 hw

/-- **`fnmatch_internal` returns for every string.** -/
theorem fnmatchInternal_ne_none (hloc : loc.Utf8OrSingleByte) (h0 : 0 ∉ pat) (hle : m ≤ pat.length)
    (hw : Whole loc flags pat m) (s : Str) : fnmatchInternal loc flags pat m s ≠ none := by
  unfold fnmatchInternal
  split
  · exact Option.some_ne_none _
  rcases exists_matchHead hloc (Nat.lt_succ_self m) h0 hw s with ⟨r, hr⟩ | ⟨is, p, n, s', hr, hup⟩
  · rw [hr]
    exact Option.some_ne_none _
  rw [hr]
  have hlen := hup.length_eq hle
  show matchStars loc flags p (min n p.length) s' ≠ none
  rw [Nat.min_eq_left (by omega)]
  have hp0 := hup.notMem h0
  have hpw := hw.upto hup
  unfold matchStars
  rcases scanTail_spec (l := []) hloc (Nat.lt_succ_self n) hp0 (by omega) hpw .refl (Or.inl rfl)
    .refl with ⟨hscan, -⟩ | ⟨sea, ts, pt, mt, hscan, hsea, -, -⟩
  · rw [List.length_nil] at hscan
    rw [hscan]
    exact Option.some_ne_none _
  rw [List.length_nil] at hscan
  rw [hscan]
  show (if s'.length < ts.length then _ else _) ≠ none
  split
  · exact Option.some_ne_none _
  show (if (walkBack loc s' ts.length s'.length).2 ≠ 0 then _ else _) ≠ none
  split
  · exact Option.some_ne_none _
  cases htail : matchTail loc flags (s'.length + 1) pt mt
      (s'.drop (walkBack loc s' ts.length s'.length).1) with
  | none =>
    exact absurd htail (matchTail_ne_none hloc
      (by rw [List.length_drop]; omega) (hsea.notMem hp0) (hpw.upto hsea))
  | some v =>
    cases v with
    | false => exact Option.some_ne_none _
    | true =>
      refine matchSea_ne_none hloc ?_ hp0 (hsea.whole hloc)
      rw [List.length_take]
      omega

/-- A component is matched where it stands. -/
theorem component_ne_none (hloc : loc.Utf8OrSingleByte) (h0 : 0 ∉ pat)
    (hup : Upto loc flags pat pat.length is p p.length) (s : Str) :
    fnmatchInternal loc flags pat (pat.length - p.length) s ≠ none :=
  fnmatchInternal_ne_none hloc h0 (Nat.sub_le _ _) (hup.whole hloc) s

/-- The loop over the components of a pattern that can be read. -/
theorem matchPath_ne_none (hloc : loc.Utf8OrSingleByte) (hfuel : pat.length < fuel) (h0 : 0 ∉ pat)
    (hup : Upto loc flags pat pat.length is q q.length)
    (hend : (patNext loc flags q q.length).1 = codeEnd) (s : Str) :
    matchPath loc flags fuel pat s ≠ none := by
  induction fuel generalizing pat is s with
  | zero => omega
  | succ fuel ih =>
    have hround : ∀ {cs : List (Item Tok)} {p c st}, Upto loc flags pat pat.length cs p p.length →
        patComponent loc flags (pat.length + 1) pat = some (c, p, st) →
        (c ≠ codeEnd → ∀ s', matchPath loc flags fuel (p.drop st) s' ≠ none) →
        matchPath loc flags (fuel + 1) pat s ≠ none := by
      intro cs p c st hcs hfound hrest
      rw [matchPath, hfound]
      show (if _ then _ else _) ≠ none
      split
      · exact Option.some_ne_none _
      cases hr : fnmatchInternal loc flags pat (pat.length - p.length)
          (s.takeWhile (· ≠ slash)) with
      | none => exact absurd hr (component_ne_none hloc h0 hcs _)
      | some r =>
        show (if r ≠ 0 then _ else _) ≠ none
        split
        · exact Option.some_ne_none _
        split
        · exact Option.some_ne_none _
        · exact hrest ‹_› _
    cases hany : is.any isSlash with
    | false =>
      have hno : ∀ i ∈ is, isSlash i = false := by simpa using List.any_eq_false.mp hany
      exact hround hup (patComponent_found hloc hup hno (Prod.ext hend rfl) (Or.inl rfl))
        fun hne => absurd rfl hne
    | true =>
      obtain ⟨i, rest, hi, his, -, hno⟩ := exists_split_of_any hany
      generalize List.takeWhile (fun x => !isSlash x) is = comp at his hno
      subst his
      obtain ⟨p, n, hcomp, hrest⟩ := hup.split
      obtain ⟨c, st, hnext, hc, hst, rfl, hrest'⟩ := hrest.cons_cases
      obtain rfl : c = (slash.toNat : ℤ) := isSlash_itemOf.mp hi
      have hlen := hcomp.length_eq (Nat.le_refl _)
      obtain rfl : n = p.length := by omega
      have hle := hcomp.le
      have hpos : 1 ≤ st := by
        obtain ⟨-, -, -, -, -, hpos, -⟩ := patNext_cases hloc hnext hc
        exact hpos
      rw [← List.length_drop] at hrest'
      exact hround hcomp (patComponent_found hloc hcomp hno hnext (Or.inr rfl)) fun _ s' =>
        ih (by rw [List.length_drop]; omega)
          (fun hmem => hcomp.notMem h0 (List.mem_of_mem_drop hmem)) hrest' s'

/-- The loop over the leading parts. -/
theorem matchLeading_ne_none (hloc : loc.Utf8OrSingleByte) (h0 : 0 ∉ pat) (d : ℕ) (s : Str) :
    matchLeading loc flags pat str d s ≠ none := by
  induction s generalizing d with
  | nil => exact Option.some_ne_none _
  | cons c s ih =>
    rw [matchLeading]
    split
    · exact ih _
    cases hr : fnmatchInternal loc flags pat pat.length (str.take d) with
    | none =>
      exact absurd hr (fnmatchInternal_ne_none hloc h0 (Nat.le_refl _) (whole_length hloc pat) _)
    | some r =>
      show (if r = 0 then _ else _) ≠ none
      split
      · exact Option.some_ne_none _
      · exact ih _

/-- **`fnmatch` returns for every string, and reads behind no terminator**, whether or not the bytes
of the string are characters; only a pattern that cannot be read may keep it, with `FNM_PATHNAME`. -/
theorem fnmatch_ne_none (hloc : loc.Utf8OrSingleByte) (h0 : 0 ∉ pat)
    (hread : has flags fnmPathname = true → ∃ is, Reads loc flags pat pat.length is) (s : Str) :
    fnmatch loc flags pat s ≠ none := by
  have hinternal : fnmatchInternal loc flags pat pat.length s ≠ none :=
    fnmatchInternal_ne_none hloc h0 (Nat.le_refl _) (whole_length hloc pat) s
  unfold fnmatch
  split
  · rename_i hpath
    obtain ⟨is, q, n, hup, hend⟩ := hread hpath
    have hn := hup.length_eq (Nat.le_refl _)
    obtain rfl : n = q.length := by omega
    exact matchPath_ne_none hloc (Nat.lt_succ_self _) h0 hup hend s
  split
  · cases hr : matchLeading loc flags pat s 0 s with
    | none => exact absurd hr (matchLeading_ne_none hloc h0 0 s)
    | some v =>
      cases v with
      | true => exact Option.some_ne_none _
      | false => exact hinternal
  · exact hinternal

/-- The pattern `*a`, and a string that is not a character. -/
theorem fnmatch_ne_none_invalid : fnmatch ascii 0 [0x2a, 0x61] [0xff] ≠ none :=
  fnmatch_ne_none ascii_utf8OrSingleByte (by decide) (fun h => absurd h (by decide)) [0xff]

end Fnmatch
end UtilWin
