import UtilWin.Regex.Drive
import UtilWin.Regex.FnmatchPath

/-!
# How `glob` tests a name

`glob` does not ask `fnmatch` about every entry.  A component without wildcards, by `is_literal`, is
compared with the name byte by byte.  This is no different: on such a component `fnmatch` accepts the
component itself and nothing else (`literal_iff`), as long as no character has two encodings.  So a
name is accepted exactly if the component, read as a pattern, accepts its characters, whichever of the
two ways `glob` takes (`acceptsName_iff`).
-/

namespace UtilWin
namespace Fnmatch

open Glob StarPattern

variable {loc : Locale} {flags : BitVec 32} {p q s u : Str} {c : UInt8} {k : ℤ} {ks : List ℤ}
  {is : List (Item Tok)} {useesc br : Bool} {i st : ℕ}

/-! ## Literal components -/

/-- Behind a `[` a literal has no `]`. -/
theorem notMem_of_isLiteralFrom (h : isLiteralFrom useesc true q = true) : bracketClose ∉ q := by
  induction q with
  | nil => simp
  | cons c q ih =>
    rw [isLiteralFrom] at h
    have hrest : c ≠ bracketClose ∧ isLiteralFrom useesc true q = true := by
      split_ifs at h with h1 h2 h3 h4 h5
      · exact ⟨by rw [h1]; decide, h⟩
      · exact ⟨by rw [h4]; decide, h⟩
      · exact absurd rfl ‹¬true = true›
      · exact ⟨h5, h⟩
    rw [List.mem_cons, not_or]
    exact ⟨Ne.symm hrest.1, ih hrest.2⟩

/-- Bytes that are not ASCII do not change whether a component is literal. -/
theorem isLiteralFrom_drop (h : isLiteralFrom useesc br q = true) (hq : ∀ b ∈ q.take i, 128 ≤ b) :
    isLiteralFrom useesc br (q.drop i) = true := by
  induction i generalizing q with
  | zero => exact h
  | succ i ih =>
    cases q with
    | nil => exact h
    | cons c q =>
      rw [List.take_succ_cons, List.forall_mem_cons] at hq
      obtain ⟨hc, hq⟩ := hq
      have hne : ∀ d : UInt8, d < 128 → c ≠ d := fun d hd h => absurd (h ▸ hd) (UInt8.not_lt.mpr hc)
      rw [isLiteralFrom, if_neg (hne _ (by decide)),
        if_neg (not_or.mpr ⟨hne _ (by decide), hne _ (by decide)⟩), if_neg (hne _ (by decide)),
        if_neg (hne _ (by decide))] at h
      exact ih h hq

/-- **The next token of a literal is the next character of it**, and the rest is a literal. -/
theorem literal_next (hloc : loc.Utf8OrSingleByte) (hesc : has flags fnmNoescape = !useesc)
    (h : isLiteralFrom useesc br (c :: q) = true) :
    (∃ k st, patNext loc flags (c :: q) (q.length + 1) = (k, st) ∧
        strNext loc (c :: q) = (k, st) ∧ 0 ≤ k ∧
        ∃ br', isLiteralFrom useesc br' ((c :: q).drop st) = true) ∨
      ((patNext loc flags (c :: q) (q.length + 1)).1 = codeUnmatchable ∧
        (strNext loc (c :: q)).1 = -1) := by
  have hescape : ¬(c = backslash ∧ q ≠ [] ∧ !has flags fnmNoescape) := by
    rintro ⟨rfl, -, hno⟩
    rw [hesc, Bool.not_not] at hno
    rw [isLiteralFrom, if_pos rfl, hno] at h
    cases h
  rw [patNext_cons, if_neg hescape, List.take_length]
  by_cases hopen : c = bracketOpen
  · subst hopen
    have hrest : isLiteralFrom useesc true q = true := h
    have hscan : bracketScan none (q.drop (bracketSkip q)) = none := by
      cases hj : bracketScan none (q.drop (bracketSkip q)) with
      | none => rfl
      | some j =>
        exact absurd (List.mem_of_mem_drop (List.mem_of_getElem? (getElem?_of_bracketScan hj)))
          (notMem_of_isLiteralFrom hrest)
    rw [if_pos rfl, hscan]
    exact Or.inl ⟨_, _, rfl, rfl, by decide, true, hrest⟩
  rw [if_neg hopen]
  have hstar : ¬(c = question ∨ c = star) := by
    intro hc
    have hback : c ≠ backslash := by
      rintro rfl
      exact absurd hc (by decide)
    rw [isLiteralFrom, if_neg hback, if_pos hc] at h
    cases h
  rw [if_neg fun hc => hstar (Or.inr hc), if_neg fun hc => hstar (Or.inl hc), patChar, strNext,
    List.take_of_length_le (by rw [List.length_cons])]
  by_cases hc : 128 ≤ c
  · rw [if_pos hc, if_pos hc]
    cases hmb : loc.mbtowc (c :: q) with
    | none => exact Or.inr ⟨rfl, rfl⟩
    | some r =>
      obtain ⟨wc, l⟩ := r
      have := (hloc.wide _ _ _ _ hc hmb).1
      exact Or.inl ⟨wc, l, rfl, rfl, by omega, br, isLiteralFrom_drop h (hloc.ge_of_mem hc hmb)⟩
  · rw [if_neg hc, if_neg hc]
    refine Or.inl ⟨_, _, rfl, rfl, by omega, ?_⟩
    rw [isLiteralFrom] at h
    split_ifs at h
    · exact ⟨br, h⟩
    · exact ⟨br, h⟩
    · exact ⟨br, h⟩

/-- The item stands for the character. -/
def IsLit (i : Item Tok) (k : ℤ) : Prop := ∃ plain, i = .one (.lit k plain)

theorem isLit_itemOf (hk : 0 < k) : IsLit (itemOf p k st) k := by
  have hne : ∀ d : ℤ, d ≤ 0 → k ≠ d := fun d hd => by omega
  refine ⟨p.head? ≠ some backslash, ?_⟩
  rw [itemOf, if_neg (hne _ (by decide)), if_neg (hne _ (by decide)), if_neg (hne _ (by decide))]

/-- A literal is read as its characters. -/
theorem decodes_of_reads (hloc : loc.Utf8OrSingleByte) (hesc : has flags fnmNoescape = !useesc)
    (h : isLiteralFrom useesc br p = true) (h0 : 0 ∉ p) (hreads : Reads loc flags p p.length is) :
    ∃ kp, Decodes loc p kp ∧ List.Forall₂ IsLit is kp := by
  induction hl : p.length using Nat.strong_induction_on generalizing p is br with
  | _ l ih =>
    cases p with
    | nil =>
      rw [(reads_of_end (by rw [patNext_nil])).mp hreads]
      exact ⟨[], .nil, .nil⟩
    | cons c q =>
      rcases literal_next hloc hesc h with ⟨k, st, hnext, hstr, hk, br', hlit⟩ | ⟨hun, -⟩
      · have hend : (patNext loc flags (c :: q) (q.length + 1)).1 ≠ codeEnd :=
          patNext_ne_end hloc h0 (Nat.succ_pos _) (List.cons_ne_nil _ _)
        rw [hnext] at hend
        have hend : k ≠ 0 := hend
        have hk : 0 < k := by omega
        have hc : IsToken k := ⟨hend, fun hu => absurd (hu ▸ hk) (by decide)⟩
        have hst := patNext_le_length hloc hnext hc
        obtain ⟨-, -, -, -, -, hpos, -⟩ := patNext_cases hloc hnext hc
        obtain ⟨js, rfl, hjs⟩ := (reads_of_token hnext hc hst).mp hreads
        have hlen : q.length + 1 - st = ((c :: q).drop st).length := by
          rw [List.length_drop, List.length_cons]
        rw [hlen] at hjs
        obtain ⟨kp, hkp, hall⟩ := ih ((c :: q).drop st).length
          (by rw [← hlen, ← hl, List.length_cons]; omega) hlit
          (fun hmem => h0 (List.mem_of_mem_drop hmem)) hjs rfl
        exact ⟨k :: kp, .cons hstr hk hkp, .cons (isLit_itemOf hk) hall⟩
      · exact absurd hreads (not_reads_of_unmatchable hun)

/-- A literal that is all characters is read. -/
theorem reads_of_decodes (hloc : loc.Utf8OrSingleByte) (hesc : has flags fnmNoescape = !useesc)
    (h : isLiteralFrom useesc br p = true) (hs : Decodes loc p ks) :
    ∃ is, Reads loc flags p p.length is ∧ List.Forall₂ IsLit is ks := by
  induction hs generalizing br with
  | nil => exact ⟨[], reads_nil_iff.mpr (by rw [patNext_nil]), .nil⟩
  | @cons s k st ks hs hk hrest ih =>
    cases s with
    | nil =>
      rw [strNext_nil, Prod.mk.injEq] at hs
      omega
    | cons c q =>
      rcases literal_next hloc hesc h with ⟨k', st', hnext, hstr, -, br', hlit⟩ | ⟨-, hno⟩
      · rw [hs] at hstr
        obtain ⟨rfl, rfl⟩ := Prod.mk.inj hstr
        have hc : IsToken k :=
          ⟨fun he => absurd (he ▸ hk) (by decide), fun hu => absurd (hu ▸ hk) (by decide)⟩
        have hst := patNext_le_length hloc hnext hc
        obtain ⟨is, hreads, hall⟩ := ih hlit
        rw [List.length_drop] at hreads
        exact ⟨_, (reads_of_token hnext hc hst).mpr ⟨is, rfl, hreads⟩,
          .cons (isLit_itemOf hk) hall⟩
      · rw [hs] at hno
        have hno : k = -1 := hno
        omega

/-- No character has two encodings. -/
def Locale.Injective (loc : Locale) : Prop :=
  ∀ t u wc k l, loc.mbtowc t = some (wc, k) → loc.mbtowc u = some (wc, l) → t.take k = u.take l

theorem strNext_inj (hloc : loc.Utf8OrSingleByte) (hinj : loc.Injective) {st' : ℕ}
    (hs : strNext loc s = (k, st)) (hu : strNext loc u = (k, st')) (hk : 0 < k) :
    s.take st = u.take st' := by
  have hcases : ∀ {t : Str} {j}, strNext loc t = (k, j) →
      (k < 128 ∧ t.take j = [UInt8.ofNat k.toNat]) ∨
        (128 ≤ k ∧ loc.mbtowc t = some (k, j)) := by
    intro t j h
    cases t with
    | nil =>
      rw [strNext_nil, Prod.mk.injEq] at h
      omega
    | cons c q =>
      rw [strNext] at h
      split at h
      · rename_i hc
        split at h
        · rw [Prod.mk.injEq] at h
          omega
        · rename_i wc l hmb
          obtain ⟨rfl, rfl⟩ := Prod.mk.inj h
          exact Or.inr ⟨(hloc.wide _ _ _ _ hc hmb).1, hmb⟩
      · rename_i hc
        obtain ⟨rfl, rfl⟩ := Prod.mk.inj h
        have hlt : c.toNat < 128 := UInt8.not_le.mp hc
        refine Or.inl ⟨by omega, ?_⟩
        rw [List.take_succ_cons, List.take_zero, Int.toNat_natCast, UInt8.ofNat_toNat]
  rcases hcases hs with ⟨hlt, hs⟩ | ⟨hge, hs⟩ <;> rcases hcases hu with ⟨hlt', hu⟩ | ⟨hge', hu⟩
  · rw [hs, hu]
  · omega
  · omega
  · exact hinj _ _ _ _ _ hs hu

/-- A string is told by its characters. -/
theorem Decodes.unique (hloc : loc.Utf8OrSingleByte) (hinj : loc.Injective) (hs : Decodes loc s ks)
    (hu : Decodes loc u ks) : s = u := by
  induction hs generalizing u with
  | nil => exact hu.nil_inv.symm
  | @cons s k st ks hs hk hrest ih =>
    obtain ⟨st', hu, -, hurest⟩ := hu.cons_inv
    rw [← List.take_append_drop st s, ih hurest, strNext_inj hloc hinj hs hu hk,
      List.take_append_drop]

/-- Characters accept themselves only, when case is kept. -/
theorem matches_lits (hfold : has flags fnmCasefold = false) {kp : List ℤ}
    (h : List.Forall₂ IsLit is kp) : Matches (accepts loc flags) is ks ↔ ks = kp := by
  induction h generalizing ks with
  | nil => exact matches_nil
  | @cons i k is kp hi hall ih =>
    obtain ⟨plain, rfl⟩ := hi
    cases ks with
    | nil => simp
    | cons k' ks =>
      rw [matches_one_cons, ih, accepts, folded, hfold]
      simp

/-- **`fnmatch` accepts a literal component for itself and for nothing else.** -/
theorem literal_iff (hloc : loc.Utf8OrSingleByte) (hinj : loc.Injective)
    (hesc : has flags fnmNoescape = !useesc) (hpath : has flags fnmPathname = false)
    (hlead : has flags fnmLeadingDir = false) (hfold : has flags fnmCasefold = false)
    (h : isLiteral p useesc = true) (h0 : 0 ∉ p) (hs : Decodes loc s ks) :
    (∃ is, Reads loc flags p p.length is ∧ Accepts loc flags is ks) ↔ p = s := by
  have haccepts : ∀ is, Accepts loc flags is ks ↔ Component loc flags is ks := by
    intro is
    rw [Accepts, hpath, hlead]
    simp
  simp only [haccepts]
  constructor
  · rintro ⟨is, hreads, -, hm⟩
    obtain ⟨kp, hkp, hall⟩ := decodes_of_reads hloc hesc h h0 hreads
    rw [matches_lits hfold hall] at hm
    rw [← hm] at hkp
    exact hkp.unique hloc hinj hs
  · rintro rfl
    obtain ⟨is, hreads, hall⟩ := reads_of_decodes hloc hesc h hs
    refine ⟨is, hreads, fun hh => hh.2.2 ?_, (matches_lits hfold hall).mpr rfl⟩
    refine (head?_pattern_iff hloc h0 (Nat.le_refl _) (fun hm => ?_) hreads).mp
      ((head?_period_iff hloc hs).mpr hh.2.1)
    rw [List.length_eq_zero_iff.mp hm]
    simp

/-! ## The test of a name -/

/-- The flags that `glob` passes on. -/
theorem has_fnmFlags (gflags : BitVec 32) :
    has (fnmFlags gflags) fnmNoescape = has gflags globNoescape ∧
      has (fnmFlags gflags) fnmPathname = false ∧ has (fnmFlags gflags) fnmLeadingDir = false ∧
        has (fnmFlags gflags) fnmCasefold = false := by
  unfold fnmFlags
  cases has gflags globNoescape <;> cases has gflags globPeriod <;> decide

/-- The world `sys` with the `fnmatch` of this repository. -/
def withMatcher {σ : Type} (loc : Locale) (sys : System σ) : System σ :=
  { sys with fnmatch := fun comp name fl => fnmatch loc fl comp name = some 0 }

/-- **A name is accepted exactly if the component, read as a pattern, accepts its characters.**  This
holds for literal components, which are compared with the name, and for the others, which are matched
by `fnmatch`. -/
theorem acceptsName_iff {σ : Type} (sys : System σ) (gflags : BitVec 32) {name : Str}
    (hloc : loc.Utf8OrSingleByte) (hinj : loc.Injective) (h0 : 0 ∉ p) (hs : Decodes loc name ks) :
    AcceptsName (withMatcher loc sys) gflags p name ↔
      ∃ is, Reads loc (fnmFlags gflags) p p.length is ∧ Accepts loc (fnmFlags gflags) is ks := by
  obtain ⟨hesc, hpath, hlead, hfold⟩ := has_fnmFlags gflags
  unfold AcceptsName
  cases hlit : isLiteral p (!has gflags globNoescape) with
  | true =>
    rw [if_pos rfl]
    exact (literal_iff hloc hinj (by rw [hesc, Bool.not_not]) hpath hlead hfold hlit h0 hs).symm
  | false =>
    rw [if_neg (by decide), withMatcher, decide_eq_true_eq]
    exact (fnmatch_answers hloc h0 hs (by simp [hpath])).iff

theorem ascii_injective : ascii.Injective := by
  intro t u wc k l ht hu
  cases t with
  | nil => cases ht
  | cons c t =>
    cases u with
    | nil => cases hu
    | cons d u =>
      obtain ⟨-, hc, rfl⟩ := ascii_eq_some ht
      obtain ⟨-, hd, rfl⟩ := ascii_eq_some hu
      rw [List.take_succ_cons, List.take_succ_cons, List.take_zero, List.take_zero]
      rw [UInt8.toNat_inj.mp (Int.ofNat_inj.mp (hc.symm.trans hd))]

/-- The component `[a` is compared with the name, and as a pattern it accepts that name. -/
theorem acceptsName_iff_bracket :
    AcceptsName (withMatcher ascii emptyWorld) 0 [0x5b, 0x61] [0x5b, 0x61] ↔
      ∃ is, Reads ascii (fnmFlags 0) [0x5b, 0x61] 2 is ∧ Accepts ascii (fnmFlags 0) is [0x5b, 0x61] :=
  acceptsName_iff emptyWorld 0 ascii_utf8OrSingleByte ascii_injective (by decide)
    (decodes_ascii [0x5b, 0x61] rfl)

end Fnmatch
end UtilWin
