import Mathlib.Data.List.GetD
import Mathlib.Data.List.Induction
import UtilWin.Regex.FnmatchTokens

/-!
# What `fnmatch_internal` accepts

The string is its characters (`Decodes`), the pattern its items (`Reads`), and an item accepts a
character by `accepts`.  `fnmatch_internal` answers whether the items match the characters, with a
free choice of what each star takes, and whether a period in front is allowed
(`fnmatchInternal_answers`).

Two of its steps go by bytes.  The tail is found by going back from the end of the string, and
arrives at the right character because no continuation byte begins one (`walkBack_chars`).  The
components are matched in the part of the pattern up to the last star, where the tokens are those of
the whole pattern.  The search itself is the one of `StarPattern`.
-/

namespace UtilWin
namespace Fnmatch

open Glob StarPattern

variable {loc : Locale} {flags : BitVec 32}

/-! ## The characters of a string -/

/-- The characters of a string of which all bytes are characters. -/
inductive Decodes (loc : Locale) : Str → List ℤ → Prop
  | nil : Decodes loc [] []
  | cons {s k st ks} : strNext loc s = (k, st) → 0 < k → Decodes loc (s.drop st) ks →
      Decodes loc s (k :: ks)

/-- The bytes of one character, as `fnmatch_internal` goes back over them. -/
def IsChar (loc : Locale) (e : Str) : Prop :=
  ∃ c t, e = c :: t ∧
    if c < 128 ∨ loc.mbCurMax = 1 then t = []
    else isContinuation c = false ∧ ∀ b ∈ t, isContinuation b = true

variable {s u : Str} {k : ℤ} {st : ℕ} {ks : List ℤ}

theorem strNext_nil : strNext loc [] = (0, 0) := rfl

/-- A character has at least one byte, and is told by its bytes. -/
theorem strNext_pos (hloc : loc.Utf8OrSingleByte) (h : strNext loc s = (k, st)) (hk : 0 < k) :
    1 ≤ st ∧ st ≤ s.length ∧ IsChar loc (s.take st) ∧
      ∀ u, s.take st <+: u → strNext loc u = (k, st) := by
  cases s with
  | nil =>
    rw [strNext_nil, Prod.mk.injEq] at h
    omega
  | cons c q =>
    rw [strNext] at h
    split at h
    · rename_i hc
      split at h
      · rw [Prod.mk.injEq] at h
        omega
      · rename_i wc l hmb
        obtain ⟨rfl, rfl⟩ := Prod.mk.inj h
        obtain ⟨-, hl, hlen⟩ := hloc.wide _ _ _ _ hc hmb
        have hlead := hloc.lead _ _ _ _ hc hmb
        have htrail := hloc.trail _ _ _ _ hc hmb
        refine ⟨hl, hlen, ⟨c, q.take (l - 1), ?_, ?_⟩, fun u hu => ?_⟩
        · rw [← List.take_succ_cons, Nat.sub_add_cancel hl]
        · by_cases hone : loc.mbCurMax = 1
          · rw [if_pos hone] at hlead
            rw [if_pos (Or.inr hone), hlead, Nat.sub_self, List.take_zero]
          · rw [if_neg hone] at hlead
            rw [if_neg (not_or.mpr ⟨UInt8.not_lt.mpr hc, hone⟩)]
            exact ⟨hlead, htrail⟩
        · have hu' := hloc.own _ _ _ u hmb hu
          obtain ⟨l, rfl⟩ := Nat.exists_eq_add_of_le' hl
          obtain ⟨v, rfl⟩ := hu
          rw [List.take_succ_cons, List.cons_append] at hu' ⊢
          rw [strNext, if_pos hc, hu']
    · rename_i hc
      obtain ⟨rfl, rfl⟩ := Prod.mk.inj h
      refine ⟨Nat.le_refl 1, Nat.succ_pos _, ⟨c, [], rfl, ?_⟩, fun u hu => ?_⟩
      · rw [if_pos (Or.inl (UInt8.not_le.mp hc))]
      · obtain ⟨v, rfl⟩ := hu
        rw [List.take_succ_cons, List.cons_append, strNext, if_neg hc]

theorem Decodes.cons_inv (h : Decodes loc s (k :: ks)) :
    ∃ st, strNext loc s = (k, st) ∧ 0 < k ∧ Decodes loc (s.drop st) ks := by
  cases h with
  | cons hs hk hrest => exact ⟨_, hs, hk, hrest⟩

theorem Decodes.nil_inv (h : Decodes loc s []) : s = [] := by
  cases h
  rfl

/-- A string is at least as long as its characters are many. -/
theorem Decodes.length_le (hloc : loc.Utf8OrSingleByte) (h : Decodes loc s ks) : ks.length ≤ s.length := by
  induction h with
  | nil => exact Nat.le_refl _
  | cons hs hk _ ih =>
    obtain ⟨hst, hle, -⟩ := strNext_pos hloc hs hk
    rw [List.length_drop] at ih
    rw [List.length_cons]
    omega

/-- The string is the bytes of its characters. -/
theorem Decodes.exists_chars (hloc : loc.Utf8OrSingleByte) (h : Decodes loc s ks) :
    ∃ es : List Str, s = es.flatten ∧ es.length = ks.length ∧ ∀ e ∈ es, IsChar loc e := by
  induction h with
  | nil => exact ⟨[], rfl, rfl, by simp⟩
  | @cons s k st ks hs hk _ ih =>
    obtain ⟨es, hes, hlen, hchar⟩ := ih
    obtain ⟨-, -, hc, -⟩ := strNext_pos hloc hs hk
    refine ⟨s.take st :: es, ?_, by rw [List.length_cons, List.length_cons, hlen],
      List.forall_mem_cons.mpr ⟨hc, hchar⟩⟩
    rw [List.flatten_cons, ← hes, List.take_append_drop]

/-- A string is cut between two characters. -/
theorem Decodes.split (hloc : loc.Utf8OrSingleByte) (h : Decodes loc s ks) {n : ℕ} (hn : n ≤ ks.length) :
    ∃ a b, s = a ++ b ∧ Decodes loc a (ks.take n) ∧ Decodes loc b (ks.drop n) := by
  induction h generalizing n with
  | nil => exact ⟨[], [], rfl, by rw [List.take_nil]; exact .nil, by rw [List.drop_nil]; exact .nil⟩
  | @cons s k st ks hs hk hrest ih =>
    cases n with
    | zero => exact ⟨[], s, rfl, .nil, .cons hs hk hrest⟩
    | succ n =>
      obtain ⟨a, b, hab, ha, hb⟩ := ih (Nat.le_of_succ_le_succ hn)
      obtain ⟨-, hle, -, hown⟩ := strNext_pos hloc hs hk
      refine ⟨s.take st ++ a, b, ?_, ?_, hb⟩
      · rw [List.append_assoc, ← hab, List.take_append_drop]
      · refine .cons (hown _ (List.prefix_append _ _)) hk ?_
        rw [List.drop_append_of_le_length (by rw [List.length_take]; omega),
          List.drop_take, Nat.sub_self, List.take_zero]
        exact ha

/-- A string of ASCII bytes is its own characters. -/
theorem decodes_ascii (s : Str) (h : (s.all fun c => 0 < c && c < 128) = true) :
    Decodes ascii s (s.map fun c => (c.toNat : ℤ)) := by
  induction s with
  | nil => exact .nil
  | cons c s ih =>
    rw [List.all_cons, Bool.and_eq_true, Bool.and_eq_true, decide_eq_true_eq,
      decide_eq_true_eq] at h
    obtain ⟨⟨hpos, hlt⟩, hs⟩ := h
    have hpos : 0 < c.toNat := hpos
    refine @Decodes.cons _ _ (c.toNat : ℤ) 1 _ ?_ (by omega) (ih hs)
    rw [strNext, if_neg (UInt8.not_le.mpr hlt)]

/-! ## Going back -/

/-- From the end of its bytes back to the front of a character. -/
theorem back_char {w e y : Str} (he : IsChar loc e) :
    ∃ i, w.length + e.length = i + 1 ∧
      (if (w ++ e ++ y).getD i 0 < 128 ∨ loc.mbCurMax = 1 then i
        else backContinuation (w ++ e ++ y) (i + 1)) = w.length := by
  obtain ⟨c, t, rfl, ht⟩ := he
  refine ⟨w.length + t.length, by rw [List.length_cons]; omega, ?_⟩
  split at ht
  · rename_i hc
    subst ht
    have hget : (w ++ [c] ++ y).getD (w.length + ([] : Str).length) 0 = c := by
      simp
    rw [hget, if_pos hc, List.length_nil, Nat.add_zero]
  · rename_i hc
    obtain ⟨hlead, hcont⟩ := ht
    have hge : ∀ b ∈ c :: t, 128 ≤ b := by
      intro b hb
      rcases List.mem_cons.mp hb with rfl | hb
      · exact UInt8.not_lt.mp (not_or.mp hc).1
      · exact isContinuation_ge (hcont b hb)
    have hget : ∀ i, i < (c :: t).length →
        (w ++ (c :: t) ++ y).getD (w.length + i) 0 = (c :: t).getD i 0 := by
      intro i hi
      rw [List.append_assoc, List.getD_append_right _ _ _ _ (Nat.le_add_right _ _),
        Nat.add_sub_cancel_left, List.getD_append _ _ _ _ hi]
    have hback : ∀ i, i ≤ t.length →
        backContinuation (w ++ (c :: t) ++ y) (w.length + i + 1) = w.length := by
      intro i hi
      induction i with
      | zero =>
        rw [Nat.add_zero, backContinuation, ← Nat.add_zero w.length, hget 0 (Nat.succ_pos _)]
        refine if_neg ?_
        rintro ⟨h, -⟩
        rw [List.getD_cons_zero, hlead] at h
        cases h
      | succ i ih =>
        rw [backContinuation, hget (i + 1) (Nat.succ_lt_succ hi), if_pos]
        · exact ih (Nat.le_of_succ_le hi)
        · refine ⟨hcont _ ?_, by omega⟩
          rw [List.getD_cons_succ, List.getD_eq_getElem _ _ hi]
          exact List.getElem_mem hi
    rw [if_neg, hback _ (Nat.le_refl _)]
    rw [not_or]
    refine ⟨UInt8.not_lt.mpr ?_, (not_or.mp hc).2⟩
    rw [hget _ (Nat.lt_succ_self _), List.getD_eq_getElem _ _ (Nat.lt_succ_self _)]
    exact hge _ (List.getElem_mem _)

/-- **Going back over characters arrives at the first of them.** -/
theorem walkBack_chars {x y : Str} {es : List Str} (hes : ∀ e ∈ es, IsChar loc e) (j : ℕ) :
    walkBack loc (x ++ es.flatten ++ y) (es.length + j) (x ++ es.flatten).length =
      walkBack loc (x ++ es.flatten ++ y) j x.length := by
  induction es using List.reverseRecOn generalizing y with
  | nil => rw [List.flatten_nil, List.append_nil, List.length_nil, Nat.zero_add]
  | append_singleton es e ih =>
    have ih := @ih (e ++ y) fun e' he' => hes e' (List.mem_append_left _ he')
    obtain ⟨i, hi, hback⟩ := back_char (w := x ++ es.flatten) (y := y)
      (hes e (List.mem_append_right _ (List.mem_singleton_self e)))
    have hflat : x ++ (es ++ [e]).flatten ++ y = x ++ es.flatten ++ (e ++ y) := by
      simp
    have hlen : (x ++ (es ++ [e]).flatten).length = i + 1 := by
      rw [← hi]
      simp [Nat.add_assoc]
    rw [hlen, List.length_append, List.length_singleton, Nat.add_right_comm es.length, walkBack,
      hflat, ← List.append_assoc, hback, List.append_assoc (x ++ es.flatten)]
    exact ih

/-! ## What a token accepts -/

/-- The other case of a character: it as a capital letter, or as a small one if it is a capital letter
itself. -/
def otherCase (loc : Locale) (k : ℤ) : ℤ := if loc.towupper k ≠ k then loc.towupper k else loc.towlower k

/-- The character that a token is compared with besides the one that is there. -/
def folded (loc : Locale) (flags : BitVec 32) (k : ℤ) : ℤ :=
  if has flags fnmCasefold then otherCase loc k else k

/-- The character `k` is accepted by a token: the character itself or in the other case, or the elements of a
bracket expression have it. -/
def accepts (loc : Locale) (flags : BitVec 32) : Tok → ℤ → Prop
  | .lit c _, k => k = c ∨ folded loc flags k = c
  | .any, _ => True
  | .set b, k => ∃ e, bracketOf loc b = some e ∧ e.Accepts loc k (folded loc flags k)

variable {pat p p' : Str} {m n fuel : ℕ} {c : ℤ} {is js : List (Item Tok)} {t : Tok}

theorem casefold_eq : casefold loc k = otherCase loc k := by
  rw [casefold, otherCase, ite_not]

/-- What `fnmatch_internal` folds. -/
theorem folded_eq : (if has flags fnmCasefold then casefold loc k else k) = folded loc flags k := by
  rw [casefold_eq, folded]

theorem folded_pos (hloc : loc.Utf8OrSingleByte) (hk : 0 < k) : 0 < folded loc flags k := by
  unfold folded otherCase
  split
  · split
    · exact (hloc.fold k hk).1
    · exact (hloc.fold k hk).2
  · exact hk

theorem isInt_folded (hloc : loc.Utf8OrSingleByte) (hk : IsInt k) : IsInt (folded loc flags k) := by
  unfold folded otherCase
  split
  · split
    · exact (hloc.foldInt k hk).1
    · exact (hloc.foldInt k hk).2
  · exact hk

/-- A character of a string is in the range of `int`. -/
theorem isInt_strNext (hloc : loc.Utf8OrSingleByte) (h : strNext loc s = (k, st)) : IsInt k := by
  cases s with
  | nil =>
    cases h
    exact ⟨by decide, by decide⟩
  | cons c q =>
    rw [strNext] at h
    split at h
    · split at h
      · cases h
        exact ⟨by decide, by decide⟩
      · next hmb =>
        cases h
        exact hloc.int _ _ _ hmb
    · cases h
      exact isInt_byte c

/-- Behind the end of the pattern nothing is accepted. -/
theorem test_end (hloc : loc.Utf8OrSingleByte) (hk : 0 < k) : test loc flags p codeEnd k = some false := by
  have hfold : 0 < folded loc flags k := folded_pos hloc hk
  unfold test
  rw [folded_eq, if_neg (by decide)]
  congr 1
  rw [Bool.not_eq_false', decide_eq_true_eq]
  exact ⟨by decide, by rw [codeEnd]; omega, by rw [codeEnd]; omega⟩

/-- The bracket expression that `pat_next` has delimited, read from its own bytes and where it
stands. -/
theorem bracketOf_token (hloc : loc.Utf8OrSingleByte) (h0 : 0 ∉ pat)
    (h : patNext loc flags pat m = (codeBracket, st)) (hst : st ≤ m) :
    ∃ b, bracketOf loc (pat.take st) = some b ∧ bracketOf loc pat = some b := by
  obtain ⟨a, q, n, rfl, rfl, -, hcase⟩ := patNext_cases hloc h ⟨by decide, by decide⟩
  rcases hcase with ⟨hx, -⟩ | ⟨hx, -⟩ | ⟨hx, -⟩ | ⟨-, rfl, j, hj, rfl⟩
  · exact absurd hx (by decide)
  · exact absurd hx (by decide)
  · exact absurd hx (by decide)
  · have hq0 : 0 ∉ q.take n := fun hmem => h0 (List.mem_cons_of_mem _ (List.mem_of_mem_take hmem))
    obtain ⟨b, hb⟩ := exists_bracketOf hloc hq0 hj
    have hpat : Agree (1 + bracketSkip (q.take n) + j + 1) (bracketOpen :: q)
        (bracketOpen :: q.take n) := by
      rw [← List.take_succ_cons]
      exact (agree_take hst _).symm
    exact ⟨b, hb _ (Eq.trans (agree_take (Nat.le_refl _) _) hpat), hb _ hpat⟩

/-- **A bracket expression means its elements**: the bytes that `pat_next` has delimited are a list of
elements, and for every character `match_bracket` answers for that list, without reading on. -/
theorem matchBracket_token (hloc : loc.Utf8OrSingleByte) (h0 : 0 ∉ pat)
    (h : patNext loc flags pat m = (codeBracket, st)) (hst : st ≤ m) :
    ∃ b, bracketOf loc (pat.take st) = some b ∧ ∀ k kfold, IsInt k → IsInt kfold →
      ∃ v, matchBracket loc pat k kfold = some v ∧ (v = true ↔ b.Accepts loc k kfold) := by
  obtain ⟨b, hcut, hb⟩ := bracketOf_token hloc h0 h hst
  exact ⟨b, hcut, fun k kfold hk hkfold =>
    ⟨_, matchBracket_of_bracketOf hb k kfold, accepts_iff hloc hb hk hkfold⟩⟩

/-- The expression `[a-]`, and something behind it. -/
theorem matchBracket_token_dash :
    ∃ b, bracketOf ascii [0x5b, 0x61, 0x2d, 0x5d] = some b ∧ ∀ k kfold, IsInt k → IsInt kfold →
      ∃ v, matchBracket ascii [0x5b, 0x61, 0x2d, 0x5d, 0x5d] k kfold = some v ∧
        (v = true ↔ b.Accepts ascii k kfold) :=
  @matchBracket_token ascii 0 4 [0x5b, 0x61, 0x2d, 0x5d, 0x5d] 5 ascii_utf8OrSingleByte (by decide)
    (by decide) (by decide)

/-- **The comparison of a token and a character** decides whether the token accepts it. -/
theorem exists_test (hloc : loc.Utf8OrSingleByte) (h0 : 0 ∉ pat) (h : patNext loc flags pat m = (c, st))
    (hc : IsToken c) (hstar : c ≠ codeStar) (hst : st ≤ m) (k : ℤ) :
    ∃ t v, itemOf pat c st = .one t ∧ test loc flags pat c k = some v ∧
      (IsInt k → (v = true ↔ accepts loc flags t k)) := by
  obtain ⟨a, q, n, rfl, rfl, -, hcase⟩ := patNext_cases hloc h hc
  rcases hcase with ⟨rfl, -⟩ | ⟨rfl, -⟩ | ⟨hpos, -⟩ | ⟨rfl, rfl, j, hj, rfl⟩
  · exact absurd rfl hstar
  · exact ⟨.any, true, rfl, rfl, fun _ => iff_of_true rfl trivial⟩
  · have hb : c ≠ codeBracket := fun hb => absurd (hb ▸ hpos) (by decide)
    have hq : c ≠ codeQuestion := fun hq => absurd (hq ▸ hpos) (by decide)
    refine ⟨.lit c ((a :: q).head? ≠ some backslash), !(c ≠ codeQuestion ∧ k ≠ c ∧
      folded loc flags k ≠ c), ?_, ?_, ?_⟩
    · rw [itemOf, if_neg hstar, if_neg hq, if_neg hb]
    · unfold test
      rw [folded_eq, if_neg hb]
    · intro _
      rw [accepts, Bool.not_eq_true', decide_eq_false_iff_not]
      tauto
  · obtain ⟨b, hcut, hb⟩ := bracketOf_token hloc h0 h hst
    refine ⟨_, b.accepts loc k (folded loc flags k), rfl, ?_, fun hk => ?_⟩
    · unfold test
      rw [folded_eq, if_pos rfl]
      exact matchBracket_of_bracketOf hb k _
    · rw [accepts_iff hloc hb hk (isInt_folded hloc hk)]
      constructor
      · exact fun ha => ⟨b, hcut, ha⟩
      · rintro ⟨b', hb', ha⟩
        rw [hcut] at hb'
        cases hb'
        exact ha

/-- A star has one byte. -/
theorem patNext_star (hloc : loc.Utf8OrSingleByte) (h : patNext loc flags pat m = (codeStar, st)) :
    st = 1 := by
  obtain ⟨a, q, n, -, -, -, ⟨-, h1⟩ | ⟨hx, -⟩ | ⟨hx, -⟩ | ⟨hx, -⟩⟩ :=
    patNext_cases hloc h ⟨by decide, by decide⟩
  · exact h1
  all_goals exact absurd hx (by decide)

/-- The code of an item. -/
theorem itemOf_star_iff : itemOf pat c st = .star ↔ c = codeStar := by
  unfold itemOf
  split_ifs <;> simp_all

/-! ## The head -/

/-- `o` is the answer to the question `P`. -/
def Answers (o : Option ℕ) (P : Prop) : Prop := (P → o = some 0) ∧ (¬P → o = some fnmNomatch)

theorem Answers.yes {o : Option ℕ} {P : Prop} (h : o = some 0) (hP : P) : Answers o P :=
  ⟨fun _ => h, fun hn => absurd hP hn⟩

theorem Answers.no {o : Option ℕ} {P : Prop} (h : o = some fnmNomatch) (hP : ¬P) : Answers o P :=
  ⟨fun hp => absurd hp hP, fun _ => h⟩

theorem Answers.congr {o : Option ℕ} {P Q : Prop} (h : Answers o P) (hPQ : P ↔ Q) : Answers o Q :=
  ⟨fun hq => h.1 (hPQ.mpr hq), fun hq => h.2 fun hp => hq (hPQ.mp hp)⟩

theorem Answers.iff {o : Option ℕ} {P : Prop} (h : Answers o P) : o = some 0 ↔ P := by
  constructor
  · intro ho
    by_contra hP
    rw [h.2 hP] at ho
    exact absurd (Option.some_inj.mp ho) (by decide)
  · exact h.1

theorem Answers.ne_none {o : Option ℕ} {P : Prop} (h : Answers o P) : o ≠ none := by
  by_cases hP : P
  · rw [h.1 hP]
    exact Option.some_ne_none _
  · rw [h.2 hP]
    exact Option.some_ne_none _

/-- The pattern reads as items that match, behind a star that has been taken off. -/
def Accepted (loc : Locale) (flags : BitVec 32) (front : List (Item Tok)) (pat : Str) (m : ℕ)
    (ks : List ℤ) : Prop :=
  ∃ is, Reads loc flags pat m is ∧ Matches (accepts loc flags) (front ++ is) ks

/-- A token that is not a star takes the first character. -/
theorem accepted_cons (h : patNext loc flags pat m = (c, st)) (hc : IsToken c) (hst : st ≤ m)
    (ht : itemOf pat c st = .one t) :
    Accepted loc flags [] pat m (k :: ks) ↔
      accepts loc flags t k ∧ Accepted loc flags [] (pat.drop st) (m - st) ks := by
  unfold Accepted
  simp only [reads_of_token h hc hst, ht, List.nil_append]
  constructor
  · rintro ⟨_, ⟨is, rfl, hreads⟩, hm⟩
    rw [matches_one_cons] at hm
    exact ⟨hm.1, is, hreads, hm.2⟩
  · rintro ⟨hk, is, hreads, hm⟩
    exact ⟨_, ⟨is, rfl, hreads⟩, .one hk hm⟩

/-- A token that is not a star needs a character. -/
theorem not_accepted_nil (h : patNext loc flags pat m = (c, st)) (hc : IsToken c) (hst : st ≤ m)
    (ht : itemOf pat c st = .one t) : ¬Accepted loc flags [] pat m [] := by
  rintro ⟨is, hreads, hm⟩
  obtain ⟨js, rfl, -⟩ := (reads_of_token h hc hst).mp hreads
  rw [ht] at hm
  exact matches_one_nil hm

/-- A pattern that is at its end accepts no further character. -/
theorem accepted_of_end (h : (patNext loc flags pat m).1 = codeEnd) :
    Accepted loc flags [] pat m ks ↔ ks = [] := by
  unfold Accepted
  simp only [reads_of_end h]
  constructor
  · rintro ⟨is, rfl, hm⟩
    exact matches_nil.mp hm
  · rintro rfl
    exact ⟨[], rfl, .nil⟩

/-- **The loop over the head** answers, or hands over at the first star. -/
theorem matchHead_spec (hloc : loc.Utf8OrSingleByte) (hfuel : m < fuel) (h0 : 0 ∉ pat)
    (hw : Whole loc flags pat m) (hs : Decodes loc s ks) :
    (∃ r, matchHead loc flags fuel pat m s = some (.answer r) ∧
        Answers (some r) (Accepted loc flags [] pat m ks)) ∨
      ∃ is p n s' ks', matchHead loc flags fuel pat m s = some (.star p n s') ∧
        Upto loc flags pat m is p n ∧ Decodes loc s' ks' ∧
        (Accepted loc flags [] pat m ks ↔ Accepted loc flags [.star] p n ks') := by
  induction fuel generalizing pat m s ks with
  | zero => omega
  | succ fuel ih =>
    obtain ⟨c, st, hnext⟩ : ∃ c st, patNext loc flags pat m = (c, st) := ⟨_, _, rfl⟩
    rw [matchHead]
    simp only [hnext]
    by_cases hun : c = codeUnmatchable
    · rw [if_pos hun]
      refine Or.inl ⟨_, rfl, .no rfl ?_⟩
      rintro ⟨is, hreads, -⟩
      exact not_reads_of_unmatchable (by rw [hnext, hun]) hreads
    rw [if_neg hun]
    by_cases hstar : c = codeStar
    · rw [if_pos hstar]
      have hc : IsToken c := by rw [hstar]; exact ⟨by decide, by decide⟩
      obtain rfl : st = 1 := patNext_star hloc (hstar ▸ hnext)
      have hst := hw.le hnext hc
      refine Or.inr ⟨_, _, _, _, ks, rfl, .single hnext hc hst, hs, ?_⟩
      unfold Accepted
      simp only [reads_of_token hnext hc hst]
      constructor
      · rintro ⟨_, ⟨is, rfl, hreads⟩, hm⟩
        exact ⟨is, hreads, by rwa [itemOf_star_iff.mpr hstar] at hm⟩
      · rintro ⟨is, hreads, hm⟩
        exact ⟨_, ⟨is, rfl, hreads⟩, by rwa [itemOf_star_iff.mpr hstar]⟩
    rw [if_neg hstar]
    by_cases hend : c = codeEnd
    · subst hend
      have hnext' : (patNext loc flags pat m).1 = codeEnd := by rw [hnext]
      cases ks with
      | nil =>
        rw [hs.nil_inv]
        exact Or.inl ⟨0, rfl, .yes rfl ((accepted_of_end hnext').mpr rfl)⟩
      | cons k ks =>
        obtain ⟨sinc, hstr, hk, -⟩ := hs.cons_inv
        simp only [hstr]
        rw [if_neg (by omega), test_end hloc hk]
        refine Or.inl ⟨fnmNomatch, rfl, .no rfl fun ha => ?_⟩
        cases (accepted_of_end hnext').mp ha
    have hc : IsToken c := ⟨hend, hun⟩
    have hst := hw.le hnext hc
    obtain ⟨-, -, -, -, -, hpos, -⟩ := patNext_cases hloc hnext hc
    cases ks with
    | nil =>
      obtain ⟨t, -, ht, -⟩ := exists_test hloc h0 hnext hc hstar hst 0
      rw [hs.nil_inv]
      refine Or.inl ⟨fnmNomatch, ?_, .no rfl (not_accepted_nil hnext hc hst ht)⟩
      rw [strNext_nil, if_pos (Int.le_refl 0), if_neg hend]
    | cons k ks =>
      obtain ⟨sinc, hstr, hk, hrest⟩ := hs.cons_inv
      obtain ⟨t, v, ht, htest, hv⟩ := exists_test hloc h0 hnext hc hstar hst k
      have hv := hv (isInt_strNext hloc hstr)
      simp only [hstr]
      rw [if_neg (by omega), htest]
      cases v with
      | false =>
        refine Or.inl ⟨fnmNomatch, rfl, .no rfl fun ha => ?_⟩
        exact absurd (hv.mpr ((accepted_cons hnext hc hst ht).mp ha).1) (by decide)
      | true =>
        have h0' : 0 ∉ pat.drop st := fun hmem => h0 (List.mem_of_mem_drop hmem)
        have hone := Upto.single hnext hc hst
        have hacc : Accepted loc flags [] pat m (k :: ks) ↔
            Accepted loc flags [] (pat.drop st) (m - st) ks := by
          rw [accepted_cons hnext hc hst ht]
          exact and_iff_right (hv.mp rfl)
        rcases ih (by omega) h0' (hw.upto hone) hrest with ⟨r, hr, ha⟩ |
          ⟨is, p, n, s', ks', hr, hup, hs', ha⟩
        · exact Or.inl ⟨r, hr, ha.congr hacc.symm⟩
        · exact Or.inr ⟨_, p, n, s', ks', hr, hone.trans hup, hs', hacc.trans ha⟩

/-! ## The tail -/

/-- Inside the pattern there is a token. -/
theorem patNext_ne_end (hloc : loc.Utf8OrSingleByte) (h0 : 0 ∉ p) (hm : 0 < m) (hne : p ≠ []) :
    (patNext loc flags p m).1 ≠ codeEnd := by
  have hchar : ∀ {x : Str} {k step esc}, x ≠ [] → 0 ∉ x → 0 < k →
      (patChar loc x k step esc).1 ≠ codeEnd := by
    intro x k step esc hx hx0 hk
    cases x with
    | nil => exact absurd rfl hx
    | cons a q =>
      rw [patChar]
      split
      · rename_i ha
        split
        · decide
        · rename_i wc l hmb
          obtain ⟨k, rfl⟩ : ∃ i, k = i + 1 := ⟨k - 1, by omega⟩
          rw [List.take_succ_cons] at hmb
          have := (hloc.wide _ _ _ _ ha hmb).1
          show wc ≠ 0
          omega
      · intro ha
        have ha : a = 0 := UInt8.toNat_inj.mp (Int.ofNat_eq_zero.mp ha)
        exact hx0 (ha ▸ List.mem_cons_self ..)
  cases p with
  | nil => exact absurd rfl hne
  | cons a q =>
    obtain ⟨n, rfl⟩ : ∃ n, m = n + 1 := ⟨m - 1, by omega⟩
    rw [patNext_cons]
    split
    · rename_i hesc
      exact hchar hesc.2.1 (fun hmem => h0 (List.mem_cons_of_mem _ hmem)) hm
    split
    · split
      · exact fun h => absurd h (by decide)
      · exact fun h => absurd h (by decide : codeBracket ≠ codeEnd)
    split
    · exact fun h => absurd h (by decide)
    split
    · exact fun h => absurd h (by decide)
    · exact hchar (List.cons_ne_nil _ _) h0 hm

/-- Nothing, or something that ends in a star. -/
def Ends (sea : List (Item Tok)) : Prop := sea = [] ∨ ∃ x, sea = x ++ [.star]

/-- **The search for the last star** cuts the items behind it. -/
theorem scanTail_spec (hloc : loc.Utf8OrSingleByte) {q pt : Str} {mq mt : ℕ} {sea : List (Item Tok)}
    {l : List Tok} (hfuel : m < fuel) (h0 : 0 ∉ p) (hle : m ≤ p.length)
    (hw : Whole loc flags p m) (hsea : Upto loc flags q mq sea pt mt) (hends : Ends sea)
    (hts : Upto loc flags pt mt (l.map .one) p m) :
    (scanTail loc flags fuel p m l.length pt mt = some .nomatch ∧ ∀ is, ¬Reads loc flags p m is) ∨
      ∃ (sea' : List (Item Tok)) (ts' : List Tok) (pt' : Str) (mt' : ℕ), scanTail loc flags fuel p m l.length pt mt =
          some (.found ts'.length pt' mt') ∧
        Upto loc flags q mq sea' pt' mt' ∧ Ends sea' ∧ Reads loc flags pt' mt' (ts'.map .one) := by
  induction fuel generalizing p m sea pt mt l with
  | zero => omega
  | succ fuel ih =>
    rw [scanTail]
    by_cases hm : m = 0
    · subst hm
      rw [if_pos rfl]
      exact Or.inr ⟨sea, l, pt, mt, rfl, hsea, hends, p, 0, hts, by rw [patNext_zero]⟩
    rw [if_neg hm]
    have hend : (patNext loc flags p m).1 ≠ codeEnd := patNext_ne_end hloc h0 (by omega)
      (List.ne_nil_of_length_pos (by omega))
    obtain ⟨c, st, hnext⟩ : ∃ c st, patNext loc flags p m = (c, st) := ⟨_, _, rfl⟩
    rw [hnext] at hend
    simp only [hnext]
    by_cases hun : c = codeUnmatchable
    · rw [if_pos hun]
      exact Or.inl ⟨rfl, fun is => not_reads_of_unmatchable (by rw [hnext, hun])⟩
    rw [if_neg hun]
    have hc : IsToken c := ⟨hend, hun⟩
    have hst := hw.le hnext hc
    have hone := Upto.single hnext hc hst
    have h0' : 0 ∉ p.drop st := fun hmem => h0 (List.mem_of_mem_drop hmem)
    obtain ⟨-, -, -, -, -, hpos, -⟩ := patNext_cases hloc hnext hc
    have hnot : ∀ js, Reads loc flags p m js →
        ∃ is, Reads loc flags (p.drop st) (m - st) is := by
      intro js hjs
      obtain ⟨is, -, his⟩ := (reads_of_token hnext hc hst).mp hjs
      exact ⟨is, his⟩
    by_cases hstar : c = codeStar
    · rw [if_pos hstar]
      obtain rfl : st = 1 := patNext_star hloc (hstar ▸ hnext)
      rw [itemOf_star_iff.mpr hstar] at hone
      have hsea' := (hsea.trans hts).trans hone
      rcases ih (l := []) (by omega) h0' (by rw [List.length_drop]; omega) (hw.upto hone) hsea'
        (Or.inr ⟨_, rfl⟩) .refl with ⟨hr, hno⟩ | hr
      · exact Or.inl ⟨hr, fun js hjs => (hnot js hjs).elim hno⟩
      · exact Or.inr hr
    · rw [if_neg hstar]
      obtain ⟨t, -, ht, -⟩ := exists_test hloc h0 hnext hc hstar hst 0
      have hts' : Upto loc flags pt mt ((l ++ [t]).map .one) (p.drop st) (m - st) := by
        rw [List.map_append, List.map_singleton, ← ht]
        exact hts.trans hone
      have hlen : (l ++ [t]).length = l.length + 1 := by rw [List.length_append]; rfl
      rcases ih (by omega) h0' (by rw [List.length_drop]; omega) (hw.upto hone) hsea hends hts' with
        ⟨hr, hno⟩ | hr
      · exact Or.inl ⟨by rwa [hlen] at hr, fun js hjs => (hnot js hjs).elim hno⟩
      · exact Or.inr (by rwa [hlen] at hr)

theorem reads_nil_iff : Reads loc flags p m [] ↔ (patNext loc flags p m).1 = codeEnd := by
  constructor
  · rintro ⟨q, n, hup, hend⟩
    cases hup
    exact hend
  · exact fun hend => (reads_of_end hend).mpr rfl

/-- **The comparison of the tails.** -/
theorem matchTail_spec (hloc : loc.Utf8OrSingleByte) {ts : List Tok} (hfuel : ks.length < fuel) (h0 : 0 ∉ p)
    (hts : Reads loc flags p m (ts.map .one)) (hs : Decodes loc s ks) :
    ∃ v, matchTail loc flags fuel p m s = some v ∧
      (v = true ↔ List.Forall₂ (accepts loc flags) ts ks) := by
  induction fuel generalizing p m ts s ks with
  | zero => omega
  | succ fuel ih =>
    obtain ⟨c, st, hnext⟩ : ∃ c st, patNext loc flags p m = (c, st) := ⟨_, _, rfl⟩
    rw [matchTail]
    simp only [hnext]
    cases ts with
    | nil =>
      rw [List.map_nil, reads_nil_iff, hnext] at hts
      have hts : c = codeEnd := hts
      cases ks with
      | nil =>
        rw [hs.nil_inv]
        exact ⟨true, by rw [strNext_nil, if_pos (Int.le_refl 0), hts]; rfl, by simp⟩
      | cons k ks =>
        obtain ⟨sinc, hstr, hk, -⟩ := hs.cons_inv
        simp only [hstr]
        rw [if_neg (by omega), hts, test_end hloc hk]
        exact ⟨false, rfl, by simp⟩
    | cons t ts =>
      obtain ⟨q, n, hup, hend⟩ := hts
      obtain ⟨c', st', hnext', hc, hst, ht, hrest⟩ := hup.cons_cases
      rw [hnext] at hnext'
      obtain ⟨rfl, rfl⟩ := Prod.mk.inj hnext'
      have hstar : c ≠ codeStar := fun hstar => by
        rw [itemOf_star_iff.mpr hstar] at ht
        cases ht
      cases ks with
      | nil =>
        rw [hs.nil_inv]
        refine ⟨false, ?_, by simp⟩
        rw [strNext_nil, if_pos (Int.le_refl 0)]
        exact congrArg some (decide_eq_false hc.1)
      | cons k ks =>
        obtain ⟨sinc, hstr, hk, hsrest⟩ := hs.cons_inv
        obtain ⟨t', v, ht', htest, hv⟩ := exists_test hloc h0 hnext hc hstar hst k
        have hv := hv (isInt_strNext hloc hstr)
        rw [ht', Item.one.injEq] at ht
        subst ht
        simp only [hstr]
        rw [if_neg (by omega), htest, List.forall₂_cons, ← hv]
        cases v with
        | false => exact ⟨false, rfl, by simp⟩
        | true =>
          obtain ⟨v, hr, hv⟩ := ih (by rw [List.length_cons] at hfuel; omega)
            (fun hmem => h0 (List.mem_of_mem_drop hmem)) ⟨q, n, hrest, hend⟩ hsrest
          exact ⟨v, hr, by rw [hv]; simp⟩

/-! ## The components -/

/-- **An attempt** finds the component at the front, or sees that it is not there, or that the string
is too short for it. -/
theorem attempt_spec (hloc : loc.Utf8OrSingleByte) {pe : Str} {cs : List Tok} {rest : List (Item Tok)}
    (hfuel : ks.length < fuel) (h0 : 0 ∉ p)
    (hup : Upto loc flags p m (cs.map .one ++ .star :: rest) pe 0) (hs : Decodes loc s ks) :
    (∃ p' m' s', attempt loc flags fuel p m s = some (.commit p' m' s') ∧
        Begins (accepts loc flags) cs ks ∧ Upto loc flags p m (cs.map .one ++ [.star]) p' m' ∧
        Upto loc flags p' m' rest pe 0 ∧ Decodes loc s' (ks.drop cs.length)) ∨
      (attempt loc flags fuel p m s = some .nomatch ∧ ks.length < cs.length) ∨
      (attempt loc flags fuel p m s = some .fail ∧ ¬Begins (accepts loc flags) cs ks ∧ ks ≠ []) := by
  induction fuel generalizing p m cs s ks with
  | zero => omega
  | succ fuel ih =>
    rw [attempt]
    cases cs with
    | nil =>
      obtain ⟨c, st, hnext, hc, hst, hitem, hrest⟩ := hup.cons_cases
      have hstar : c = codeStar := itemOf_star_iff.mp hitem.symm
      simp only [hnext]
      rw [if_pos hstar]
      refine Or.inl ⟨_, _, s, rfl, .nil, ?_, hrest, hs⟩
      have hone := Upto.single hnext hc hst
      rwa [itemOf_star_iff.mpr hstar] at hone
    | cons t cs =>
      obtain ⟨c, st, hnext, hc, hst, hitem, hrest⟩ := hup.cons_cases
      have hstar : c ≠ codeStar := fun hstar => by
        rw [itemOf_star_iff.mpr hstar] at hitem
        cases hitem
      simp only [hnext]
      rw [if_neg hstar]
      cases ks with
      | nil =>
        rw [hs.nil_inv]
        exact Or.inr (Or.inl ⟨by rw [strNext_nil, if_pos rfl], Nat.succ_pos _⟩)
      | cons k ks =>
        obtain ⟨sinc, hstr, hk, hsrest⟩ := hs.cons_inv
        obtain ⟨t', v, ht', htest, hv⟩ := exists_test hloc h0 hnext hc hstar hst k
        have hv := hv (isInt_strNext hloc hstr)
        have ht := hitem
        rw [ht', Item.one.injEq] at ht
        subst ht
        have hbegins : Begins (accepts loc flags) (t :: cs) (k :: ks) ↔
            v = true ∧ Begins (accepts loc flags) cs ks := by
          rw [Begins, List.length_cons, List.take_succ_cons, List.forall₂_cons, hv]
          rfl
        simp only [hstr]
        rw [if_neg (by omega), htest, hbegins]
        cases v with
        | false => exact Or.inr (Or.inr ⟨rfl, fun hb => absurd hb.1 (by decide), by simp⟩)
        | true =>
          have hone := Upto.single hnext hc hst
          rw [ht'] at hone
          rcases ih (by rw [List.length_cons] at hfuel; omega)
            (fun hmem => h0 (List.mem_of_mem_drop hmem)) hrest hsrest with
            ⟨p', m', s', hr, hb, hto, hup', hs'⟩ | ⟨hr, hlen⟩ | ⟨hr, hb, -⟩
          · exact Or.inl ⟨p', m', s', hr, ⟨rfl, hb⟩, hone.trans hto, hup', hs'⟩
          · exact Or.inr (Or.inl ⟨hr, Nat.succ_lt_succ hlen⟩)
          · exact Or.inr (Or.inr ⟨hr, fun hb' => hb hb'.2, by simp⟩)

/-- What ends in a star is a component, a star, and the rest. -/
theorem Ends.cases {sea : List (Item Tok)} (h : Ends sea) :
    sea = [] ∨ ∃ (cs : List Tok) (rest : List (Item Tok)),
      sea = cs.map .one ++ .star :: rest ∧ Ends rest := by
  rcases h with rfl | ⟨x, rfl⟩
  · exact Or.inl rfl
  · refine Or.inr ?_
    induction x with
    | nil => exact ⟨[], [], rfl, Or.inl rfl⟩
    | cons i x ih =>
      cases i with
      | star => exact ⟨[], x ++ [.star], rfl, Or.inr ⟨x, rfl⟩⟩
      | one t =>
        obtain ⟨cs, rest, heq, hends⟩ := ih
        exact ⟨t :: cs, rest, by rw [List.cons_append, heq]; rfl, hends⟩

/-- **The search for the components.** -/
theorem matchSea_spec (hloc : loc.Utf8OrSingleByte) {pe : Str} {sea : List (Item Tok)}
    (hfuel : sea.length + ks.length < fuel) (h0 : 0 ∉ pat)
    (hup : Upto loc flags pat m sea pe 0) (hends : Ends sea) (hs : Decodes loc s ks) :
    Answers (matchSea loc flags fuel pat m s)
      (Matches (accepts loc flags) (.star :: sea) ks) := by
  induction fuel generalizing pat m sea s ks with
  | zero => omega
  | succ fuel ih =>
    rw [matchSea]
    rcases hends.cases with rfl | ⟨cs, rest, rfl, hrest⟩
    · cases hup
      rw [if_pos rfl]
      exact .yes rfl matches_star_singleton
    rw [List.length_append, List.length_map, List.length_cons] at hfuel
    have hm : m ≠ 0 := by
      rintro rfl
      rw [← List.singleton_append, ← List.append_assoc] at hup
      obtain ⟨q, k, hq, -⟩ := hup.split
      have hk := Nat.le_zero.mp hq.le
      subst hk
      cases cs with
      | nil =>
        obtain ⟨c, st, hnext, hc, -⟩ := hq.cons_cases
        rw [patNext_zero] at hnext
        exact hc.1 (Prod.mk.inj hnext).1.symm
      | cons t cs =>
        obtain ⟨c, st, hnext, hc, -⟩ := hq.cons_cases
        rw [patNext_zero] at hnext
        exact hc.1 (Prod.mk.inj hnext).1.symm
    rw [if_neg hm]
    have hlen := hs.length_le hloc
    rcases attempt_spec hloc (by omega : ks.length < s.length + 1) h0 hup hs with
      ⟨p', m', s', hr, hb, hto, hup', hs'⟩ | ⟨hr, hlt⟩ | ⟨hr, hb, hne⟩
    · rw [hr]
      refine (ih ?_ (hto.notMem h0) hup' hrest hs').congr (matches_component_here hb).symm
      rw [List.length_drop]
      omega
    · rw [hr]
      exact .no rfl (not_matches_of_length_lt hlt)
    · rw [hr]
      cases ks with
      | nil => exact absurd rfl hne
      | cons k ks =>
        obtain ⟨sinc, hstr, hk, hsrest⟩ := hs.cons_inv
        simp only [hstr]
        rw [if_pos hk]
        refine (ih ?_ h0 hup (Or.elim hrest (fun h => ?_) fun h => ?_) hsrest).congr
          (matches_component_later hb).symm
        · rw [List.length_append, List.length_map, List.length_cons]
          rw [List.length_cons] at hfuel
          omega
        · exact Or.inr ⟨cs.map .one, by rw [h]⟩
        · obtain ⟨x, rfl⟩ := h
          exact Or.inr ⟨cs.map .one ++ .star :: x, by simp⟩

/-! ## The whole -/

theorem Upto.length_le (hloc : loc.Utf8OrSingleByte) (h : Upto loc flags pat m is p n) :
    is.length + n ≤ m := by
  induction h with
  | refl => rw [List.length_nil, Nat.zero_add]
  | step hnext hc hst _ ih =>
    obtain ⟨-, -, -, -, -, hpos, -⟩ := patNext_cases hloc hnext hc
    rw [List.length_cons]
    omega

/-- **Behind the first star**: the tail is compared with the end, and the components are searched in
what is left. -/
theorem matchStars_spec (hloc : loc.Utf8OrSingleByte) (h0 : 0 ∉ pat) (hle : m ≤ pat.length)
    (hw : Whole loc flags pat m) (hs : Decodes loc s ks) :
    Answers (matchStars loc flags pat m s) (Accepted loc flags [.star] pat m ks) := by
  unfold matchStars
  rcases scanTail_spec (l := []) hloc (Nat.lt_succ_self m) h0 hle hw .refl (Or.inl rfl) .refl with
    ⟨hr, hno⟩ | ⟨sea, ts, pt, mt, hr, hsea, hends, hts⟩
  · rw [List.length_nil] at hr
    rw [hr]
    exact .no rfl fun ⟨is, hreads, _⟩ => hno is hreads
  rw [List.length_nil] at hr
  rw [hr]
  have hacc : Accepted loc flags [.star] pat m ks ↔
      ts.length ≤ ks.length ∧
        Matches (accepts loc flags) (.star :: sea) (ks.take (ks.length - ts.length)) ∧
        List.Forall₂ (accepts loc flags) ts (ks.drop (ks.length - ts.length)) := by
    rw [← matches_append_ones]
    constructor
    · rintro ⟨is, hreads, hm⟩
      rwa [hreads.unique (hsea.reads hts), List.singleton_append] at hm
    · exact fun hm => ⟨_, hsea.reads hts, hm⟩
  have hlen := hs.length_le hloc
  by_cases hshort : ks.length < ts.length
  · -- then the way back ends at the front
    refine .no ?_ fun h => by have := (hacc.mp h).1; omega
    show (if s.length < ts.length then some fnmNomatch else _) = some fnmNomatch
    split
    · rfl
    · obtain ⟨es, hes, heslen, hchar⟩ := hs.exists_chars hloc
      have hback := walkBack_chars (x := []) (y := []) hchar (ts.length - es.length)
      have hback : walkBack loc s ts.length s.length = (0, ts.length - es.length) := by
        rw [List.nil_append, List.append_nil, ← hes, Nat.add_sub_cancel' (by omega)] at hback
        rw [hback]
        obtain ⟨d, hd⟩ : ∃ d, ts.length - es.length = d + 1 := ⟨ts.length - es.length - 1, by omega⟩
        rw [hd]
        rfl
      rw [hback]
      exact if_pos (by show ts.length - es.length ≠ 0; omega)
  · obtain ⟨a, b, rfl, ha, hb⟩ := hs.split hloc (Nat.sub_le ks.length ts.length)
    obtain ⟨es, hes, heslen, hchar⟩ := hb.exists_chars hloc
    have hback : walkBack loc (a ++ b) ts.length (a ++ b).length = (a.length, 0) := by
      have hback := walkBack_chars (x := a) (y := []) hchar 0
      rw [List.append_nil, Nat.add_zero, ← hes, heslen, List.length_drop,
        Nat.sub_sub_self (by omega)] at hback
      rw [hback]
      cases a <;> rfl
    show Answers (if (a ++ b).length < ts.length then some fnmNomatch else _) _
    rw [if_neg (by omega), hback, if_neg (fun h : 0 ≠ 0 => h rfl), List.drop_left, List.take_left]
    have htail : (ks.drop (ks.length - ts.length)).length < (a ++ b).length + 1 := by
      rw [List.length_drop]
      omega
    obtain ⟨v, hv, hiff⟩ := matchTail_spec hloc htail (hsea.notMem h0) hts hb
    rw [hv]
    cases v with
    | false => exact .no rfl fun h => absurd (hiff.mpr (hacc.mp h).2.2) (by decide)
    | true =>
      have hcut := hsea.shorter hloc (Nat.le_refl mt)
      rw [Nat.sub_self] at hcut
      refine (matchSea_spec hloc ?_ h0 hcut hends ha).congr ?_
      · have := hsea.length_le hloc
        rw [List.length_take]
        omega
      · rw [hacc]
        exact ⟨fun h => ⟨by omega, h, hiff.mp rfl⟩, fun h => h.2.1⟩

/-- A period in front, which a pattern has to show as such when `FNM_PERIOD` is set. -/
def Hidden (flags : BitVec 32) (is : List (Item Tok)) (ks : List ℤ) : Prop :=
  has flags fnmPeriod = true ∧ ks.head? = some (period.toNat : ℤ) ∧
    is.head? ≠ some (.one (.lit period.toNat true))

/-- **What a component accepts.** -/
def Component (loc : Locale) (flags : BitVec 32) (is : List (Item Tok)) (ks : List ℤ) : Prop :=
  ¬Hidden flags is ks ∧ Matches (accepts loc flags) is ks

/-- A string begins with a period exactly if its first character is one. -/
theorem head?_period_iff (hloc : loc.Utf8OrSingleByte) (hs : Decodes loc s ks) :
    s.head? = some period ↔ ks.head? = some (period.toNat : ℤ) := by
  cases hs with
  | nil => simp
  | @cons s k st ks hs hk _ =>
    cases s with
    | nil =>
      rw [strNext_nil, Prod.mk.injEq] at hs
      omega
    | cons c q =>
      rw [strNext] at hs
      rw [List.head?_cons, List.head?_cons, Option.some_inj, Option.some_inj]
      split at hs
      · rename_i hc
        split at hs
        · rw [Prod.mk.injEq] at hs
          omega
        · rename_i wc l hmb
          obtain ⟨rfl, rfl⟩ := Prod.mk.inj hs
          have hwide := (hloc.wide _ _ _ _ hc hmb).1
          constructor
          · rintro rfl
            exact absurd hc (by decide)
          · rintro rfl
            exact absurd hwide (by decide)
      · obtain ⟨rfl, rfl⟩ := Prod.mk.inj hs
        rw [Int.ofNat_inj, UInt8.toNat_inj]

theorem patNext_period (q : Str) (n : ℕ) :
    patNext loc flags (period :: q) (n + 1) = ((period.toNat : ℤ), 1) := by
  rw [patNext_cons, if_neg (fun h => absurd h.1 (by decide)), if_neg (by decide),
    if_neg (by decide), if_neg (by decide), patChar, if_neg (by decide)]

/-- The first token of a pattern is a plain period exactly if the first byte is one. -/
theorem itemOf_period_iff (hloc : loc.Utf8OrSingleByte) {a : UInt8} {q : Str}
    (h : patNext loc flags (a :: q) (n + 1) = (c, st)) (hc : IsToken c) :
    a = period ↔ itemOf (a :: q) c st = .one (.lit period.toNat true) := by
  constructor
  · rintro rfl
    rw [patNext_period] at h
    obtain ⟨rfl, rfl⟩ := Prod.mk.inj h
    rfl
  · intro hi
    have hcode : c = (period.toNat : ℤ) ∧ a ≠ backslash := by
      unfold itemOf at hi
      split_ifs at hi
      · cases hi
      · cases hi
      · rw [Item.one.injEq, Tok.lit.injEq, decide_eq_true_eq, List.head?_cons] at hi
        exact ⟨hi.1, fun ha => hi.2 (by rw [ha])⟩
    obtain ⟨rfl, ha⟩ := hcode
    rw [patNext_cons, if_neg (fun h => ha h.1)] at h
    split at h
    · split at h
      · exact absurd (Prod.mk.inj h).1 (by decide)
      · exact absurd (Prod.mk.inj h).1 (by decide)
    split at h
    · exact absurd (Prod.mk.inj h).1 (by decide)
    split at h
    · exact absurd (Prod.mk.inj h).1 (by decide)
    · obtain ⟨b, r, hbr, ⟨-, hb, -⟩ | ⟨k, -, -, -, -, -, hwide⟩⟩ :=
        patChar_cases hloc (Nat.succ_pos n) h hc
      · rw [(List.cons.inj hbr).1]
        exact (UInt8.toNat_inj.mp (Int.ofNat_inj.mp hb)).symm
      · exact absurd hwide (by decide)

/-- A pattern begins with a period exactly if its first item is a plain one. -/
theorem head?_pattern_iff (hloc : loc.Utf8OrSingleByte) (h0 : 0 ∉ pat) (hle : m ≤ pat.length)
    (hm : m = 0 → pat.head? ≠ some period) (h : Reads loc flags pat m is) :
    pat.head? = some period ↔ is.head? = some (.one (.lit period.toNat true)) := by
  obtain ⟨p, n, hup, hend⟩ := h
  cases hup with
  | refl =>
    have hm0 : m = 0 := by
      by_contra hpos
      exact patNext_ne_end hloc h0 (by omega) (List.ne_nil_of_length_pos (by omega)) hend
    exact ⟨fun hp => absurd hp (hm hm0), fun hp => by cases hp⟩
  | @step _ _ c st is _ _ hnext hc hst hrest =>
    obtain ⟨a, q, n, rfl, rfl, -⟩ := patNext_cases hloc hnext hc
    rw [List.head?_cons, List.head?_cons, Option.some_inj, Option.some_inj]
    exact itemOf_period_iff hloc hnext hc

/-- **`fnmatch_internal` answers whether the pattern matches**: it always comes to an end and never
reads behind the terminator, and `0` means that the pattern reads as items that accept the characters
of the string. -/
theorem fnmatchInternal_answers (hloc : loc.Utf8OrSingleByte) (h0 : 0 ∉ pat) (hle : m ≤ pat.length)
    (hm : m = 0 → pat.head? ≠ some period) (hw : Whole loc flags pat m) (hs : Decodes loc s ks) :
    Answers (fnmatchInternal loc flags pat m s)
      (∃ is, Reads loc flags pat m is ∧ Component loc flags is ks) := by
  unfold fnmatchInternal
  by_cases hhid : has flags fnmPeriod ∧ s.head? = some period ∧ pat.head? ≠ some period
  · rw [if_pos hhid]
    refine .no rfl ?_
    rintro ⟨is, hreads, hnot, -⟩
    exact hnot ⟨hhid.1, (head?_period_iff hloc hs).mp hhid.2.1,
      fun hi => hhid.2.2 ((head?_pattern_iff hloc h0 hle hm hreads).mpr hi)⟩
  rw [if_neg hhid]
  have hacc : Accepted loc flags [] pat m ks ↔
      ∃ is, Reads loc flags pat m is ∧ Component loc flags is ks := by
    constructor
    · rintro ⟨is, hreads, hmatch⟩
      refine ⟨is, hreads, fun hh => hhid ⟨hh.1, (head?_period_iff hloc hs).mpr hh.2.1, fun hp => ?_⟩,
        hmatch⟩
      exact hh.2.2 ((head?_pattern_iff hloc h0 hle hm hreads).mp hp)
    · rintro ⟨is, hreads, -, hmatch⟩
      exact ⟨is, hreads, hmatch⟩
  rcases matchHead_spec hloc (Nat.lt_succ_self m) h0 hw hs with ⟨r, hr, ha⟩ |
    ⟨is, p, n, s', ks', hr, hup, hs', ha⟩
  · rw [hr]
    exact ha.congr hacc
  · rw [hr]
    have hlen := hup.length_eq hle
    have hmin : min n p.length = n := Nat.min_eq_left (by omega)
    show Answers (matchStars loc flags p (min n p.length) s') _
    rw [hmin]
    exact ((matchStars_spec hloc (hup.notMem h0) (by omega) (hw.upto hup) hs').congr ha.symm).congr
      hacc

end Fnmatch
end UtilWin
