import UtilWin.Regex.Fnmatch

/-!
# Bracket expressions

A bracket expression is a list of elements, and whether it is negated (`bracketOf`).  `match_bracket`
answers whether one of the elements is there for the character, and does not stop before it has looked
at all of them otherwise (`matchBracket_of_bracketOf`).  That a range has the characters from its first to its
last one (`Elem.Has`) is what its unsigned comparison comes to (`inRange_iff`).

It has no end of its own to look at: it runs until it sees a `]`, and takes classes and ranges in steps
that `pat_next` does not take.  It nevertheless stops at the `]` that `pat_next` has found, and looks at
nothing behind it (`exists_bracketOf`).

After a range it goes on at the last byte of the end of the range.  For an ASCII character this only
looks at that character once more.  The last byte of a longer character is not a character, and there
`match_bracket` gives up: what follows such a range is not looked at, and a negated expression accepts
nothing (`elements_wide_range`).
-/

namespace UtilWin
namespace Fnmatch

open Glob

/-- The range of `int`. -/
def IsInt (c : ℤ) : Prop := -0x80000000 ≤ c ∧ c < 0x80000000

/-- The documented behaviour of the functions of the locale, for UTF-8 and for encodings in which every byte
is a character.  A double-byte code page such as 936 is none of them: there the last byte of a character can be
a `]`. -/
structure Locale.Utf8OrSingleByte (loc : Locale) : Prop where
  ascii : ∀ c t, c < 128 → c ≠ 0 → loc.mbtowc (c :: t) = some ((c.toNat : ℤ), 1)
  wide : ∀ c t wc k, 128 ≤ c → loc.mbtowc (c :: t) = some (wc, k) →
    128 ≤ wc ∧ 1 ≤ k ∧ k ≤ t.length + 1
  /-- The bytes of a character behind its first one are continuation bytes. -/
  trail : ∀ c t wc k, 128 ≤ c → loc.mbtowc (c :: t) = some (wc, k) →
    ∀ b ∈ t.take (k - 1), isContinuation b = true
  /-- Where characters have more than one byte, the first one is not a continuation byte. -/
  lead : ∀ c t wc k, 128 ≤ c → loc.mbtowc (c :: t) = some (wc, k) →
    if loc.mbCurMax = 1 then k = 1 else isContinuation c = false
  /-- A character is told by its own bytes. -/
  own : ∀ t wc k u, loc.mbtowc t = some (wc, k) → t.take k <+: u → loc.mbtowc u = some (wc, k)
  fold : ∀ k, 0 < k → 0 < loc.towupper k ∧ 0 < loc.towlower k
  int : ∀ t wc k, loc.mbtowc t = some (wc, k) → IsInt wc
  foldInt : ∀ k, IsInt k → IsInt (loc.towupper k) ∧ IsInt (loc.towlower k)

variable {loc : Locale}

theorem isContinuation_ge {b : UInt8} (hb : isContinuation b = true) : 128 ≤ b := by
  simp only [isContinuation, decide_eq_true_eq] at hb
  exact hb.1

theorem isInt_byte (c : UInt8) : IsInt c.toNat := by
  have hc := c.toNat_lt
  exact ⟨by omega, by omega⟩

/-- All bytes of a character that is not ASCII are not ASCII. -/
theorem Locale.Utf8OrSingleByte.ge_of_mem (hloc : loc.Utf8OrSingleByte) {c : UInt8} {t : Str}
    {wc : ℤ} {k : ℕ} (hc : 128 ≤ c) (h : loc.mbtowc (c :: t) = some (wc, k)) : ∀ b ∈ (c :: t).take k, 128 ≤ b := by
  obtain ⟨-, hk, -⟩ := hloc.wide c t wc k hc h
  obtain ⟨k, rfl⟩ := Nat.exists_eq_add_of_le' hk
  intro b hb
  rw [List.take_succ_cons, List.mem_cons] at hb
  rcases hb with rfl | hb
  · exact hc
  · exact isContinuation_ge (hloc.trail c t wc _ hc h b hb)

/-- The locale in which the ASCII bytes are the characters. -/
def ascii : Locale where
  mbtowc
    | [] => none
    | c :: _ => if c < 128 then some (c.toNat, 1) else none
  mbCurMax := 1
  towupper k := if 0x61 ≤ k ∧ k ≤ 0x7a then k - 0x20 else k
  towlower k := if 0x41 ≤ k ∧ k ≤ 0x5a then k + 0x20 else k
  iswctype k name := name = [0x64, 0x69, 0x67, 0x69, 0x74] ∧ 0x30 ≤ k ∧ k ≤ 0x39

theorem ascii_eq_some {c : UInt8} {t : Str} {wc : ℤ} {k : ℕ}
    (h : ascii.mbtowc (c :: t) = some (wc, k)) : c < 128 ∧ wc = c.toNat ∧ k = 1 := by
  have h : (if c < 128 then some ((c.toNat : ℤ), 1) else none) = some (wc, k) := h
  split at h
  · rw [Option.some_inj, Prod.mk.injEq] at h
    exact ⟨‹_›, h.1.symm, h.2.symm⟩
  · cases h

theorem ascii_utf8OrSingleByte : ascii.Utf8OrSingleByte where
  ascii c t hc _ := if_pos hc
  wide c t wc k hc h := absurd (ascii_eq_some h).1 (UInt8.not_lt.mpr hc)
  trail c t wc k hc h := absurd (ascii_eq_some h).1 (UInt8.not_lt.mpr hc)
  lead c t wc k hc h := absurd (ascii_eq_some h).1 (UInt8.not_lt.mpr hc)
  own t wc k u h hu := by
    cases t with
    | nil => cases h
    | cons c t =>
      obtain ⟨hc, rfl, rfl⟩ := ascii_eq_some h
      obtain ⟨v, rfl⟩ := hu
      exact if_pos hc
  fold k hk := by
    show 0 < (if 0x61 ≤ k ∧ k ≤ 0x7a then k - 0x20 else k) ∧
      0 < (if 0x41 ≤ k ∧ k ≤ 0x5a then k + 0x20 else k)
    constructor <;> split <;> omega
  int t wc k h := by
    cases t with
    | nil => cases h
    | cons c t =>
      obtain ⟨-, rfl, -⟩ := ascii_eq_some h
      exact isInt_byte c
  foldInt k hk := by
    show IsInt (if 0x61 ≤ k ∧ k ≤ 0x7a then k - 0x20 else k) ∧
      IsInt (if 0x41 ≤ k ∧ k ≤ 0x5a then k + 0x20 else k)
    unfold IsInt at hk ⊢
    constructor <;> split <;> omega

/-! ## Strings that agree -/

/-- The first `n` bytes are the same. -/
def Agree (n : ℕ) (u q : Str) : Prop := u.take n = q.take n

section

variable {m n : ℕ} {u q : Str} {c : UInt8}

theorem Agree.symm (h : Agree n u q) : Agree n q u := Eq.symm h

theorem Agree.mono (h : Agree n u q) (hmn : m ≤ n) : Agree m u q := by
  have := congrArg (List.take m) h
  rwa [List.take_take, List.take_take, Nat.min_eq_left hmn] at this

theorem Agree.drop (a : ℕ) (h : Agree (a + n) u q) : Agree n (u.drop a) (q.drop a) := by
  have := congrArg (List.drop a) h
  rwa [List.drop_take, List.drop_take, Nat.add_sub_cancel_left] at this

theorem Agree.exists_cons (h : Agree (n + 1) u (c :: q)) : ∃ t, u = c :: t ∧ Agree n t q := by
  cases u with
  | nil => cases h
  | cons d t =>
    rw [Agree, List.take_succ_cons, List.take_succ_cons, List.cons.injEq] at h
    exact ⟨t, by rw [h.1], h.2⟩

theorem Agree.head? (h : Agree (n + 1) u q) : u.head? = q.head? := by
  cases u <;> cases q <;> simp_all [Agree]

theorem Agree.getElem? (h : Agree n u q) {i : ℕ} (hi : i < n) : u[i]? = q[i]? := by
  have := congrArg (·[i]?) h
  simpa [hi] using this

theorem agree_take (h : m ≤ n) (q : Str) : Agree m (q.take n) q := by
  rw [Agree, List.take_take, Nat.min_eq_left h]

end

/-! ## The end of a bracket expression -/

theorem bracketScan_close (q : Str) : bracketScan none (bracketClose :: q) = some 0 := by
  rw [bracketScan.eq_def]
  exact if_pos rfl

theorem bracketScan_cons {c : UInt8} {q : Str} (hclose : c ≠ bracketClose)
    (hopen : ¬(c = bracketOpen ∧ q.head?.any isMark)) :
    bracketScan none (c :: q) = (bracketScan none q).map (· + 1) := by
  rw [bracketScan.eq_def]
  exact (if_neg hclose).trans (if_neg hopen)

/-- Inside a class the scan goes to the end of the class, and on from there. -/
theorem bracketScan_class (z prev : UInt8) (q : Str) :
    bracketScan (some (z, prev)) q =
      (classScan z prev q).bind fun n => (bracketScan none (q.drop (n + 1))).map (· + n + 1) := by
  induction q generalizing prev with
  | nil => rfl
  | cons c q ih =>
    rw [bracketScan, classScan]
    split
    · rfl
    · rw [ih, Option.map_bind, Option.bind_map]
      congr 1
      funext n
      rw [Function.comp_apply, Function.comp_apply, Option.map_map, List.drop_succ_cons]
      rfl

/-- A class that is closed is passed over. -/
theorem bracketScan_open {z : UInt8} {q : Str} {j : ℕ} (hz : isMark z = true)
    (h : bracketScan none (bracketOpen :: z :: q) = some j) :
    ∃ a r n i, q = a :: r ∧ classScan z a r = some n ∧ bracketScan none (r.drop (n + 1)) = some i ∧
      j = i + n + 4 := by
  rw [bracketScan.eq_def] at h
  have h := (if_neg (by decide)).symm.trans h
  have h := (if_pos ⟨rfl, hz⟩).symm.trans h
  cases q with
  | nil => cases h
  | cons a r =>
    obtain ⟨j', hj, rfl⟩ := Option.map_eq_some_iff.mp h
    rw [bracketScan_class] at hj
    obtain ⟨n, hn, hj⟩ := Option.bind_eq_some_iff.mp hj
    obtain ⟨i, hi, rfl⟩ := Option.map_eq_some_iff.mp hj
    exact ⟨a, r, n, i, rfl, hn, hi, rfl⟩

/-- **What a scan that finds the end has in front of it**: the `]`, a class, or another byte. -/
theorem bracketScan_cases {c : UInt8} {q : Str} {j : ℕ} (h : bracketScan none (c :: q) = some j) :
    (c = bracketClose ∧ j = 0) ∨
      (c = bracketOpen ∧ ∃ z a r n i, q = z :: a :: r ∧ isMark z = true ∧
        classScan z a r = some n ∧ bracketScan none (r.drop (n + 1)) = some i ∧ j = i + n + 4) ∨
      (c ≠ bracketClose ∧ ¬(c = bracketOpen ∧ q.head?.any isMark) ∧
        ∃ i, bracketScan none q = some i ∧ j = i + 1) := by
  by_cases hclose : c = bracketClose
  · subst hclose
    rw [bracketScan_close] at h
    cases h
    exact Or.inl ⟨rfl, rfl⟩
  by_cases hopen : c = bracketOpen ∧ q.head?.any isMark
  · obtain ⟨rfl, hz⟩ := hopen
    cases q with
    | nil => cases hz
    | cons z q =>
      have hz : isMark z = true := by simpa using hz
      obtain ⟨a, r, n, i, rfl, hn, hi, rfl⟩ := bracketScan_open hz h
      exact Or.inr (Or.inl ⟨rfl, z, a, r, n, i, rfl, hz, hn, hi, rfl⟩)
  · rw [bracketScan_cons hclose hopen] at h
    obtain ⟨i, hi, rfl⟩ := Option.map_eq_some_iff.mp h
    exact Or.inr (Or.inr ⟨hclose, hopen, i, hi, rfl⟩)

theorem classScan_stable {z a : UInt8} {r u : Str} {n : ℕ} (h : classScan z a r = some n)
    (hu : Agree (n + 1) u r) : classScan z a u = some n := by
  induction r generalizing a n u with
  | nil => cases h
  | cons c r ih =>
    obtain ⟨t, rfl, ht⟩ := hu.exists_cons
    rw [classScan] at h ⊢
    split at h
    · cases h
      rw [if_pos ‹_›]
    · obtain ⟨n, hn, rfl⟩ := Option.map_eq_some_iff.mp h
      rw [if_neg ‹_›, ih hn ht]
      rfl

/-- The scan looks at nothing behind the `]`. -/
theorem bracketScan_stable {q u : Str} {j : ℕ} (h : bracketScan none q = some j)
    (hu : Agree (j + 1) u q) : bracketScan none u = some j := by
  induction hl : q.length using Nat.strong_induction_on generalizing q u j with
  | _ l ih =>
    cases q with
    | nil => cases h
    | cons c q =>
      obtain ⟨t, rfl, ht⟩ := hu.exists_cons
      rcases bracketScan_cases h with ⟨rfl, rfl⟩ | ⟨rfl, z, a, r, n, i, rfl, hz, hn, hi, rfl⟩ |
        ⟨hclose, hopen, i, hi, rfl⟩
      · exact bracketScan_close _
      · obtain ⟨t₁, rfl, ht₁⟩ := ht.exists_cons
        obtain ⟨t₂, rfl, ht₂⟩ := ht₁.exists_cons
        have hstep := ih (r.drop (n + 1)).length
          (by simp only [List.length_drop, List.length_cons] at hl ⊢; omega) hi
          ((ht₂.mono (by omega : n + 1 + (i + 1) ≤ _)).drop (n + 1)) rfl
        rw [bracketScan.eq_def]
        refine (if_neg (by decide)).trans ((if_pos ⟨rfl, by simpa using hz⟩).trans ?_)
        show Option.map _ (bracketScan (some (z, a)) t₂) = _
        rw [bracketScan_class, classScan_stable hn (ht₂.mono (by omega)), Option.bind_some, hstep]
        rfl
      · rw [bracketScan_cons hclose (by rwa [ht.head?]),
          ih q.length (by rw [← hl]; exact Nat.lt_succ_self _) hi ht rfl]
        rfl

/-- The `]` that the scan has found is there. -/
theorem getElem?_of_bracketScan {q : Str} {j : ℕ} (h : bracketScan none q = some j) :
    q[j]? = some bracketClose := by
  induction hl : q.length using Nat.strong_induction_on generalizing q j with
  | _ l ih =>
    cases q with
    | nil => cases h
    | cons c q =>
      rcases bracketScan_cases h with ⟨rfl, rfl⟩ | ⟨rfl, z, a, r, n, i, rfl, hz, hn, hi, rfl⟩ |
        ⟨hclose, hopen, i, hi, rfl⟩
      · rfl
      · have := ih (r.drop (n + 1)).length
          (by simp only [List.length_drop, List.length_cons] at hl ⊢; omega) hi rfl
        rw [List.getElem?_drop] at this
        rw [← this, show i + n + 4 = (n + 1 + i) + 1 + 1 + 1 by omega]
        rfl
      · exact @ih q.length (by rw [← hl]; exact Nat.lt_succ_self _) q i hi rfl

/-- The scan passes over bytes that are not ASCII. -/
theorem bracketScan_drop {q : Str} {i j : ℕ} (hq : ∀ b ∈ q.take i, 128 ≤ b)
    (h : bracketScan none q = some j) : i ≤ j ∧ bracketScan none (q.drop i) = some (j - i) := by
  induction i generalizing q j with
  | zero => exact ⟨Nat.zero_le j, h⟩
  | succ i ih =>
    cases q with
    | nil => cases h
    | cons c q =>
      rw [List.take_succ_cons, List.forall_mem_cons] at hq
      obtain ⟨hc, hq⟩ := hq
      rcases bracketScan_cases h with ⟨rfl, rfl⟩ | ⟨rfl, -⟩ | ⟨-, -, j, hj, rfl⟩
      · exact absurd hc (by decide)
      · exact absurd hc (by decide)
      · obtain ⟨hij, hscan⟩ := ih hq hj
        refine ⟨Nat.succ_le_succ hij, ?_⟩
        rw [List.drop_succ_cons, hscan, Nat.add_sub_add_right]

/-! ## Decoding inside a bracket expression -/

/-- A character in front of a `]` ends before it. -/
theorem Locale.Utf8OrSingleByte.le_of_close (hloc : loc.Utf8OrSingleByte) {d : UInt8} {t : Str}
    {j k : ℕ} {wc : ℤ} (hd : d ≠ 0) (hj : t[j]? = some bracketClose)
    (h : loc.mbtowc ((d :: t).take 4) = some (wc, k)) :
    1 ≤ k ∧ k ≤ j + 1 ∧ ∀ b ∈ (d :: t).take (k - 1), 128 ≤ b := by
  rw [List.take_succ_cons] at h
  by_cases hlt : d < 128
  · rw [hloc.ascii _ _ hlt hd] at h
    cases h
    exact ⟨Nat.le_refl 1, by omega, by simp⟩
  · have hge : 128 ≤ d := UInt8.not_lt.mp hlt
    have hmem := hloc.ge_of_mem hge h
    obtain ⟨-, hk, hlen⟩ := hloc.wide _ _ _ _ hge h
    refine ⟨hk, Nat.le_of_not_lt fun hlt => ?_, fun b hb => hmem b ?_⟩
    · -- otherwise the `]` would be one of the bytes of the character
      rw [List.length_take] at hlen
      have : bracketClose ∈ (d :: List.take 3 t).take k := by
        refine List.mem_iff_getElem?.mpr ⟨j + 1, ?_⟩
        rw [List.getElem?_take_of_lt hlt, List.getElem?_cons_succ,
          List.getElem?_take_of_lt (by omega), hj]
      exact absurd (hmem _ this) (by decide)
    · rw [← List.take_succ_cons, List.take_take]
      refine List.mem_of_mem_take (i := k - 1) ?_
      rwa [List.take_take, Nat.min_eq_left]
      rw [List.length_take] at hlen
      omega

/-- A character in front of a `]` is decoded from the bytes before the `]`. -/
theorem Locale.Utf8OrSingleByte.mbtowc_agree (hloc : loc.Utf8OrSingleByte) {d : UInt8} {t u : Str} {j : ℕ}
    (hd : d ≠ 0) (hj : t[j]? = some bracketClose) (hu : Agree (j + 2) u (d :: t)) :
    loc.mbtowc (u.take 4) = loc.mbtowc ((d :: t).take 4) := by
  obtain ⟨t', rfl, ht⟩ := hu.exists_cons
  have hj' : t'[j]? = some bracketClose := by rw [ht.getElem? (Nat.lt_succ_self j), hj]
  -- what one of the two strings decodes to, the other does too
  have hown : ∀ {v w : Str} {wc k}, Agree (j + 2) (d :: v) (d :: w) → v[j]? = some bracketClose →
      loc.mbtowc ((d :: v).take 4) = some (wc, k) → loc.mbtowc ((d :: w).take 4) = some (wc, k) := by
    intro v w wc k hvw hv h
    obtain ⟨-, hk, -⟩ := hloc.le_of_close hd hv h
    refine hloc.own _ _ _ _ h ?_
    rw [List.take_take, Nat.min_comm, ← List.take_take, hvw.mono (by omega : k ≤ j + 2),
      List.take_take, Nat.min_comm, ← List.take_take]
    exact List.take_prefix _ _
  cases h : loc.mbtowc ((d :: t).take 4) with
  | some r => exact hown hu.symm hj h
  | none =>
    cases h' : loc.mbtowc ((d :: t').take 4) with
    | none => rfl
    | some r =>
      rw [hown hu hj' h'] at h
      cases h

/-- The bytes of a character that is not ASCII, read from four bytes. -/
theorem Locale.Utf8OrSingleByte.ge_of_mem_take (hloc : loc.Utf8OrSingleByte) {c : UInt8} {t : Str}
    {wc : ℤ} {k : ℕ} (hc : 128 ≤ c) (h : loc.mbtowc ((c :: t).take 4) = some (wc, k)) :
    ∀ b ∈ (c :: t).take k, 128 ≤ b := by
  have hlen := (hloc.wide _ _ _ _ hc h).2.2
  have hmem := hloc.ge_of_mem hc h
  rw [← List.take_succ_cons, List.take_take, Nat.min_eq_left] at hmem
  · exact hmem
  · rw [List.length_take] at hlen
    omega

/-! ## Elements -/

/-- An element of a bracket expression: a `]` or `-` in front, a character, a range, or a class with
its mark. -/
inductive Elem where
  | first (c : UInt8)
  | char (c : ℤ)
  | range (a b : ℤ)
  | cls (z : UInt8) (name : Str)
  deriving DecidableEq

/-- Whether the element is there for the character `k`, or for its other case `kfold`, as `match_bracket`
compares them. -/
def Elem.hits (loc : Locale) (k kfold : ℤ) : Elem → Bool
  | .first c => k = c.toNat
  | .char c => c = k ∨ c = kfold
  | .range a b => a ≤ b ∧ (inRange k a b ∨ inRange kfold a b)
  | .cls z name => z = colon ∧ name.length < 16 ∧ (loc.iswctype k name ∨ loc.iswctype kfold name)

/-- A bracket expression.  It is stuck if a byte that is not a character comes before its end. -/
structure Bracket where
  inv : Bool
  elems : List Elem
  stuck : Bool
  deriving DecidableEq

/-- What `match_bracket` answers for a bracket expression. -/
def Bracket.accepts (loc : Locale) (b : Bracket) (k kfold : ℤ) : Bool :=
  if b.elems.any (Elem.hits loc k kfold) then !b.inv else !b.stuck && b.inv

/-- The element has the character `k`, or its other case `kfold`.  A `]` or `-` in front is only itself. -/
def Elem.Has (loc : Locale) (k kfold : ℤ) : Elem → Prop
  | .first c => k = c.toNat
  | .char c => c = k ∨ c = kfold
  | .range a b => (a ≤ k ∧ k ≤ b) ∨ (a ≤ kfold ∧ kfold ≤ b)
  | .cls z name => z = colon ∧ name.length < 16 ∧ (loc.iswctype k name ∨ loc.iswctype kfold name)

/-- **What a bracket expression accepts**, by its elements.  If it is negated and stuck, this is nothing. -/
def Bracket.Accepts (loc : Locale) (b : Bracket) (k kfold : ℤ) : Prop :=
  if b.inv then b.stuck = false ∧ ∀ e ∈ b.elems, ¬e.Has loc k kfold
  else ∃ e ∈ b.elems, e.Has loc k kfold

/-- An element in front. -/
def consElem (e : Elem) (r : List Elem × Bool) : List Elem × Bool := (e :: r.1, r.2)

/-- The elements up to the `]`, and whether a byte that is not a character comes before it. -/
def elements (loc : Locale) : ℕ → ℤ → Str → Option (List Elem × Bool)
  | 0, _, _ => none
  | _ + 1, _, [] => none
  | fuel + 1, wc, c :: q =>
    if c = bracketClose then some ([], false)
    else if c = dash ∧ q.head? ≠ some bracketClose then
      match loc.mbtowc (q.take 4) with
      | none => some ([], true)
      | some (wc2, l) => (elements loc fuel wc (q.drop (l - 1))).map (consElem (.range wc wc2))
    else if c = bracketOpen ∧ q.head?.any isMark then
      match q with
      | z :: a :: r =>
        match classScan z a r with
        | none => none
        | some n =>
          (elements loc fuel wc (r.drop (n + 1))).map (consElem (.cls z ((a :: r).take n)))
      | _ => none
    else if c < 128 then (elements loc fuel c.toNat q).map (consElem (.char c.toNat))
    else
      match loc.mbtowc ((c :: q).take 4) with
      | none => some ([], true)
      | some (wc, l) => (elements loc fuel wc ((c :: q).drop l)).map (consElem (.char wc))

/-- The elements behind the negation. -/
def elementsFirst (loc : Locale) (fuel : ℕ) (wc : ℤ) : Str → Option (List Elem × Bool)
  | [] => none
  | c :: r =>
    if c = bracketClose ∨ c = dash then
      (elements loc fuel c.toNat r).map (consElem (.first c))
    else elements loc fuel wc (c :: r)

/-- The bracket expression at the front of `p`. -/
def bracketOf (loc : Locale) (p : Str) : Option Bracket :=
  let q := p.drop 1
  let inv := q.head?.any isNegation
  (elementsFirst loc p.length (if inv then q.head?.getD 0 else bracketOpen).toNat
    (q.drop (if inv then 1 else 0))).map fun r => ⟨inv, r.1, r.2⟩

/-- What is answered for the elements. -/
def verdict (loc : Locale) (inv : Bool) (k kfold : ℤ) (r : List Elem × Bool) : Bool :=
  Bracket.accepts loc ⟨inv, r.1, r.2⟩ k kfold

theorem verdict_consElem (inv : Bool) (k kfold : ℤ) (e : Elem) (r : List Elem × Bool) :
    verdict loc inv k kfold (consElem e r) =
      if e.hits loc k kfold then !inv else verdict loc inv k kfold r := by
  unfold verdict Bracket.accepts consElem
  rw [List.any_cons]
  cases e.hits loc k kfold
  · rfl
  · rfl

/-! ### Ranges -/

/-- The ends of a range are in the range of `int`. -/
def Elem.Ints : Elem → Prop
  | .range a b => IsInt a ∧ IsInt b
  | .first _ | .char _ | .cls _ _ => True

/-- **The unsigned comparison is for the characters from the first to the last one**, if there are any. -/
theorem inRange_iff {k a b : ℤ} (hk : IsInt k) (ha : IsInt a) (hb : IsInt b) (hab : a ≤ b) :
    inRange k a b = true ↔ a ≤ k ∧ k ≤ b := by
  unfold IsInt at hk ha hb
  rw [inRange, decide_eq_true_eq]
  omega

theorem hits_iff {e : Elem} {k kfold : ℤ} (he : e.Ints) (hk : IsInt k) (hkfold : IsInt kfold) :
    e.hits loc k kfold = true ↔ e.Has loc k kfold := by
  cases e with
  | first c => exact decide_eq_true_iff
  | char c => exact decide_eq_true_iff
  | cls z name => exact decide_eq_true_iff
  | range a b =>
    rw [Elem.hits, decide_eq_true_eq, Elem.Has]
    constructor
    · rintro ⟨hab, h⟩
      rwa [inRange_iff hk he.1 he.2 hab, inRange_iff hkfold he.1 he.2 hab] at h
    · intro h
      have hab : a ≤ b := by omega
      rw [inRange_iff hk he.1 he.2 hab, inRange_iff hkfold he.1 he.2 hab]
      exact ⟨hab, h⟩

theorem ints_elements (hloc : loc.Utf8OrSingleByte) {fuel : ℕ} {wc : ℤ} {q : Str} {r : List Elem × Bool}
    (hwc : IsInt wc) (h : elements loc fuel wc q = some r) : ∀ e ∈ r.1, e.Ints := by
  induction fuel generalizing wc q r with
  | zero => cases h
  | succ fuel ih =>
    -- an element in front of the rest
    have hcons : ∀ (e : Elem) {wc' : ℤ} {q' : Str}, e.Ints → IsInt wc' →
        (elements loc fuel wc' q').map (consElem e) = some r → ∀ e ∈ r.1, e.Ints := by
      intro e wc' q' he hwc' hr
      obtain ⟨r', hr', rfl⟩ := Option.map_eq_some_iff.mp hr
      exact List.forall_mem_cons.mpr ⟨he, ih hwc' hr'⟩
    have hnil : ∀ {b : Bool}, some ([], b) = some r → ∀ e ∈ r.1, e.Ints := by
      rintro b h
      cases h
      exact fun e he => absurd he List.not_mem_nil
    cases q with
    | nil => cases h
    | cons c q =>
      rw [elements.eq_def] at h
      simp only at h
      split at h
      · exact hnil h
      split at h
      · split at h
        · exact hnil h
        · next wc2 l hmb => exact hcons (.range wc wc2) ⟨hwc, hloc.int _ _ _ hmb⟩ hwc h
      split at h
      · split at h
        · split at h
          · cases h
          · exact hcons (.cls _ _) trivial hwc h
        · cases h
      split at h
      · exact hcons (.char c.toNat) trivial (isInt_byte c) h
      · split at h
        · exact hnil h
        · next wc' l hmb => exact hcons (.char wc') trivial (hloc.int _ _ _ hmb) h

/-- **What is answered for the elements is what they accept.** -/
theorem accepts_iff (hloc : loc.Utf8OrSingleByte) {p : Str} {b : Bracket} (h : bracketOf loc p = some b)
    {k kfold : ℤ} (hk : IsInt k) (hkfold : IsInt kfold) :
    b.accepts loc k kfold = true ↔ b.Accepts loc k kfold := by
  obtain ⟨r, hr, rfl⟩ := Option.map_eq_some_iff.mp h
  have hints : ∀ e ∈ r.1, e.Ints := by
    have hwc := isInt_byte
      (if (p.drop 1).head?.any isNegation then (p.drop 1).head?.getD 0 else bracketOpen)
    revert hr
    generalize (if (p.drop 1).head?.any isNegation then 1 else 0) = n
    cases ((p.drop 1).drop n) with
    | nil =>
      intro hr
      cases hr
    | cons c q =>
      rw [elementsFirst]
      split
      · intro hr
        obtain ⟨r', hr', rfl⟩ := Option.map_eq_some_iff.mp hr
        exact List.forall_mem_cons.mpr ⟨trivial, ints_elements hloc (isInt_byte c) hr'⟩
      · exact fun hr => ints_elements hloc hwc hr
  have hany : r.1.any (Elem.hits loc k kfold) = true ↔ ∃ e ∈ r.1, e.Has loc k kfold := by
    rw [List.any_eq_true]
    exact exists_congr fun e => and_congr_right fun he => hits_iff (hints e he) hk hkfold
  generalize (p.drop 1).head?.any isNegation = inv
  rw [Bracket.accepts, Bracket.Accepts]
  by_cases hhas : ∃ e ∈ r.1, e.Has loc k kfold
  · rw [if_pos (hany.mpr hhas)]
    obtain ⟨e, he, hit⟩ := hhas
    cases inv with
    | true => exact iff_of_false Bool.false_ne_true fun h => h.2 e he hit
    | false => exact iff_of_true rfl ⟨e, he, hit⟩
  · rw [if_neg fun h => hhas (hany.mp h)]
    cases inv with
    | true =>
      have hnone : ∀ e ∈ r.1, ¬e.Has loc k kfold := fun e he hit => hhas ⟨e, he, hit⟩
      show (!r.2 && true) = true ↔ r.2 = false ∧ ∀ e ∈ r.1, ¬e.Has loc k kfold
      rw [Bool.and_true, Bool.not_eq_true', iff_self_and]
      exact fun _ => hnone
    | false => exact iff_of_false (by rw [Bool.and_false]; exact Bool.false_ne_true) hhas

/-- **The loop of `match_bracket` answers for the elements.** -/
theorem bracketBody_elements (inv : Bool) (k kfold : ℤ) {fuel : ℕ} {wc : ℤ} {q : Str}
    {r : List Elem × Bool} (h : elements loc fuel wc q = some r) :
    bracketBody loc inv k kfold fuel wc q = some (verdict loc inv k kfold r) := by
  induction fuel generalizing wc q r with
  | zero => cases h
  | succ fuel ih =>
    cases q with
    | nil => cases h
    | cons c q =>
      rw [elements.eq_def] at h
      rw [bracketBody.eq_def]
      -- an element in front of the rest
      have hcons : ∀ {e : Elem} {wc' : ℤ} {q' : Str},
          (elements loc fuel wc' q').map (consElem e) = some r →
            (if e.hits loc k kfold then some (!inv)
              else bracketBody loc inv k kfold fuel wc' q') = some (verdict loc inv k kfold r) := by
        intro e wc' q' he
        obtain ⟨r', hr', rfl⟩ := Option.map_eq_some_iff.mp he
        rw [verdict_consElem, ih hr']
        split <;> rfl
      simp only at h ⊢
      by_cases hclose : c = bracketClose
      · rw [if_pos hclose] at h ⊢
        cases h
        rfl
      rw [if_neg hclose] at h ⊢
      by_cases hdash : c = dash ∧ q.head? ≠ some bracketClose
      · rw [if_pos hdash] at h ⊢
        cases hmb : loc.mbtowc (q.take 4) with
        | none =>
          rw [hmb] at h
          cases h
          rfl
        | some x =>
          rw [hmb] at h
          have := hcons h
          simpa only [Elem.hits, decide_eq_true_eq] using this
      rw [if_neg hdash] at h ⊢
      by_cases hopen : c = bracketOpen ∧ q.head?.any isMark
      · rw [if_pos hopen] at h ⊢
        cases q with
        | nil => cases h
        | cons z q =>
          cases q with
          | nil => cases h
          | cons a t =>
            simp only at h ⊢
            cases hn : classScan z a t with
            | none =>
              rw [hn] at h
              cases h
            | some n =>
              rw [hn] at h
              have := hcons h
              simpa only [Elem.hits, decide_eq_true_eq] using this
      rw [if_neg hopen] at h ⊢
      by_cases hlt : c < 128
      · rw [if_pos hlt] at h ⊢
        have := hcons h
        simpa only [Elem.hits, decide_eq_true_eq] using this
      · rw [if_neg hlt] at h ⊢
        cases hmb : loc.mbtowc ((c :: q).take 4) with
        | none =>
          rw [hmb] at h
          cases h
          rfl
        | some x =>
          rw [hmb] at h
          have := hcons h
          simpa only [Elem.hits, decide_eq_true_eq] using this

/-! ### What stands in front -/

section

variable {fuel : ℕ} {wc : ℤ} {c : UInt8} {q : Str}

/-- A byte that is not ASCII is none of those that mean something. -/
theorem ne_ascii (hc : 128 ≤ c) {d : UInt8} (hd : d < 128) : c ≠ d := fun hcd =>
  absurd (hcd ▸ hd) (UInt8.not_lt.mpr hc)

theorem elements_close : elements loc (fuel + 1) wc (bracketClose :: q) = some ([], false) := by
  rw [elements.eq_def]
  exact if_pos rfl

/-- A range, of which the last byte of its end is looked at again. -/
theorem elements_dash (hend : q.head? ≠ some bracketClose) :
    elements loc (fuel + 1) wc (dash :: q) = (loc.mbtowc (q.take 4)).elim (some ([], true)) fun r =>
      (elements loc fuel wc (q.drop (r.2 - 1))).map (consElem (.range wc r.1)) := by
  rw [elements.eq_def]
  refine (if_neg (by decide)).trans ((if_pos ⟨rfl, hend⟩).trans ?_)
  cases loc.mbtowc (q.take 4) <;> rfl

/-- A class. -/
theorem elements_open {z a : UInt8} {r : Str} (hz : isMark z = true) :
    elements loc (fuel + 1) wc (bracketOpen :: z :: a :: r) = (classScan z a r).bind fun n =>
      (elements loc fuel wc (r.drop (n + 1))).map (consElem (.cls z ((a :: r).take n))) := by
  rw [elements.eq_def]
  refine (if_neg (by decide)).trans ((if_neg fun hd => absurd hd.1 (by decide)).trans
    ((if_pos ⟨rfl, by simpa using hz⟩).trans ?_))
  simp only
  cases classScan z a r <;> rfl

/-- An ASCII character that begins no range and no class. -/
theorem elements_ascii (hc : c < 128) (hclose : c ≠ bracketClose)
    (hdash : ¬(c = dash ∧ q.head? ≠ some bracketClose))
    (hmark : ¬(c = bracketOpen ∧ q.head?.any isMark)) :
    elements loc (fuel + 1) wc (c :: q) =
      (elements loc fuel c.toNat q).map (consElem (.char c.toNat)) := by
  rw [elements.eq_def]
  exact (if_neg hclose).trans ((if_neg hdash).trans ((if_neg hmark).trans (if_pos hc)))

/-- A character that is not ASCII. -/
theorem elements_wide (hc : 128 ≤ c) :
    elements loc (fuel + 1) wc (c :: q) = (loc.mbtowc ((c :: q).take 4)).elim (some ([], true)) fun r =>
      (elements loc fuel r.1 ((c :: q).drop r.2)).map (consElem (.char r.1)) := by
  rw [elements.eq_def]
  refine (if_neg (ne_ascii hc (by decide))).trans ((if_neg fun hd => ne_ascii hc (by decide) hd.1).trans
    ((if_neg fun ho => ne_ascii hc (by decide) ho.1).trans ((if_neg (UInt8.not_lt.mpr hc)).trans ?_)))
  cases loc.mbtowc ((c :: q).take 4) <;> rfl

end

/-- **The elements end at the `]` that `pat_next` has found**, and do not depend on the bytes behind
it. -/
theorem exists_elements (hloc : loc.Utf8OrSingleByte) {j : ℕ} {q : Str}
    (hq : 0 ∉ q) (h : bracketScan none q = some j) (wc : ℤ) :
    ∃ v, ∀ fuel u, j < fuel → Agree (j + 1) u q →
      elements loc fuel wc u = some v := by
  -- one more round than the rest needs
  have hround : ∀ {i j : ℕ} {q : Str} {wc : ℤ} {v : List Elem × Bool},
      (∀ fuel u, i ≤ fuel → Agree (j + 1) u q → elements loc (fuel + 1) wc u = some v) →
      i ≤ j → ∀ fuel u, j < fuel → Agree (j + 1) u q → elements loc fuel wc u = some v := by
    intro i j q wc v hv hij fuel u hfuel hu
    obtain ⟨fuel, rfl⟩ : ∃ f, fuel = f + 1 := ⟨fuel - 1, by omega⟩
    exact hv fuel u (by omega) hu
  induction j using Nat.strong_induction_on generalizing q wc with
  | _ j ih =>
    have hget := getElem?_of_bracketScan h
    cases q with
    | nil => cases h
    | cons c q =>
      have hq' : 0 ∉ q := fun hmem => hq (List.mem_cons_of_mem _ hmem)
      rcases bracketScan_cases h with ⟨rfl, rfl⟩ | ⟨rfl, z, a, r, n, i, rfl, hz, hn, hi, rfl⟩ |
        ⟨hclose, hopen, i, hi, rfl⟩
      · refine ⟨([], false), hround (i := 0) (fun fuel u _ hu => ?_) (Nat.le_refl 0)⟩
        obtain ⟨t, rfl, -⟩ := hu.exists_cons
        exact elements_close
      · -- a class, and then the rest
        have hr : 0 ∉ r.drop (n + 1) := fun hmem =>
          hq' (List.mem_cons_of_mem _ (List.mem_cons_of_mem _ (List.mem_of_mem_drop hmem)))
        obtain ⟨v, hv⟩ := ih i (by omega) hr hi wc
        refine ⟨consElem (.cls z ((a :: r).take n)) v, hround (i := i + 1) (fun fuel u hfuel hu => ?_)
          (by omega)⟩
        obtain ⟨t, rfl, ht⟩ := hu.exists_cons
        obtain ⟨t₁, rfl, ht₁⟩ := ht.exists_cons
        obtain ⟨t₂, rfl, ht₂⟩ := ht₁.exists_cons
        have hname : (a :: t₂).take n = (a :: r).take n := ht₁.mono (by omega)
        have hrest := hv fuel (t₂.drop (n + 1)) (by omega)
          ((ht₂.mono (by omega : n + 1 + (i + 1) ≤ _)).drop (n + 1))
        rw [elements_open hz, classScan_stable hn (ht₂.mono (by omega)), Option.bind_some, hname, hrest]
        rfl
      · by_cases hdash : c = dash ∧ q.head? ≠ some bracketClose
        · -- a range, of which the last byte of its end is looked at again
          obtain ⟨rfl, hfirst⟩ := hdash
          cases q with
          | nil => cases hi
          | cons d q =>
            have hd : d ≠ 0 := fun hd => hq' (hd ▸ List.mem_cons_self ..)
            obtain ⟨i, rfl⟩ : ∃ i', i = i' + 1 := by
              cases i with
              | zero => exact absurd (getElem?_of_bracketScan hi) hfirst
              | succ i => exact ⟨i, rfl⟩
            have hget := getElem?_of_bracketScan hi
            have hend : q[i]? = some bracketClose := hget
            have hbody : ∀ {fuel u}, Agree (i + 3) u (dash :: d :: q) → ∃ t, Agree (i + 2) t (d :: q) ∧
                elements loc (fuel + 1) wc u =
                  (loc.mbtowc ((d :: q).take 4)).elim (some ([], true)) fun r =>
                    (elements loc fuel wc (t.drop (r.2 - 1))).map (consElem (.range wc r.1)) := by
              intro fuel u hu
              obtain ⟨t, rfl, ht⟩ := hu.exists_cons
              exact ⟨t, ht, by rw [elements_dash (by rwa [ht.head?]), hloc.mbtowc_agree hd hend ht]⟩
            cases hmb : loc.mbtowc ((d :: q).take 4) with
            | none =>
              refine ⟨([], true), hround (i := 0) (fun fuel u _ hu => ?_) (Nat.zero_le _)⟩
              obtain ⟨t, -, helems⟩ := hbody hu
              rw [helems, hmb]
              rfl
            | some r =>
              obtain ⟨wc2, l⟩ := r
              obtain ⟨hl, hle, hge⟩ := hloc.le_of_close hd hend hmb
              obtain ⟨-, hscan⟩ := bracketScan_drop hge hi
              have hdrop : 0 ∉ (d :: q).drop (l - 1) := fun hmem => hq' (List.mem_of_mem_drop hmem)
              obtain ⟨v, hv⟩ := ih _ (by omega) hdrop hscan wc
              refine ⟨consElem (.range wc wc2) v, hround (i := i + 2) (fun fuel u hfuel hu => ?_)
                (by omega)⟩
              obtain ⟨t, ht, helems⟩ := hbody hu
              have hrest := hv fuel (t.drop (l - 1)) (by omega)
                ((ht.mono (by omega : l - 1 + (i + 1 - (l - 1) + 1) ≤ _)).drop (l - 1))
              rw [helems, hmb, Option.elim_some, hrest]
              rfl
        · by_cases hlt : c < 128
          · obtain ⟨v, hv⟩ := ih i (by omega) hq' hi c.toNat
            refine ⟨consElem (.char c.toNat) v, hround (i := i + 1) (fun fuel u hfuel hu => ?_) (by omega)⟩
            obtain ⟨t, rfl, ht⟩ := hu.exists_cons
            rw [elements_ascii hlt hclose (by rwa [ht.head?]) (by rwa [ht.head?]), hv fuel t hfuel ht]
            rfl
          · have hge : 128 ≤ c := UInt8.not_lt.mp hlt
            have hc0 : c ≠ 0 := fun hc => hq (hc ▸ List.mem_cons_self ..)
            have hend : q[i]? = some bracketClose := hget
            have hbody : ∀ {fuel u}, Agree (i + 2) u (c :: q) → elements loc (fuel + 1) wc u =
                (loc.mbtowc ((c :: q).take 4)).elim (some ([], true)) fun r =>
                  (elements loc fuel r.1 (u.drop r.2)).map (consElem (.char r.1)) := by
              intro fuel u hu
              have hmt := hloc.mbtowc_agree hc0 hend hu
              obtain ⟨t, rfl, -⟩ := hu.exists_cons
              rw [elements_wide hge, hmt]
            cases hmb : loc.mbtowc ((c :: q).take 4) with
            | none =>
              refine ⟨([], true), hround (i := 0) (fun fuel u _ hu => ?_) (Nat.zero_le _)⟩
              rw [hbody hu, hmb]
              rfl
            | some r =>
              obtain ⟨wc', l⟩ := r
              obtain ⟨hl, -, -⟩ := hloc.le_of_close hc0 hend hmb
              obtain ⟨hle, hscan⟩ := bracketScan_drop (hloc.ge_of_mem_take hge hmb) h
              have hdrop : 0 ∉ (c :: q).drop l := fun hmem => hq (List.mem_of_mem_drop hmem)
              obtain ⟨v, hv⟩ := ih _ (by omega) hdrop hscan wc'
              refine ⟨consElem (.char wc') v, hround (i := i + 1) (fun fuel u hfuel hu => ?_) (by omega)⟩
              have hrest := hv fuel (u.drop l) (by omega)
                ((hu.mono (by omega : l + (i + 1 - l + 1) ≤ _)).drop l)
              rw [hbody hu, hmb, Option.elim_some, hrest]
              rfl

/-! ## Bracket expressions -/

theorem bracketSkip_agree {q u : Str} (hu : Agree (bracketSkip q + 1) u q) :
    bracketSkip u = bracketSkip q := by
  have hneg : u.head?.any isNegation = q.head?.any isNegation := by rw [hu.head?]
  have hle : (if q.head?.any isNegation then 1 else 0) ≤ bracketSkip q := by
    unfold bracketSkip
    grind
  have hhead := ((hu.mono (by omega :
    (if q.head?.any isNegation then 1 else 0) + (0 + 1) ≤ _)).drop _).head?
  unfold bracketSkip
  simp only [hneg, hhead]

/-- **`match_bracket` answers for the elements.** -/
theorem matchBracket_of_bracketOf {p : Str} {b : Bracket} (h : bracketOf loc p = some b)
    (k kfold : ℤ) : matchBracket loc p k kfold = some (b.accepts loc k kfold) := by
  unfold bracketOf at h
  obtain ⟨r, hr, rfl⟩ := Option.map_eq_some_iff.mp h
  unfold matchBracket
  simp only
  revert hr
  generalize List.drop _ (List.drop 1 p) = t
  generalize (((if (p.drop 1).head?.any isNegation then (p.drop 1).head?.getD 0
    else bracketOpen).toNat : ℕ) : ℤ) = wc
  intro hr
  cases t with
  | nil => cases hr
  | cons c t =>
    rw [elementsFirst] at hr
    rw [bracketFirst]
    split at hr
    · rename_i hc
      obtain ⟨r', hr', rfl⟩ := Option.map_eq_some_iff.mp hr
      rw [if_pos hc, bracketBody_elements _ k kfold hr']
      show _ = some (verdict loc _ k kfold (consElem (.first c) r'))
      rw [verdict_consElem]
      simp only [Elem.hits, decide_eq_true_eq]
      split <;> rfl
    · rename_i hc
      rw [if_neg hc, bracketBody_elements _ k kfold hr]
      rfl

/-- **A bracket expression is told by the bytes that `pat_next` has delimited.** -/
theorem exists_bracketOf (hloc : loc.Utf8OrSingleByte) {q : Str} {j : ℕ} (hq : 0 ∉ q)
    (h : bracketScan none (q.drop (bracketSkip q)) = some j) :
    ∃ b, ∀ u, Agree (1 + bracketSkip q + j + 1) u (bracketOpen :: q) →
      bracketOf loc u = some b := by
  let inv := q.head?.any isNegation
  let n := if inv then 1 else 0
  let wc : ℤ := (if inv then q.head?.getD 0 else bracketOpen).toNat
  have hskip : bracketSkip q = if (q.drop n).head? = some bracketClose then n + 1 else n := rfl
  have hn : n ≤ bracketSkip q := by
    rw [hskip]
    split <;> omega
  -- the string behind the bracket agrees with `q`, and is long enough
  have hu : ∀ {u}, Agree (1 + bracketSkip q + j + 1) u (bracketOpen :: q) →
      j + 1 < u.length ∧ (u.drop 1).head? = q.head? ∧
        Agree (bracketSkip q - n + j + 1) ((u.drop 1).drop n) (q.drop n) := by
    intro u hu
    have hdrop := (hu.mono (by omega : 1 + (bracketSkip q + j + 1) ≤ _)).drop 1
    have hget := hdrop.getElem? (by omega : bracketSkip q + j < _)
    rw [List.drop_one, List.drop_one, List.tail_cons, ← @List.getElem?_drop _ q,
      getElem?_of_bracketScan h] at hget
    obtain ⟨hlen, -⟩ := List.getElem?_eq_some_iff.mp hget
    rw [List.length_tail] at hlen
    exact ⟨by omega, hdrop.head?, (hdrop.mono (by omega)).drop n⟩
  have hmatch : ∀ {u}, (u.drop 1).head? = q.head? → bracketOf loc u =
      (elementsFirst loc u.length wc ((u.drop 1).drop n)).map fun r => ⟨inv, r.1, r.2⟩ := by
    intro u hhead
    unfold bracketOf
    simp only [hhead]
    rfl
  cases hr : q.drop n with
  | nil =>
    have : q.drop (bracketSkip q) = [] :=
      List.drop_eq_nil_iff.mpr ((List.drop_eq_nil_iff.mp hr).trans hn)
    rw [this] at h
    cases h
  | cons c r =>
    have hr0 : 0 ∉ c :: r := fun hmem => hq (List.mem_of_mem_drop (hr ▸ hmem))
    have hrest : 0 ∉ r := fun hmem => hr0 (List.mem_cons_of_mem _ hmem)
    rw [hr] at hskip hu
    by_cases hc : c = bracketClose ∨ c = dash
    · -- a first `]` or `-` stands for itself
      obtain ⟨i, hij, hscan, hi⟩ : ∃ i, i ≤ j ∧ bracketScan none r = some i ∧
          i + 2 ≤ bracketSkip q - n + j + 1 := by
        rcases hc with rfl | rfl
        · rw [List.head?_cons, if_pos rfl] at hskip
          rw [hskip, ← List.drop_drop, hr] at h
          exact ⟨j, Nat.le_refl j, h, by omega⟩
        · rw [List.head?_cons, if_neg (by decide)] at hskip
          rw [hskip, hr] at h
          rw [bracketScan_cons (by decide) (fun ho => absurd ho.1 (by decide))] at h
          obtain ⟨i, hi, rfl⟩ := Option.map_eq_some_iff.mp h
          exact ⟨i, Nat.le_succ i, hi, by omega⟩
      obtain ⟨v, hv⟩ := exists_elements hloc hrest hscan c.toNat
      refine ⟨⟨inv, .first c :: v.1, v.2⟩, fun u hagree => ?_⟩
      obtain ⟨hlen, hhead, htail⟩ := hu hagree
      obtain ⟨t, ht, htr⟩ := (htail.mono (by omega : i + 1 + 1 ≤ _)).exists_cons
      rw [hmatch hhead, ht, elementsFirst, if_pos hc, hv u.length t (by omega) htr]
      rfl
    · have hclose : c ≠ bracketClose := fun hc' => hc (Or.inl hc')
      rw [List.head?_cons, if_neg (fun hc' => hclose (Option.some_inj.mp hc'))] at hskip
      rw [hskip, hr] at h
      obtain ⟨v, hv⟩ := exists_elements hloc hr0 h wc
      refine ⟨⟨inv, v.1, v.2⟩, fun u hagree => ?_⟩
      obtain ⟨hlen, hhead, htail⟩ := hu hagree
      have htail := htail.mono (by omega : j + 1 ≤ _)
      obtain ⟨t, ht, -⟩ := htail.exists_cons
      rw [hmatch hhead, ht, elementsFirst, if_neg hc, hv u.length (c :: t) (by omega) (ht ▸ htail)]
      rfl

/-- **Behind a range whose end is not ASCII nothing is looked at**: the expression is stuck there. -/
theorem elements_wide_range (hloc : loc.Utf8OrSingleByte) (hmax : loc.mbCurMax ≠ 1) {d : UInt8} {t : Str}
    {wc wc2 : ℤ} {l fuel : ℕ} (hd : 128 ≤ d) (hl : 2 ≤ l)
    (h : loc.mbtowc ((d :: t).take 4) = some (wc2, l)) :
    elements loc (fuel + 2) wc (dash :: d :: t) = some ([.range wc wc2], true) := by
  have hmb := h
  rw [List.take_succ_cons] at h
  obtain ⟨-, -, hlen⟩ := hloc.wide _ _ _ _ hd h
  have htrail := hloc.trail _ _ _ _ hd h
  -- what `match_bracket` goes on with is a continuation byte
  obtain ⟨e, u, hdrop, he⟩ : ∃ e u, (d :: t).drop (l - 1) = e :: u ∧ isContinuation e = true := by
    obtain ⟨l, rfl⟩ : ∃ i, l = i + 2 := ⟨l - 2, by omega⟩
    rw [List.length_take] at hlen
    have hlt : l < t.length := by omega
    refine ⟨t[l], t.drop (l + 1), List.drop_eq_getElem_cons hlt, htrail _ ?_⟩
    refine List.mem_iff_getElem?.mpr ⟨l, ?_⟩
    rw [List.take_take, List.getElem?_take_of_lt (by omega), List.getElem?_eq_getElem hlt]
  have hge := isContinuation_ge he
  have hstuck : elements loc (fuel + 1) wc (e :: u) = some ([], true) := by
    have hnone : loc.mbtowc ((e :: u).take 4) = none := by
      cases hx : loc.mbtowc ((e :: u).take 4) with
      | none => rfl
      | some x =>
        have hlead := hloc.lead _ _ _ _ hge hx
        rw [if_neg hmax, he] at hlead
        cases hlead
    rw [elements_wide hge, hnone]
    rfl
  have hend : (d :: t).head? ≠ some bracketClose := by
    rw [List.head?_cons]
    exact fun hc => ne_ascii hd (by decide) (Option.some_inj.mp hc)
  rw [elements_dash hend, hmb, Option.elim_some, hdrop, hstuck]
  rfl

/-- A character in front of such a range is one element more. -/
theorem exists_elementsFirst_range (hloc : loc.Utf8OrSingleByte) {e t : Str} {wc wc₀ : ℤ} {n : ℕ}
    {r : ℤ → List Elem × Bool} (h0 : 0 ∉ e)
    (he : loc.mbtowc ((e ++ dash :: t).take 4) = some (wc, e.length))
    (hrange : ∀ fuel wc, elements loc (fuel + 2) wc (dash :: t) = some (r wc)) :
    ∃ wc' a, elementsFirst loc (n + 3) wc₀ (e ++ dash :: t) = some (consElem a (r wc')) := by
  have hmark : ¬(dash :: t).head?.any isMark = true := by
    show ¬isMark dash = true
    decide
  cases e with
  | nil =>
    have hdash := hloc.ascii dash (t.take 3) (by decide) (by decide)
    rw [List.nil_append, List.take_succ_cons, hdash] at he
    cases he
  | cons a e =>
    have hfour : loc.mbtowc ((a :: (e ++ dash :: t)).take 4) = some (wc, (a :: e).length) := he
    rw [List.cons_append, elementsFirst]
    by_cases hlt : a < 128
    · -- an ASCII character has one byte
      have hone := hloc.ascii a ((e ++ dash :: t).take 3) hlt fun ha => h0 (ha ▸ List.mem_cons_self)
      rw [List.take_succ_cons, hone] at hfour
      obtain rfl : e = [] := by
        have hlen := (Prod.mk.inj (Option.some_inj.mp hfour)).2
        exact List.length_eq_zero_iff.mp (by rw [List.length_cons] at hlen; omega)
      rw [List.nil_append]
      split
      · rw [hrange]
        exact ⟨_, _, rfl⟩
      · next hfirst =>
        obtain ⟨hclose, hdash⟩ := not_or.mp hfirst
        rw [elements_ascii hlt hclose (fun hd => hdash hd.1) fun hm => absurd hm.2 hmark, hrange]
        exact ⟨_, _, rfl⟩
    · have hge : 128 ≤ a := UInt8.not_lt.mp hlt
      have hdrop : (a :: (e ++ dash :: t)).drop (a :: e).length = dash :: t := List.drop_left
      rw [if_neg (not_or.mpr ⟨ne_ascii hge (by decide), ne_ascii hge (by decide)⟩), elements_wide hge,
        hfour, Option.elim_some, hdrop, hrange]
      exact ⟨wc, .char wc, rfl⟩

/-- **A negated range whose end is not ASCII accepts no character at all**, whatever it begins with and
whatever follows it. -/
theorem matchBracket_negated_range (hloc : loc.Utf8OrSingleByte) (hmax : loc.mbCurMax ≠ 1) {n d : UInt8}
    {e t : Str} {wc wc2 : ℤ} {l : ℕ} (hn : isNegation n = true) (h0 : 0 ∉ e)
    (he : loc.mbtowc ((e ++ dash :: d :: t).take 4) = some (wc, e.length)) (hd : 128 ≤ d) (hl : 2 ≤ l)
    (h : loc.mbtowc ((d :: t).take 4) = some (wc2, l)) (k kfold : ℤ) :
    matchBracket loc (bracketOpen :: n :: (e ++ dash :: d :: t)) k kfold = some false := by
  have hrange : ∀ fuel wc, elements loc (fuel + 2) wc (dash :: d :: t) =
      some ([.range wc wc2], true) := fun fuel wc => elements_wide_range hloc hmax hd hl h
  obtain ⟨wc', a, ha⟩ := @exists_elementsFirst_range loc hloc e (d :: t) wc n.toNat (e.length + t.length + 1)
    (fun wc => ([.range wc wc2], true)) h0 he hrange
  have hb : bracketOf loc (bracketOpen :: n :: (e ++ dash :: d :: t)) =
      some ⟨true, [a, .range wc' wc2], true⟩ := by
    have hinv : (some n).any isNegation = true := hn
    show (elementsFirst loc _ (if (some n).any isNegation then n else bracketOpen).toNat
      (List.drop (if (some n).any isNegation then 1 else 0) (n :: (e ++ dash :: d :: t)))).map _ = _
    rw [hinv, if_pos rfl, if_pos rfl]
    show (elementsFirst loc _ n.toNat (e ++ dash :: d :: t)).map _ = _
    have hlen : (bracketOpen :: n :: (e ++ dash :: d :: t)).length = e.length + t.length + 1 + 3 := by
      simp only [List.length_cons, List.length_append]
      omega
    rw [hlen, ha]
    show some (Bracket.mk ((some n).any isNegation) [a, .range wc' wc2] true) = _
    rw [hinv]
  rw [matchBracket_of_bracketOf hb k kfold, Bracket.accepts]
  split <;> rfl

/-- UTF-8 up to U+07FF. -/
def utf8Two : Locale where
  mbtowc
    | [] => none
    | c :: q =>
      if c < 128 then some (c.toNat, 1)
      else if 0xc2 ≤ c ∧ c < 0xe0 ∧ q.head?.any isContinuation then
        some ((c.toNat - 0xc0) * 64 + ((q.head?.getD 0).toNat - 0x80), 2)
      else none
  mbCurMax := 2
  towupper := ascii.towupper
  towlower := ascii.towlower
  iswctype := ascii.iswctype

/-- What `utf8Two` decodes. -/
theorem utf8Two_eq_some {c : UInt8} {q : Str} {wc : ℤ} {k : ℕ}
    (h : utf8Two.mbtowc (c :: q) = some (wc, k)) :
    (c < 128 ∧ wc = c.toNat ∧ k = 1) ∨ ∃ b t, q = b :: t ∧ 0xc2 ≤ c ∧ c < 0xe0 ∧
      isContinuation b = true ∧ wc = (c.toNat - 0xc0) * 64 + (b.toNat - 0x80) ∧ k = 2 := by
  have h : (if c < 128 then some ((c.toNat : ℤ), 1)
    else if 0xc2 ≤ c ∧ c < 0xe0 ∧ q.head?.any isContinuation then
      some (((c.toNat : ℤ) - 0xc0) * 64 + ((q.head?.getD 0).toNat - 0x80), 2)
    else none) = some (wc, k) := h
  split at h
  · obtain ⟨rfl, rfl⟩ := Prod.mk.inj (Option.some_inj.mp h)
    exact Or.inl ⟨‹_›, rfl, rfl⟩
  split at h
  · rename_i hc
    obtain ⟨rfl, rfl⟩ := Prod.mk.inj (Option.some_inj.mp h)
    cases q with
    | nil => cases hc.2.2
    | cons b t => exact Or.inr ⟨b, t, rfl, hc.1, hc.2.1, by simpa using hc.2.2, rfl, rfl⟩
  · cases h

theorem utf8Two_utf8OrSingleByte : utf8Two.Utf8OrSingleByte where
  ascii c t hc _ := if_pos hc
  wide c t wc k hc h := by
    rcases utf8Two_eq_some h with ⟨hlt, -⟩ | ⟨b, u, rfl, hge, -, hb, rfl, rfl⟩
    · exact absurd hlt (UInt8.not_lt.mpr hc)
    · have hge : 0xc2 ≤ c.toNat := hge
      have hb : 0x80 ≤ b.toNat := isContinuation_ge hb
      exact ⟨by omega, by omega, by rw [List.length_cons]; omega⟩
  trail c t wc k hc h := by
    rcases utf8Two_eq_some h with ⟨hlt, -⟩ | ⟨b, u, rfl, -, -, hb, -, rfl⟩
    · exact absurd hlt (UInt8.not_lt.mpr hc)
    · intro x hx
      rw [List.mem_singleton.mp hx]
      exact hb
  lead c t wc k hc h := by
    rcases utf8Two_eq_some h with ⟨hlt, -⟩ | ⟨b, u, rfl, hge, -⟩
    · exact absurd hlt (UInt8.not_lt.mpr hc)
    · rw [if_neg (by decide), isContinuation]
      have hge : 0xc2 ≤ c.toNat := hge
      refine decide_eq_false fun hc => ?_
      have hlt : c.toNat < 0xc0 := hc.2
      omega
  own t wc k u h hu := by
    cases t with
    | nil => cases h
    | cons c t =>
      have hdef := h
      rcases utf8Two_eq_some h with ⟨hc, rfl, rfl⟩ | ⟨b, v, rfl, h1, h2, hb, rfl, rfl⟩
      · obtain ⟨w, rfl⟩ := hu
        exact if_pos hc
      · obtain ⟨w, rfl⟩ := hu
        exact hdef
  fold := ascii_utf8OrSingleByte.fold
  int t wc k h := by
    cases t with
    | nil => cases h
    | cons c t =>
      rcases utf8Two_eq_some h with ⟨-, rfl, -⟩ | ⟨b, u, -, -, -, -, rfl, -⟩
      · exact isInt_byte c
      · have hc := c.toNat_lt
        have hb := b.toNat_lt
        exact ⟨by omega, by omega⟩
  foldInt := ascii_utf8OrSingleByte.foldInt

/-- The expression `[^à-é]` and the character `z`. -/
theorem matchBracket_negated_range_latin :
    matchBracket utf8Two [0x5b, 0x5e, 0xc3, 0xa0, 0x2d, 0xc3, 0xa9, 0x5d] 0x7a 0x7a = some false :=
  @matchBracket_negated_range utf8Two utf8Two_utf8OrSingleByte (by decide) 0x5e 0xc3 [0xc3, 0xa0] [0xa9, 0x5d]
    0xe0 0xe9 2 (by decide) (by decide) (by decide) (by decide) (Nat.le_refl 2) (by decide) 0x7a 0x7a

end Fnmatch
end UtilWin
