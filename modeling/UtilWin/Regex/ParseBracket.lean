import UtilWin.Regex.Ast
import UtilWin.Regex.Fnmatch

/-!
# Bracket expressions

`parse_bracket` makes a union of literals of a bracket expression.  The terms of the list are collected
first.  If the list is negated, the literals are sorted, and the gaps between them are what is read; the
classes are kept apart, as they cannot be turned around.

A place in the pattern is what is left of the pattern from there on, without the terminator.  The loop over
the terms is given a bound for the number of its rounds, which it does not reach
(`parseBracketTerms_isSome`).  `qsort` may put literals that begin at the same character in any order; the
order of the list is taken here, and does not matter (`mem_complement`).

If nothing is left of a negated list, the source makes no node and goes on with a null pointer.  This
needs a list up to `TRE_CHAR_MAX`, which a `wchar_t` of 16 bits cannot give; the model is `none` there.
-/

namespace UtilWin
namespace Tre

open Glob
open Fnmatch (caret dash equals)

/-- What `regcomp` and `regexec` use of the locale. -/
structure Locale extends Fnmatch.Locale where
  iswalnum : ℤ → Bool
  iswupper : ℤ → Bool
  iswlower : ℤ → Bool
  /-- Whether `wctype` knows a class with this name. -/
  isClass : Str → Bool

/-- The errors of `regcomp`. -/
inductive RegError where
  | badpat
  | ecollate
  | ectype
  | eescape
  | esubreg
  | ebrack
  | eparen
  | ebrace
  | badbr
  | erange
  | espace
  | badrpt
  deriving DecidableEq

def regExtended : BitVec 32 := 1
def regIcase : BitVec 32 := 2
def regNewline : BitVec 32 := 4
def regNosub : BitVec 32 := 8

/-- `L'\n'`. -/
def newline : ℤ := 10

/-- `CHARCLASS_NAME_MAX`. -/
def charclassNameMax : ℕ := 32

/-- `MAX_NEG_CLASSES`. -/
def maxNegClasses : ℕ := 64

/-- How many literals `tre_new_lit` makes room for. -/
def maxLiterals : ℕ := 32768

/-- `mbtowc` at a place in the pattern: at the end it finds the terminator. -/
def Locale.wideAt (loc : Locale) : Str → Option (ℤ × ℕ)
  | [] => some (0, 0)
  | s => loc.mbtowc s

/-- A character has at least one byte. -/
def Locale.Reads (loc : Locale) : Prop :=
  ∀ c s wc len, loc.mbtowc (c :: s) = some (wc, len) → 0 < len

/-- The range of `wchar_t` and `wint_t`. -/
def IsWide (c : ℤ) : Prop := 0 ≤ c ∧ c ≤ 0xffff

/-- What the functions of the locale are known to do: `mbtowc` reads at least one byte of a string that
is not empty, and characters have 16 bits. -/
structure Locale.ReadsWide (loc : Locale) : Prop where
  reads : loc.Reads
  mbtowc : ∀ s wc len, loc.mbtowc s = some (wc, len) → IsWide wc
  towupper : ∀ c, IsWide (loc.towupper c)
  towlower : ∀ c, IsWide (loc.towlower c)

/-- The locale in which the ASCII bytes are the characters. -/
def asciiBytes : Locale where
  mbtowc
    | [] => some (0, 0)
    | c :: _ => if c < 128 then some (c.toNat, 1) else none
  mbCurMax := 1
  towupper c := if 0x61 ≤ c ∧ c ≤ 0x7a then c - 0x20 else if 0 ≤ c ∧ c ≤ 0xffff then c else 0
  towlower c := if 0x41 ≤ c ∧ c ≤ 0x5a then c + 0x20 else if 0 ≤ c ∧ c ≤ 0xffff then c else 0
  iswctype c name := name = [0x64, 0x69, 0x67, 0x69, 0x74] ∧ 0x30 ≤ c ∧ c ≤ 0x39
  iswalnum c := 0x30 ≤ c ∧ c ≤ 0x39 ∨ 0x41 ≤ c ∧ c ≤ 0x5a ∨ 0x61 ≤ c ∧ c ≤ 0x7a
  iswupper c := 0x41 ≤ c ∧ c ≤ 0x5a
  iswlower c := 0x61 ≤ c ∧ c ≤ 0x7a
  isClass name := name = [0x64, 0x69, 0x67, 0x69, 0x74]

theorem asciiBytes_readsWide : asciiBytes.ReadsWide where
  reads c s wc len h := by
    change (if c < 128 then some ((c.toNat : ℤ), 1) else none) = some (wc, len) at h
    split at h
    · cases h
      exact Nat.one_pos
    · cases h
  mbtowc s wc len h := by
    cases s with
    | nil =>
      cases h
      exact ⟨le_refl 0, by decide⟩
    | cons c s =>
      change (if c < 128 then some ((c.toNat : ℤ), 1) else none) = some (wc, len) at h
      split at h
      · cases h
        have hc := c.toNat_lt
        exact ⟨by omega, by omega⟩
      · cases h
  towupper c := by
    show IsWide (if 0x61 ≤ c ∧ c ≤ 0x7a then c - 0x20 else if 0 ≤ c ∧ c ≤ 0xffff then c else 0)
    unfold IsWide
    split_ifs <;> omega
  towlower c := by
    show IsWide (if 0x41 ≤ c ∧ c ≤ 0x5a then c + 0x20 else if 0 ≤ c ∧ c ≤ 0xffff then c else 0)
    unfold IsWide
    split_ifs <;> omega

/-- A literal with this range. -/
def Literal.range (codeMin codeMax : ℤ) : Literal := ⟨codeMin, codeMax, none, []⟩

variable (loc : Locale)

/-! ## Letters of the other case -/

/-- The inner loops of `add_icase_literals`: how far the characters from `c` on are turned into the ones
from `e` on. -/
def caseRun (conv : ℤ → ℤ) (max : ℤ) : ℕ → ℤ → ℤ → ℤ × ℤ
  | 0, c, e => (c, e)
  | n + 1, c, e => if c ≤ max ∧ conv c = e then caseRun conv max n (c + 1) (e + 1) else (c, e)

/-- `add_icase_literals` from `c` on, with a bound for the number of rounds. -/
def addIcaseFrom (max : ℤ) : ℕ → ℤ → List Literal
  | 0, _ => []
  | n + 1, c =>
    if max < c then []
    else if loc.iswlower c then
      let p := caseRun loc.towupper max n (c + 1) (loc.towupper c + 1)
      .range (loc.towupper c) (p.2 - 1) :: addIcaseFrom max n p.1
    else if loc.iswupper c then
      let p := caseRun loc.towlower max n (c + 1) (loc.towlower c + 1)
      .range (loc.towlower c) (p.2 - 1) :: addIcaseFrom max n p.1
    else addIcaseFrom max n (c + 1)

/-- `add_icase_literals`. -/
def addIcaseLiterals (min max : ℤ) : List Literal := addIcaseFrom loc max (max + 1 - min).toNat min

/-! ## The terms of a list -/

/-- `struct literals` and the classes of `struct neg`. -/
structure Terms where
  ls : List Literal
  neg : List Str

/-- A class, from behind the `[:` on: its name, and what follows. -/
def parseClass (s : Str) : Except RegError (Str × Str) :=
  match (s.take charclassNameMax).findIdx? (· = colon) with
  | none => .error .ectype
  | some len =>
    if loc.isClass (s.take len) ∧ s[len + 1]? = some bracketClose then
      .ok (s.take len, s.drop (len + 2))
    else .error .ectype

/-- A character or a range that begins with the character `wc`, from behind this character on. -/
def parseRange (wc : ℤ) (s : Str) : Except RegError (Literal × Str) :=
  if s.head? = some dash ∧ s[1]? ≠ some bracketClose then
    match loc.wideAt (s.drop 1) with
    | none => .error .erange
    | some (max, len) =>
      if len = 0 ∨ max < wc then .error .erange else .ok (.range wc max, s.drop (1 + len))
  else .ok (.range wc wc, s)

/-- One term of the list that is not its end; `wc` is the first character. -/
def parseTerm (first : Bool) (wc : ℤ) (len : ℕ) (s : Str) : Except RegError (Literal × Str) :=
  if s.head? = some dash ∧ !first ∧ s[1]? ≠ some bracketClose ∧
      (s[1]? ≠ some dash ∨ s[2]? = some bracketClose) then .error .erange
  else if s.head? = some bracketOpen ∧ (s[1]? = some period ∨ s[1]? = some equals) then
    .error .ecollate
  else if s.head? = some bracketOpen ∧ s[1]? = some colon then
    (parseClass loc (s.drop 2)).map fun p => (⟨0, treCharMax, some p.1, []⟩, p.2)
  else parseRange loc wc (s.drop len)

/-- What is done with a term. -/
def addTerm (cflags : BitVec 32) (negate : Bool) (lit : Literal) (terms : Terms) :
    Except RegError Terms :=
  match lit.cls, negate with
  | some name, true =>
    if maxNegClasses ≤ terms.neg.length then .error .espace
    else .ok { terms with neg := terms.neg ++ [name] }
  | _, _ =>
    let ls := terms.ls ++ lit ::
      if has cflags regIcase ∧ lit.cls = none then addIcaseLiterals loc lit.codeMin lit.codeMax
      else []
    if maxLiterals < ls.length then .error .espace else .ok { terms with ls := ls }

/-- `parse_bracket_terms`: the terms, and the pattern behind the `]`. -/
def parseBracketTerms (cflags : BitVec 32) (negate : Bool) :
    ℕ → Bool → Str → Terms → Option (Except RegError (Terms × Str))
  | 0, _, _, _ => none
  | n + 1, first, s, terms =>
    match loc.wideAt s with
    | none => some (.error (if s = [] then .ebrack else .badpat))
    | some (wc, len) =>
      if len = 0 then some (.error (if s = [] then .ebrack else .badpat))
      else if s.head? = some bracketClose ∧ !first then some (.ok (terms, s.drop 1))
      else
        match parseTerm loc first wc len s with
        | .error e => some (.error e)
        | .ok (lit, rest) =>
          match addTerm loc cflags negate lit terms with
          | .error e => some (.error e)
          | .ok terms => parseBracketTerms cflags negate n false rest terms

/-! ## The node -/

/-- The literals in the order of `tre_compare_lit`. -/
def sortLiterals (ls : List Literal) : List Literal :=
  ls.mergeSort fun a b => a.codeMin ≤ b.codeMin

/-- The gaps between the literals of a sorted list, from `negmin` on. -/
def complement (nc : List Str) : ℤ → List Literal → List Literal
  | _, [] => []
  | negmin, lit :: ls =>
    if lit.codeMin ≤ negmin then complement nc (max (lit.codeMax + 1) negmin) ls
    else ⟨negmin, lit.codeMin - 1, lit.cls, nc⟩ :: complement nc (lit.codeMax + 1) ls

/-- What a negated list does not read: its terms, and with `REG_NEWLINE` a newline. -/
def listed (cflags : BitVec 32) (terms : Terms) : List Literal :=
  terms.ls ++ if has cflags regNewline then [.range newline newline] else []

/-- The literals of a negated list. -/
def negated (cflags : BitVec 32) (terms : Terms) : Except RegError (List Literal) :=
  if maxLiterals < (listed cflags terms).length + 1 then .error .espace
  else
    .ok (complement terms.neg 0
      (sortLiterals (listed cflags terms) ++ [.range (treCharMax + 1) (treCharMax + 1)]))

/-- The union that the loop at the end of `parse_bracket` builds; `none` for no node. -/
def bracketUnion (position : ℕ) (ls : List Literal) : Option Ast :=
  ls.foldl (fun node lit =>
    let n : Ast := .literal none (.char position lit)
    some (node.elim n fun node => .union none node n)) none

/-- `parse_bracket`, from behind the `[` on: the node, and the pattern behind the `]`. -/
def parseBracket (cflags : BitVec 32) (position : ℕ) (s : Str) :
    Option (Except RegError (Ast × Str)) :=
  let negate := s.head? = some caret
  let s := if negate then s.drop 1 else s
  match parseBracketTerms loc cflags negate (s.length + 1) true s ⟨[], []⟩ with
  | none => none
  | some (.error e) => some (.error e)
  | some (.ok (terms, rest)) =>
    match if negate then negated cflags terms else .ok terms.ls with
    | .error e => some (.error e)
    | .ok ls => (bracketUnion position ls).map fun node => .ok (node, rest)

/-! ## The loop comes to an end -/

section

variable {loc} {s rest : Str} {wc : ℤ} {len n : ℕ} {first negate : Bool} {lit : Literal}
  {cflags : BitVec 32} {terms : Terms}

theorem ne_nil_of_wideAt (h : loc.wideAt s = some (wc, len)) (hlen : len ≠ 0) : s ≠ [] := by
  rintro rfl
  exact hlen (congrArg Prod.snd (Option.some_inj.mp h)).symm

theorem length_parseRange (h : parseRange loc wc s = .ok (lit, rest)) : rest.length ≤ s.length := by
  rw [parseRange] at h
  split at h
  · split at h
    · cases h
    · split at h
      · cases h
      · cases h
        rw [List.length_drop]
        exact Nat.sub_le _ _
  · cases h
    exact Nat.le_refl _

/-- Every term has at least one byte. -/
theorem length_parseTerm (h : parseTerm loc first wc len s = .ok (lit, rest)) (hs : s ≠ [])
    (hlen : len ≠ 0) : rest.length < s.length := by
  have hpos : 0 < s.length := List.length_pos_of_ne_nil hs
  rw [parseTerm] at h
  split at h
  · cases h
  · split at h
    · cases h
    · split at h
      · cases hc : parseClass loc (s.drop 2) with
        | error e =>
          rw [hc] at h
          cases h
        | ok p =>
          rw [hc] at h
          cases h
          rw [parseClass] at hc
          split at hc
          · cases hc
          · split at hc
            · cases hc
              simp only [List.length_drop]
              omega
            · cases hc
      · have hle := length_parseRange h
        rw [List.length_drop] at hle
        omega

/-- With more rounds than bytes the loop comes to its end. -/
theorem parseBracketTerms_isSome (hn : s.length < n) :
    (parseBracketTerms loc cflags negate n first s terms).isSome = true := by
  induction n generalizing first s terms with
  | zero => exact absurd hn (Nat.not_lt_zero _)
  | succ n ih =>
    rw [parseBracketTerms]
    split
    · rfl
    · next wc len hwide =>
      split
      · rfl
      · next hlen =>
        split
        · rfl
        · split
          · rfl
          · next lit rest hterm =>
            have hlt := length_parseTerm hterm (ne_nil_of_wideAt hwide hlen) hlen
            split
            · rfl
            · exact ih (by omega)

/-- Only so many bytes are read as there are. -/
theorem length_parseBracketTerms {terms' : Terms}
    (h : parseBracketTerms loc cflags negate n first s terms = some (.ok (terms', rest))) :
    rest.length < s.length := by
  induction n generalizing first s terms with
  | zero => cases h
  | succ n ih =>
    rw [parseBracketTerms] at h
    split at h
    · cases h
    · next wc len hwide =>
      split at h
      · cases h
      · next hlen =>
        have hs := ne_nil_of_wideAt hwide hlen
        split at h
        · cases h
          have hpos : 0 < s.length := List.length_pos_of_ne_nil hs
          rw [List.length_drop]
          omega
        · split at h
          · cases h
          · next lit rest' hterm =>
            split at h
            · cases h
            · exact (ih h).trans (length_parseTerm hterm hs hlen)

end

/-! ## The gaps -/

/-- The literal has a character. -/
def Literal.Covers (lit : Literal) (c : ℤ) : Prop := lit.codeMin ≤ c ∧ c ≤ lit.codeMax

section

variable {nc : List Str} {ls : List Literal} {negmin c : ℤ}

/-- No gap begins in front of `negmin`. -/
theorem le_of_mem_complement (hls : ∀ l ∈ ls, l.codeMin ≤ l.codeMax) :
    ∀ l ∈ complement nc negmin ls, negmin ≤ l.codeMin := by
  induction ls generalizing negmin with
  | nil => exact fun l hl => absurd hl List.not_mem_nil
  | cons a ls ih =>
    have ha := hls a List.mem_cons_self
    have hls' : ∀ l ∈ ls, l.codeMin ≤ l.codeMax := fun l hl => hls l (List.mem_cons_of_mem _ hl)
    intro l hl
    rw [complement] at hl
    split at hl
    · exact (le_max_right _ _).trans (ih hls' l hl)
    · rcases List.mem_cons.mp hl with rfl | hl
      · exact le_refl _
      · have hle := ih hls' l hl
        omega

/-- **The gaps between literals have the characters that the literals do not have**, from `negmin` up to
where the last literal begins. -/
theorem mem_complement (hsort : ls.Pairwise fun a b => a.codeMin ≤ b.codeMin)
    (hls : ∀ l ∈ ls, l.codeMin ≤ l.codeMax) (hmin : negmin ≤ c) (hmax : ∃ l ∈ ls, c < l.codeMin) :
    (∃ l ∈ complement nc negmin ls, l.Covers c) ↔ ∀ l ∈ ls, ¬ l.Covers c := by
  induction ls generalizing negmin with
  | nil =>
    obtain ⟨l, hl, -⟩ := hmax
    exact absurd hl List.not_mem_nil
  | cons a ls ih =>
    obtain ⟨ha, hsort⟩ := List.pairwise_cons.mp hsort
    have hle := hls a List.mem_cons_self
    have hls' : ∀ l ∈ ls, l.codeMin ≤ l.codeMax := fun l hl => hls l (List.mem_cons_of_mem _ hl)
    -- a character behind `a` is in front of a literal that is left
    have hrest : a.codeMax < c → ∃ l ∈ ls, c < l.codeMin := by
      intro hc
      obtain ⟨l, hl, hlt⟩ := hmax
      rcases List.mem_cons.mp hl with rfl | hl
      · omega
      · exact ⟨l, hl, hlt⟩
    have hfront : ∀ {m}, c < m → ¬ ∃ l ∈ complement nc m ls, l.Covers c := by
      rintro m hm ⟨l, hl, hcov⟩
      have hge := le_of_mem_complement hls' l hl
      have hcov := hcov.1
      omega
    simp only [List.forall_mem_cons]
    rw [complement]
    split
    · next hov =>
      by_cases hc : c < max (a.codeMax + 1) negmin
      · exact iff_of_false (hfront hc) fun h => h.1 ⟨by omega, by omega⟩
      · rw [ih hsort hls' (by omega) (hrest (by omega))]
        have hnot : ¬ a.Covers c := fun h => by
          have h := h.2
          omega
        exact (and_iff_right hnot).symm
    · next hgap =>
      simp only [List.exists_mem_cons_iff]
      rcases lt_or_ge c a.codeMin with hlt | hge
      · refine iff_of_true (.inl ⟨hmin, by simp only; omega⟩) ⟨fun h => ?_, fun l hl h => ?_⟩
        · have h := h.1
          omega
        · have h := h.1
          have hal := ha l hl
          omega
      · have hnot : ¬ Literal.Covers ⟨negmin, a.codeMin - 1, a.cls, nc⟩ c := fun h => by
          have h := h.2
          simp only at h
          omega
        rw [or_iff_right hnot]
        rcases lt_or_ge a.codeMax c with hlt | hle'
        · rw [ih hsort hls' (by omega) (hrest hlt)]
          have hnot : ¬ a.Covers c := fun h => by
            have h := h.2
            omega
          exact (and_iff_right hnot).symm
        · exact iff_of_false (hfront (by omega)) fun h => h.1 ⟨hge, hle'⟩

end

/-! ## There is always a node -/

/-- A range of characters with 16 bits. -/
structure Literal.IsRange (lit : Literal) : Prop where
  cls : lit.cls = none
  negClasses : lit.negClasses = []
  nonneg : 0 ≤ lit.codeMin
  le : lit.codeMin ≤ lit.codeMax
  wide : lit.codeMax ≤ 0xffff

/-- The literal of a class. -/
def Literal.IsClass (lit : Literal) : Prop := ∃ name, lit = ⟨0, treCharMax, some name, []⟩

section

variable {loc} {s rest : Str} {wc max : ℤ} {len n : ℕ} {first negate : Bool} {lit : Literal}
  {cflags : BitVec 32} {terms terms' : Terms}

theorem wide_wideAt (hloc : loc.ReadsWide) (h : loc.wideAt s = some (wc, len)) : IsWide wc := by
  cases s with
  | nil =>
    obtain rfl : 0 = wc := congrArg Prod.fst (Option.some_inj.mp h)
    exact ⟨le_refl 0, by decide⟩
  | cons c s => exact hloc.mbtowc _ _ _ h

theorem caseRun_facts {conv : ℤ → ℤ} (hconv : ∀ c, IsWide (conv c)) {c e : ℤ} (he : e ≤ 0x10000) :
    e ≤ (caseRun conv max n c e).2 ∧ (caseRun conv max n c e).2 ≤ 0x10000 := by
  induction n generalizing c e with
  | zero => exact ⟨le_refl e, he⟩
  | succ n ih =>
    rw [caseRun]
    split
    · next h =>
      have hwide := (hconv c).2
      obtain ⟨h₁, h₂⟩ := ih (c := c + 1) (e := e + 1) (by omega)
      exact ⟨by omega, h₂⟩
    · exact ⟨le_refl e, he⟩

theorem isRange_addIcaseFrom (hloc : loc.ReadsWide) {c : ℤ} :
    ∀ l ∈ addIcaseFrom loc max n c, l.IsRange := by
  have hrun : ∀ {conv : ℤ → ℤ}, (∀ c, IsWide (conv c)) → ∀ n c d,
      (Literal.range (conv c) ((caseRun conv max n d (conv c + 1)).2 - 1)).IsRange := by
    intro conv hconv n c d
    have hc := hconv c
    have hlt : conv c + 1 ≤ 0x10000 := by
      have h := hc.2
      omega
    have hfacts : conv c + 1 ≤ (caseRun conv max n d (conv c + 1)).2 ∧
        (caseRun conv max n d (conv c + 1)).2 ≤ 0x10000 := caseRun_facts hconv hlt
    exact ⟨rfl, rfl, hc.1, by simp only [Literal.range]; omega,
      by simp only [Literal.range]; omega⟩
  induction n generalizing c with
  | zero => exact fun l hl => absurd hl List.not_mem_nil
  | succ n ih =>
    rw [addIcaseFrom]
    split
    · exact fun l hl => absurd hl List.not_mem_nil
    · split
      · intro l hl
        rcases List.mem_cons.mp hl with rfl | hl
        · exact hrun hloc.towupper n c _
        · exact ih l hl
      · split
        · intro l hl
          rcases List.mem_cons.mp hl with rfl | hl
          · exact hrun hloc.towlower n c _
          · exact ih l hl
        · exact ih

/-- A term is a range, or a class. -/
theorem parseTerm_facts (hloc : loc.ReadsWide) (hwc : IsWide wc)
    (h : parseTerm loc first wc len s = .ok (lit, rest)) : lit.IsRange ∨ lit.IsClass := by
  rw [parseTerm] at h
  split at h
  · cases h
  · split at h
    · cases h
    · split at h
      · cases hc : parseClass loc (s.drop 2) with
        | error e =>
          rw [hc] at h
          cases h
        | ok p =>
          rw [hc] at h
          cases h
          exact .inr ⟨_, rfl⟩
      · rw [parseRange] at h
        split at h
        · split at h
          · cases h
          · next max len' hwide =>
            split at h
            · cases h
            · next hle =>
              cases h
              rw [not_or, not_lt] at hle
              exact .inl ⟨rfl, rfl, hwc.1, hle.2, (wide_wideAt hloc hwide).2⟩
        · cases h
          exact .inl ⟨rfl, rfl, hwc.1, le_refl wc, hwc.2⟩

/-- What has been collected: ranges, and classes unless the list is negated. -/
def Terms.Collected (negate : Bool) (terms : Terms) : Prop :=
  ∀ l ∈ terms.ls, l.IsRange ∨ negate = false ∧ l.IsClass

theorem collected_append (hloc : loc.ReadsWide) (hterms : terms.Collected negate)
    (hlit : lit.IsRange ∨ negate = false ∧ lit.IsClass) {min max : ℤ} {icase : Prop}
    [Decidable icase]
    (h : (if maxLiterals < (terms.ls ++ lit :: if icase then addIcaseLiterals loc min max else
        []).length then Except.error RegError.espace
      else .ok { terms with
        ls := terms.ls ++ lit :: if icase then addIcaseLiterals loc min max else [] }) =
      .ok terms') : terms'.Collected negate ∧ terms'.ls ≠ [] := by
  have hicase : ∀ l ∈ (if icase then addIcaseLiterals loc min max else []), l.IsRange := by
    intro l hl
    split at hl
    · exact isRange_addIcaseFrom hloc l hl
    · exact absurd hl List.not_mem_nil
  generalize (if icase then addIcaseLiterals loc min max else []) = more at h hicase
  split at h
  · cases h
  · cases h
    refine ⟨fun l hl => ?_, by simp⟩
    rcases List.mem_append.mp hl with hl | hl
    · exact hterms l hl
    · rcases List.mem_cons.mp hl with rfl | hl
      · exact hlit
      · exact .inl (hicase l hl)

theorem collected_addTerm (hloc : loc.ReadsWide) (hterms : terms.Collected negate)
    (hlit : lit.IsRange ∨ lit.IsClass) (h : addTerm loc cflags negate lit terms = .ok terms') :
    terms'.Collected negate ∧ (negate = false → terms'.ls ≠ []) := by
  rcases hlit with hrange | ⟨name, rfl⟩
  · rw [addTerm, hrange.cls] at h
    · obtain ⟨hcol, hne⟩ := collected_append hloc hterms (.inl hrange) h
      exact ⟨hcol, fun _ => hne⟩
    · intro name hname
      rw [hrange.cls] at hname
      cases hname
  · cases negate with
    | false =>
      obtain ⟨hcol, hne⟩ := collected_append hloc hterms (.inr ⟨rfl, name, rfl⟩) h
      exact ⟨hcol, fun _ => hne⟩
    | true =>
      simp only [addTerm] at h
      split at h
      · cases h
      · cases h
        exact ⟨hterms, fun hn => by cases hn⟩

theorem collected_parseBracketTerms (hloc : loc.ReadsWide) (hterms : terms.Collected negate)
    (hfirst : negate = false → first = false → terms.ls ≠ [])
    (h : parseBracketTerms loc cflags negate n first s terms = some (.ok (terms', rest))) :
    terms'.Collected negate ∧ (negate = false → terms'.ls ≠ []) := by
  induction n generalizing first s terms with
  | zero => cases h
  | succ n ih =>
    rw [parseBracketTerms] at h
    split at h
    · cases h
    · next wc len hwide =>
      split at h
      · cases h
      · split at h
        · next hend =>
          cases h
          exact ⟨hterms, fun hn => hfirst hn (by simpa using hend.2)⟩
        · split at h
          · cases h
          · next lit rest' hterm =>
            split at h
            · cases h
            · next terms'' hadd =>
              obtain ⟨hcol, hne⟩ := collected_addTerm hloc hterms
                (parseTerm_facts hloc (wide_wideAt hloc hwide) hterm) hadd
              exact ih hcol (fun hn _ => hne hn) h

theorem bracketUnion_isSome {position : ℕ} {ls : List Literal} (h : ls ≠ []) :
    (bracketUnion position ls).isSome = true := by
  have hfold : ∀ (ls : List Literal) (node : Option Ast), node.isSome = true →
      (ls.foldl (fun node lit =>
        let n : Ast := .literal none (.char position lit)
        some (node.elim n fun node => .union none node n)) node).isSome = true := by
    intro ls
    induction ls with
    | nil => exact fun node h => h
    | cons lit ls ih => exact fun node _ => ih _ rfl
  cases ls with
  | nil => exact absurd rfl h
  | cons lit ls => exact hfold ls _ rfl

/-- The list with which the gaps are found. -/
theorem sorted_negated {ls : List Literal} (hls : ∀ l ∈ ls, l.IsRange) :
    (sortLiterals ls ++ [Literal.range (treCharMax + 1) (treCharMax + 1)]).Pairwise
        (fun a b => a.codeMin ≤ b.codeMin) ∧
      ∀ l ∈ sortLiterals ls ++ [Literal.range (treCharMax + 1) (treCharMax + 1)],
        l.codeMin ≤ l.codeMax := by
  constructor
  · refine List.pairwise_append.mpr ⟨?_, List.pairwise_singleton _ _, fun a ha b hb => ?_⟩
    · have hsort : (sortLiterals ls).Pairwise fun a b => decide (a.codeMin ≤ b.codeMin) = true :=
        List.pairwise_mergeSort
          (fun a b c hab hbc => by
            rw [decide_eq_true_eq] at hab hbc ⊢
            exact hab.trans hbc)
          (fun a b => by
            rw [Bool.or_eq_true, decide_eq_true_eq, decide_eq_true_eq]
            exact le_total _ _) ls
      exact hsort.imp fun hab => of_decide_eq_true hab
    · obtain rfl := List.mem_singleton.mp hb
      have hr := hls a (List.mem_mergeSort.mp ha)
      have h₁ := hr.le
      have h₂ := hr.wide
      simp only [Literal.range, treCharMax]
      omega
  · intro l hl
    rcases List.mem_append.mp hl with hl | hl
    · exact (hls l (List.mem_mergeSort.mp hl)).le
    · obtain rfl := List.mem_singleton.mp hl
      exact le_refl _

theorem isRange_listed (hcol : terms.Collected true) : ∀ l ∈ listed cflags terms, l.IsRange := by
  intro l hl
  rcases List.mem_append.mp hl with hl | hl
  · exact (hcol l hl).resolve_right fun hc => by cases hc.1
  · split at hl
    · obtain rfl := List.mem_singleton.mp hl
      exact ⟨rfl, rfl, by decide, le_refl _, by decide⟩
    · exact absurd hl List.not_mem_nil

/-- **A negated list has the characters that are not listed.** -/
theorem covers_negated {ls : List Literal} {c : ℤ} (hcol : terms.Collected true)
    (h : negated cflags terms = .ok ls) (hc : 0 ≤ c) (hmax : c ≤ treCharMax) :
    (∃ l ∈ ls, l.Covers c) ↔ ∀ l ∈ listed cflags terms, ¬ l.Covers c := by
  have hls : ∀ l ∈ listed cflags terms, l.IsRange := isRange_listed hcol
  rw [negated] at h
  split at h
  · cases h
  · cases h
    obtain ⟨hsort, hle⟩ := sorted_negated hls
    rw [mem_complement hsort hle hc ⟨_, List.mem_append_right _ List.mem_cons_self, by
      simp only [Literal.range]
      omega⟩]
    constructor
    · exact fun h l hl => h l (List.mem_append_left _ (List.mem_mergeSort.mpr hl))
    · intro h l hl
      rcases List.mem_append.mp hl with hl | hl
      · exact h l (List.mem_mergeSort.mp hl)
      · obtain rfl := List.mem_singleton.mp hl
        rintro ⟨hge, -⟩
        simp only [Literal.range] at hge
        omega

/-- **There is always a node.** -/
theorem parseBracket_isSome (hloc : loc.ReadsWide) {position : ℕ} :
    (parseBracket loc cflags position s).isSome = true := by
  rw [parseBracket]
  split
  · next hnone =>
    have hsome : (parseBracketTerms loc cflags (s.head? = some caret)
        ((if s.head? = some caret then s.drop 1 else s).length + 1) true
        (if s.head? = some caret then s.drop 1 else s) ⟨[], []⟩).isSome = true :=
      parseBracketTerms_isSome (Nat.lt_succ_self _)
    rw [hnone] at hsome
    cases hsome
  · rfl
  · next terms rest hterms =>
    have hstart : Terms.Collected (decide (s.head? = some caret)) ⟨[], []⟩ :=
      fun l hl => absurd hl List.not_mem_nil
    obtain ⟨hcol, hne⟩ := collected_parseBracketTerms hloc hstart
      (fun _ hfirst => by cases hfirst) hterms
    split
    · rfl
    · next ls hls =>
      rw [Option.isSome_map]
      refine bracketUnion_isSome ?_
      by_cases hneg : s.head? = some caret
      · rw [if_pos hneg] at hls
        rw [decide_eq_true hneg] at hcol
        have hlast : ∃ l ∈ ls, l.Covers treCharMax :=
          (covers_negated hcol hls (by decide) (le_refl _)).mpr fun l hl hcov => by
            have h₁ := (isRange_listed hcol l hl).wide
            have h₂ := hcov.2
            simp only [treCharMax] at h₂
            omega
        obtain ⟨l, hl, -⟩ := hlast
        exact List.ne_nil_of_mem hl
      · rw [if_neg hneg] at hls
        cases hls
        exact hne (decide_eq_false hneg)

end

end Tre
end UtilWin
