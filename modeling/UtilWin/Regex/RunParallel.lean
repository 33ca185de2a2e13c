import UtilWin.Library.Frontier
import UtilWin.Regex.Compiled
import UtilWin.Regex.ParseBracket

/-!
# The parallel matcher

`tre_tnfa_run_parallel` reads the string once.  Behind each character it has the states in which a match
that has begun somewhere can be, each with the values of its tags; as long as there is no match, the
initial states are added.  If two paths come to the same state, `tre_tag_order` decides which one stays.

A state is named by its number, and the pointer in `reach_pos` by the state: an entry of `reach_next` has
been made in this round if there is one.  The minimal tags, which no pattern of this parser has, and running
out of memory are left out.

The text is a list of characters, each with its number of bytes.  Nothing behind the character that is
looked at ahead is read, so a byte that does not belong to a character is an error when it is the next
one (`wchars`).

What a literal reads and where an assertion holds is now known (`Search.reading`).  What the matcher finds
is a path through the automaton, with the tags of that path (`treTnfaRunParallel_sound`), and it finds one
if there is one (`treTnfaRunParallel_isSome`).  This is so with any tags: they only decide which one it
is.
-/

namespace UtilWin
namespace Tre

open Glob (Str has)
open Frontier

def regNotbol : BitVec 32 := 1
def regNoteol : BitVec 32 := 2

/-- `L'_'`. -/
def underscore : ℤ := 95

/-- `GET_NEXT_WCHAR` up to the end of the string: the characters, and whether the end has been reached.
The number is of the bytes that still belong to the last character. -/
def wchars (loc : Locale) : ℕ → Str → List (ℤ × ℕ) × Bool
  | _, [] => ([], true)
  | n + 1, _ :: str => wchars loc n str
  | 0, c :: str =>
    match loc.mbtowc (c :: str) with
    | none => ([], false)
    | some (wc, n) =>
      if wc = 0 then ([], true)
      else ((wc, max n 1) :: (wchars loc (n - 1) str).1, (wchars loc (n - 1) str).2)

/-- What `tre_tnfa_run_parallel` is given: `numTags` is `0` if there are no `match_tags`. -/
structure Search where
  loc : Locale
  tnfa : Tnfa
  cflags : BitVec 32
  eflags : BitVec 32
  numTags : ℕ
  tagDirections : ℕ → TagDirection

/-- `tre_tag_order`, from the tag `i` on. -/
def treTagOrder (tagDirections : ℕ → TagDirection) : ℕ → List ℤ → List ℤ → Bool
  | i, t1 :: ts1, t2 :: ts2 =>
    if t1 = t2 then treTagOrder tagDirections (i + 1) ts1 ts2
    else if tagDirections i = .minimize then t1 < t2 else t2 < t1
  | _, _, _ => false

/-- The tags of a transition are put to a position. -/
def setTags (tags : List ℤ) (ids : List ℕ) (pos : ℕ) : List ℤ :=
  ids.foldl (fun tags id => tags.set id pos) tags

/-- `reach_next`, `match_eo` and `match_tags`. -/
structure Progress where
  reachNext : List (ℕ × List ℤ)
  matchEo : Option ℕ
  matchTags : List ℤ

namespace Search

variable (s : Search)

/-- `IS_WORD_CHAR`. -/
def isWordChar (c : ℤ) : Bool := c = underscore || s.loc.iswalnum c

/-- Whether an assertion does not hold. -/
def fails (pos : ℕ) (prev next : ℤ) : Assertion → Bool
  | .atBol => (0 < pos || has s.eflags regNotbol) && (prev ≠ newline || !has s.cflags regNewline)
  | .atEol => (next ≠ 0 || has s.eflags regNoteol) && (next ≠ newline || !has s.cflags regNewline)
  | .atBow => s.isWordChar prev || !s.isWordChar next
  | .atEow => !s.isWordChar prev || s.isWordChar next
  | .atWb => pos ≠ 0 && next ≠ 0 && s.isWordChar prev == s.isWordChar next
  | .atWbNeg => pos = 0 || next = 0 || s.isWordChar prev != s.isWordChar next

/-- `CHECK_ASSERTIONS`: whether one of them does not hold. -/
def checkAssertions (as : Assertions) (pos : ℕ) (prev next : ℤ) : Bool :=
  (has as assertAtBol && s.fails pos prev next .atBol)
    || (has as assertAtEol && s.fails pos prev next .atEol)
    || (has as assertAtBow && s.fails pos prev next .atBow)
    || (has as assertAtEow && s.fails pos prev next .atEow)
    || (has as assertAtWb && s.fails pos prev next .atWb)
    || (has as assertAtWbNeg && s.fails pos prev next .atWbNeg)

/-- `tre_neg_char_classes_match`. -/
def negCharClassesMatch (classes : List Str) (wc : ℤ) (icase : Bool) : Bool :=
  classes.any fun name =>
    (!icase && s.loc.iswctype wc name) ||
      (icase && (s.loc.iswctype (s.loc.towupper wc) name ||
        s.loc.iswctype (s.loc.towlower wc) name))

/-- `CHECK_CHAR_CLASSES`: whether the character is not in the class, or is in a negated one. -/
def checkCharClasses (tr : Transition) (prev : ℤ) : Bool :=
  (has tr.assertions assertCharClass && !has s.cflags regIcase
      && !tr.cls.any fun name => s.loc.iswctype prev name)
    || (has tr.assertions assertCharClass && has s.cflags regIcase
      && (!tr.cls.any fun name => s.loc.iswctype (s.loc.towlower prev) name)
      && !tr.cls.any fun name => s.loc.iswctype (s.loc.towupper prev) name)
    || (has tr.assertions assertCharClassNeg
      && s.negCharClassesMatch tr.negClasses prev (has s.cflags regIcase))

/-- Whether a transition matches the input symbol `prev`, behind which the position is `pos`. -/
def matchesSymbol (tr : Transition) (pos : ℕ) (prev next : ℤ) : Bool :=
  tr.codeMin ≤ prev && prev ≤ tr.codeMax &&
    !(tr.assertions ≠ 0 &&
      (s.checkAssertions tr.assertions pos prev next || s.checkCharClasses tr prev))

/-- A match has been found. -/
def found (pos : ℕ) (tags : List ℤ) (p : Progress) : Progress :=
  { p with matchEo := some pos, matchTags := tags }

/-- The loop over `initial`. -/
def addInitial (pos : ℕ) (prev next : ℤ) (p : Progress) (i : Initial) : Progress :=
  if i.stateId ∈ p.reachNext.map Prod.fst then p
  else if i.assertions ≠ 0 ∧ s.checkAssertions i.assertions pos prev next then p
  else
    let tags := setTags (List.replicate s.numTags (-1)) i.tags pos
    let q := { p with reachNext := p.reachNext ++ [(i.stateId, tags)] }
    if i.stateId = s.tnfa.final then found pos tags q else q

/-- Whether a path that has come to the final state first in this round is a match: the first one, or
one that does not begin later. -/
def isMatch (tags : List ℤ) (p : Progress) : Bool :=
  p.matchEo = none || (0 < s.numTags && tags.headD 0 ≤ p.matchTags.headD 0)

/-- What is done for a transition that matches. -/
def follow (pos : ℕ) (p : Progress) (stateId : ℕ) (tags : List ℤ) : Progress :=
  let wins := treTagOrder s.tagDirections 0
  let q := { p with reachNext := keep wins stateId tags p.reachNext }
  match p.reachNext.find? fun x => x.1 = stateId with
  | none => if stateId = s.tnfa.final ∧ s.isMatch tags p then found pos tags q else q
  | some other => if wins tags other.2 ∧ stateId = s.tnfa.final then found pos tags q else q

/-- The transitions out of the states in `reach` that match. -/
def candidates (pos : ℕ) (prev next : ℤ) (reach : List (ℕ × List ℤ)) : List (ℕ × List ℤ) :=
  reach.flatMap fun x =>
    ((s.tnfa.transitions x.1).filter fun tr => s.matchesSymbol tr pos prev next).map fun tr =>
      (tr.stateId, setTags x.2 tr.tags pos)

/-- One character is read: the loop over `reach`. -/
def round (pos : ℕ) (prev next : ℤ) (p : Progress) : Progress :=
  (s.candidates pos prev next p.reachNext).foldl (fun q x => s.follow pos q x.1 x.2)
    { p with reachNext := [] }

/-- What is done before the next character is read; `none` if there is nothing more to do. -/
def begin (pos : ℕ) (prev next : ℤ) (p : Progress) : Option Progress :=
  if p.matchEo = none then some (s.tnfa.initial.foldl (s.addInitial pos prev next) p)
  else if s.numTags = 0 ∨ p.reachNext = [] then none
  else some p

/-- `next_c`, if these are the characters to come. -/
def nextC (text : List (ℤ × ℕ)) : ℤ := (text.head?.map Prod.fst).getD 0

/-- The loop, with the characters to come, and whether the string ends behind them.  It is `none` if a
byte does not belong to a character. -/
def rounds (ends : Bool) : ℕ → ℤ → List (ℤ × ℕ) → Progress → Option Progress
  | pos, prev, [], p => some ((s.begin pos prev 0 p).getD p)
  | pos, prev, (c, n) :: text, p =>
    match s.begin pos prev c p with
    | none => some p
    | some p =>
      if text = [] ∧ !ends then none
      else rounds ends (pos + n) c text (s.round (pos + n) c (nextC text) p)

end Search

/-- `tre_tnfa_run_parallel`: `match_end_ofs` and `match_tags`, or `none` for `REG_NOMATCH`. -/
def treTnfaRunParallel (s : Search) (string : Str) : Option (ℕ × List ℤ) :=
  let text := wchars s.loc 0 string
  if text.1 = [] ∧ !text.2 then none
  else
    (s.rounds text.2 0 0 text.1 ⟨[], none, []⟩).bind fun p => p.matchEo.map fun eo => (eo, p.matchTags)

/-! ## What is read, and where an assertion holds -/

/-- The number of bytes in front of a character. -/
def offset (text : List (ℤ × ℕ)) (t : ℕ) : ℕ := ((text.take t).map Prod.snd).sum

/-- `prev_c`, behind these characters. -/
def Search.prevC (text : List (ℤ × ℕ)) : ℤ := (text.getLast?.map Prod.fst).getD 0

namespace Search

variable (s : Search)

/-- Whether a character is in a class. -/
def inClass (wc : ℤ) (name : Str) : Bool :=
  if has s.cflags regIcase then
    s.loc.iswctype (s.loc.towupper wc) name || s.loc.iswctype (s.loc.towlower wc) name
  else s.loc.iswctype wc name

/-- Whether a literal reads a character. -/
def accepts (lit : Literal) (wc : ℤ) : Prop :=
  (lit.codeMin ≤ wc ∧ wc ≤ lit.codeMax) ∧
    (∀ name ∈ lit.cls, s.inClass wc name = true) ∧ ∀ name ∈ lit.negClasses, s.inClass wc name = false

/-- The text as the matcher reads it.  A time is the number of characters that have been read. -/
def reading (text : List (ℤ × ℕ)) : Reading ℕ where
  reads lit t u := u = t + 1 ∧ ∃ c ∈ text[t]?, s.accepts lit c.1
  refers _ _ _ := False
  holds x t :=
    s.fails (offset text t) (prevC (text.take t)) (nextC (text.drop t)) x = false

end Search

/-- The bits about classes are there if there are classes. -/
structure Marked (tr : Transition) : Prop where
  cls : has tr.assertions assertCharClass = tr.cls.isSome
  negClasses : has tr.assertions assertCharClassNeg = decide (tr.negClasses ≠ [])

/-- An automaton as `tre_ast_to_tnfa` makes it, with marked transitions. -/
def Tnfa.Marked (tnfa : Tnfa) : Prop :=
  ∀ q, ∀ tr ∈ tnfa.transitions q, Tre.Marked tr

section

variable {s : Search} {as : Assertions} {pos t u : ℕ} {prev next : ℤ} {tr : Transition}
  {text : List (ℤ × ℕ)}

theorem checkAssertions_eq_false :
    s.checkAssertions as pos prev next = false ↔
      ∀ x : Assertion, has as x.bit = true → s.fails pos prev next x = false := by
  simp only [Search.checkAssertions, Bool.or_eq_false_iff, Bool.and_eq_false_imp]
  constructor
  · rintro ⟨⟨⟨⟨⟨h₁, h₂⟩, h₃⟩, h₄⟩, h₅⟩, h₆⟩ x hx
    cases x with
    | atBol => exact h₁ hx
    | atEol => exact h₂ hx
    | atBow => exact h₃ hx
    | atEow => exact h₄ hx
    | atWb => exact h₅ hx
    | atWbNeg => exact h₆ hx
  · intro h
    exact ⟨⟨⟨⟨⟨h .atBol, h .atEol⟩, h .atBow⟩, h .atEow⟩, h .atWb⟩, h .atWbNeg⟩

/-- The test for no assertions at all saves work only. -/
theorem holds_of_zero (h : ¬ (as ≠ 0 ∧ s.checkAssertions as pos prev next = true)) :
    s.checkAssertions as pos prev next = false := by
  by_cases hzero : as = 0
  · subst hzero
    exact checkAssertions_eq_false.mpr fun x hx => by simp [has] at hx
  · exact Bool.eq_false_iff.mpr fun hc => h ⟨hzero, hc⟩

theorem negCharClassesMatch_eq_false {classes : List Str} {wc : ℤ} :
    s.negCharClassesMatch classes wc (has s.cflags regIcase) = false ↔
      ∀ name ∈ classes, s.inClass wc name = false := by
  rw [Search.negCharClassesMatch, List.any_eq_false]
  refine forall_congr' fun name => forall_congr' fun _ => ?_
  rw [Search.inClass]
  cases has s.cflags regIcase <;> simp

theorem checkCharClasses_eq_false (h : Marked tr) :
    s.checkCharClasses tr prev = false ↔
      (∀ name ∈ tr.cls, s.inClass prev name = true) ∧
        ∀ name ∈ tr.negClasses, s.inClass prev name = false := by
  rw [Search.checkCharClasses, h.cls, h.negClasses, Bool.or_eq_false_iff]
  refine and_congr ?_ ?_
  · simp only [Search.inClass]
    cases tr.cls with
    | none => simp
    | some name =>
      cases has s.cflags regIcase
      · simp
      · simp [or_iff_not_imp_left]
  · rw [Bool.and_eq_false_imp, negCharClassesMatch_eq_false]
    refine ⟨fun hneg name hname => ?_, fun hneg _ => hneg⟩
    exact hneg (decide_eq_true (List.ne_nil_of_mem hname)) name hname

theorem matchesSymbol_iff (h : Marked tr) :
    s.matchesSymbol tr pos prev next = true ↔
      s.accepts ⟨tr.codeMin, tr.codeMax, tr.cls, tr.negClasses⟩ prev ∧
        ∀ x : Assertion, has tr.assertions x.bit = true → s.fails pos prev next x = false := by
  have hzero : (!(decide (tr.assertions ≠ 0) &&
      (s.checkAssertions tr.assertions pos prev next || s.checkCharClasses tr prev))) = true ↔
      s.checkAssertions tr.assertions pos prev next = false ∧ s.checkCharClasses tr prev = false := by
    by_cases has0 : tr.assertions = 0
    · have hcls : s.checkCharClasses tr prev = false := by
        simp [Search.checkCharClasses, has0, has]
      have hass : s.checkAssertions tr.assertions pos prev next = false :=
        holds_of_zero fun hc => hc.1 has0
      simp [hcls, hass]
    · have hne : tr.assertions ≠ 0#32 := has0
      simp [hne]
  rw [Search.matchesSymbol, Bool.and_eq_true, hzero, checkCharClasses_eq_false h,
    checkAssertions_eq_false, Search.accepts, Bool.and_eq_true, decide_eq_true_eq,
    decide_eq_true_eq]
  tauto

end

/-! ## Paths with their tags -/

/-- A path through the automaton from one time to another: the state it comes to, and its tags. -/
inductive Search.Path (s : Search) (text : List (ℤ × ℕ)) : ℕ → ℕ → ℕ → List ℤ → Prop
  | start {i : Initial} {t : ℕ} : i ∈ s.tnfa.initial → HoldsAll (s.reading text) i.assertions t →
      Path s text t t i.stateId (setTags (List.replicate s.numTags (-1)) i.tags (offset text t))
  | step {t u v q : ℕ} {tags : List ℤ} {tr : Transition} : Path s text t u q tags →
      tr ∈ s.tnfa.transitions q → Fires (s.reading text) tr u v →
      Path s text t v tr.stateId (setTags tags tr.tags (offset text v))

section

variable {s : Search} {text : List (ℤ × ℕ)} {t u i q : ℕ} {tr : Transition}

theorem accepts_iff_path :
    s.tnfa.Accepts (s.reading text) t u ↔ ∃ tags, s.Path text t u s.tnfa.final tags := by
  constructor
  · rintro ⟨i, hi, hholds, h⟩
    have hpath : ∀ {q v w tags}, s.tnfa.Arrives (s.reading text) q v w → s.Path text t v q tags →
        ∃ tags, s.Path text t w s.tnfa.final tags := by
      intro q v w tags h
      induction h generalizing tags with
      | here v => exact fun hpath => ⟨tags, hpath⟩
      | step htr hfires _ ih => exact fun hpath => ih (hpath.step htr hfires)
    exact hpath h (.start hi hholds)
  · have haccepts : ∀ {v q tags}, s.Path text t v q tags →
        s.tnfa.Arrives (s.reading text) q v u → s.tnfa.Accepts (s.reading text) t u := by
      intro v q tags h
      induction h with
      | start hi hholds => exact fun h => ⟨_, hi, hholds, h⟩
      | step _ htr hfires ih => exact fun h => ih (.step htr hfires h)
    rintro ⟨tags, h⟩
    exact haccepts h (.here u)

theorem prevC_take_succ {c : ℤ × ℕ} (h : text[t]? = some c) :
    Search.prevC (text.take (t + 1)) = c.1 := by
  rw [Search.prevC, List.take_add_one, h, Option.toList_some, List.getLast?_concat]
  rfl

theorem fires_iff (h : Marked tr) :
    Fires (s.reading text) tr t u ↔
      u = t + 1 ∧ ∃ c ∈ text[t]?,
        s.matchesSymbol tr (offset text u) c.1 (Search.nextC (text.drop u)) = true := by
  simp only [Fires, HoldsAll, Search.reading, matchesSymbol_iff h]
  constructor
  · rintro ⟨⟨rfl, c, hc, hacc⟩, hholds⟩
    refine ⟨rfl, c, hc, hacc, ?_⟩
    rwa [prevC_take_succ hc] at hholds
  · rintro ⟨rfl, c, hc, hacc, hholds⟩
    refine ⟨⟨rfl, c, hc, hacc⟩, ?_⟩
    rwa [prevC_take_succ hc]

theorem path_le {tags : List ℤ} (hm : s.tnfa.Marked) (h : s.Path text i t q tags) : i ≤ t := by
  induction h with
  | start _ _ => exact Nat.le_refl _
  | step _ htr hfires ih =>
    obtain ⟨rfl, -⟩ := (fires_iff (hm _ _ htr)).mp hfires
    exact Nat.le_succ_of_le ih

end

/-! ## What one round does -/

section

variable {s : Search} {p : Progress} {pos k : ℕ} {prev next : ℤ} {v : List ℤ} {i : Initial}
  {cands : List (ℕ × List ℤ)}

/-- The states that are held. -/
def Progress.states (p : Progress) : List ℕ := p.reachNext.map Prod.fst

/-- A state is held with its tags; if it is the final one, that may be the match. -/
theorem follow_cases (s : Search) (pos : ℕ) (p : Progress) (k : ℕ) (v : List ℤ) :
    (s.follow pos p k v).reachNext = keep (treTagOrder s.tagDirections 0) k v p.reachNext ∧
      ((s.follow pos p k v).matchEo = p.matchEo ∧ (s.follow pos p k v).matchTags = p.matchTags ∨
        k = s.tnfa.final ∧ (s.follow pos p k v).matchEo = some pos ∧
          (s.follow pos p k v).matchTags = v) := by
  rw [Search.follow]
  split
  · split
    · next h => exact ⟨rfl, .inr ⟨h.1, rfl, rfl⟩⟩
    · exact ⟨rfl, .inl ⟨rfl, rfl⟩⟩
  · split
    · next h => exact ⟨rfl, .inr ⟨h.2, rfl, rfl⟩⟩
    · exact ⟨rfl, .inl ⟨rfl, rfl⟩⟩

theorem find?_isNone (h : k ∉ p.states) : (p.reachNext.find? fun x => x.1 = k) = none := by
  rw [List.find?_eq_none]
  intro x hx
  rw [decide_eq_true_eq]
  rintro rfl
  exact h (List.mem_map_of_mem hx)

/-- If there is no match yet, the final state is not held. -/
def Search.Unmatched (s : Search) (p : Progress) : Prop :=
  p.matchEo = none → s.tnfa.final ∉ p.states

theorem unmatched_follow (h : s.Unmatched p) : s.Unmatched (s.follow pos p k v) := by
  intro hnone hmem
  have hp : p.matchEo = none := by
    rcases (follow_cases s pos p k v).2 with hsame | hfound
    · rw [← hsame.1, hnone]
    · rw [hfound.2.1] at hnone
      cases hnone
  rw [Progress.states, (follow_cases s pos p k v).1] at hmem
  rcases mem_keys_keep.mp hmem with hk | hmem
  · subst hk
    rw [Search.follow, find?_isNone (h hp)] at hnone
    simp [Search.isMatch, hp, Search.found] at hnone
  · exact h hp hmem

/-- The states after a round are those that some transition leads to. -/
theorem round_reachNext :
    (s.round pos prev next p).reachNext = keepAll (treTagOrder s.tagDirections 0) []
      (s.candidates pos prev next p.reachNext) := by
  have hfold : ∀ (cands : List (ℕ × List ℤ)) (q : Progress),
      (cands.foldl (fun q x => s.follow pos q x.1 x.2) q).reachNext =
        keepAll (treTagOrder s.tagDirections 0) q.reachNext cands := by
    intro cands
    induction cands with
    | nil => exact fun q => rfl
    | cons c cands ih =>
      intro q
      rw [List.foldl_cons, ih, (follow_cases s pos q c.1 c.2).1]
      rfl
  exact hfold _ _

theorem unmatched_round : s.Unmatched (s.round pos prev next p) := by
  have hfold : ∀ (cands : List (ℕ × List ℤ)) (q : Progress), s.Unmatched q →
      s.Unmatched (cands.foldl (fun q x => s.follow pos q x.1 x.2) q) := by
    intro cands
    induction cands with
    | nil => exact fun q hq => hq
    | cons c cands ih => exact fun q hq => ih _ (unmatched_follow hq)
  exact hfold _ _ fun _ => List.not_mem_nil

/-- A match that is found in a round has come with one of the transitions. -/
theorem round_match :
    (s.round pos prev next p).matchEo = p.matchEo ∧
        (s.round pos prev next p).matchTags = p.matchTags ∨
      (s.round pos prev next p).matchEo = some pos ∧
        (s.tnfa.final, (s.round pos prev next p).matchTags) ∈
          s.candidates pos prev next p.reachNext := by
  have hfold : ∀ (cands : List (ℕ × List ℤ)) (q : Progress),
      (cands.foldl (fun q x => s.follow pos q x.1 x.2) q).matchEo = q.matchEo ∧
        (cands.foldl (fun q x => s.follow pos q x.1 x.2) q).matchTags = q.matchTags ∨
      (cands.foldl (fun q x => s.follow pos q x.1 x.2) q).matchEo = some pos ∧
        (s.tnfa.final, (cands.foldl (fun q x => s.follow pos q x.1 x.2) q).matchTags) ∈ cands := by
    intro cands
    induction cands with
    | nil => exact fun q => .inl ⟨rfl, rfl⟩
    | cons c cands ih =>
      intro q
      rw [List.foldl_cons]
      rcases ih (s.follow pos q c.1 c.2) with hsame | hfound
      · rcases (follow_cases s pos q c.1 c.2).2 with h | h
        · exact .inl ⟨hsame.1.trans h.1, hsame.2.trans h.2⟩
        · refine .inr ⟨hsame.1.trans h.2.1, ?_⟩
          rw [hsame.2, h.2.2, ← h.1]
          exact List.mem_cons_self
      · exact .inr ⟨hfound.1, List.mem_cons_of_mem _ hfound.2⟩
  exact hfold _ _

/-- An initial state is added, passed over because of its assertions, or there. -/
theorem addInitial_cases (s : Search) (pos : ℕ) (prev next : ℤ) (p : Progress) (i : Initial) :
    s.addInitial pos prev next p i = p ∧
        (i.stateId ∈ p.states ∨ s.checkAssertions i.assertions pos prev next = true) ∨
      s.checkAssertions i.assertions pos prev next = false ∧ i.stateId ∉ p.states ∧
        let tags := setTags (List.replicate s.numTags (-1)) i.tags pos
        (s.addInitial pos prev next p i).reachNext = p.reachNext ++ [(i.stateId, tags)] ∧
          if i.stateId = s.tnfa.final then
            (s.addInitial pos prev next p i).matchEo = some pos ∧
              (s.addInitial pos prev next p i).matchTags = tags
          else
            (s.addInitial pos prev next p i).matchEo = p.matchEo ∧
              (s.addInitial pos prev next p i).matchTags = p.matchTags := by
  rw [Search.addInitial]
  split
  · next h => exact .inl ⟨rfl, .inl h⟩
  · next hnew =>
    split
    · next h => exact .inl ⟨rfl, .inr h.2⟩
    · next h =>
      refine .inr ⟨holds_of_zero h, hnew, ?_⟩
      split
      · exact ⟨rfl, rfl, rfl⟩
      · exact ⟨rfl, rfl, rfl⟩

theorem mem_candidates {reach : List (ℕ × List ℤ)} :
    (k, v) ∈ s.candidates pos prev next reach ↔
      ∃ x ∈ reach, ∃ tr ∈ s.tnfa.transitions x.1, s.matchesSymbol tr pos prev next = true ∧
        tr.stateId = k ∧ setTags x.2 tr.tags pos = v := by
  simp only [Search.candidates, List.mem_flatMap, List.mem_map, List.mem_filter, Prod.mk.injEq,
    and_assoc]

end

/-! ## The whole run -/

section

variable {s : Search} {text : List (ℤ × ℕ)} {p p' : Progress} {t : ℕ} {ends : Bool}

/-- `begin`, at a time. -/
def Search.beginAt (s : Search) (text : List (ℤ × ℕ)) (t : ℕ) : Progress → Option Progress :=
  s.begin (offset text t) (Search.prevC (text.take t)) (Search.nextC (text.drop t))

/-- `round`, behind the character at a time. -/
def Search.roundAt (s : Search) (text : List (ℤ × ℕ)) (t : ℕ) : Progress → Progress :=
  s.round (offset text (t + 1)) (Search.prevC (text.take (t + 1))) (Search.nextC (text.drop (t + 1)))

/-- The transitions that match the character at a time. -/
def Search.candidatesAt (s : Search) (text : List (ℤ × ℕ)) (t : ℕ) (p : Progress) :
    List (ℕ × List ℤ) :=
  s.candidates (offset text (t + 1)) (Search.prevC (text.take (t + 1)))
    (Search.nextC (text.drop (t + 1))) p.reachNext

theorem roundAt_reachNext : (s.roundAt text t p).reachNext =
    keepAll (treTagOrder s.tagDirections 0) [] (s.candidatesAt text t p) :=
  round_reachNext

theorem roundAt_match (s : Search) (text : List (ℤ × ℕ)) (t : ℕ) (p : Progress) :
    (s.roundAt text t p).matchEo = p.matchEo ∧ (s.roundAt text t p).matchTags = p.matchTags ∨
      (s.roundAt text t p).matchEo = some (offset text (t + 1)) ∧
        (s.tnfa.final, (s.roundAt text t p).matchTags) ∈ s.candidatesAt text t p :=
  round_match

theorem offset_succ {c : ℤ × ℕ} (h : text[t]? = some c) :
    offset text (t + 1) = offset text t + c.2 := by
  rw [offset, offset, List.take_add_one, h, Option.toList_some, List.map_append, List.sum_append,
    List.map_singleton, List.sum_singleton]

theorem drop_eq_cons {c : ℤ × ℕ} {rest : List (ℤ × ℕ)} (h : text.drop t = c :: rest) :
    text[t]? = some c ∧ text.drop (t + 1) = rest := by
  constructor
  · rw [← List.head?_drop, h, List.head?_cons]
  · rw [← List.tail_drop, h, List.tail_cons]

/-- **The rule for runs.**  `I` holds before the initial states are added, and `J` behind. -/
theorem rounds_rule {I J : ℕ → Progress → Prop}
    (hbegin : ∀ t p p', t ≤ text.length → I t p → s.beginAt text t p = some p' → J t p')
    (hround : ∀ t p, t < text.length → J t p → I (t + 1) (s.roundAt text t p))
    (rest : List (ℤ × ℕ)) (hrest : text.drop t = rest) (ht : t ≤ text.length) (hp : I t p)
    (h : s.rounds ends (offset text t) (Search.prevC (text.take t)) rest p = some p') :
    (∃ u ≤ text.length, I u p' ∧ s.beginAt text u p' = none) ∨ J text.length p' := by
  induction rest generalizing t p with
  | nil =>
    have hlen : t = text.length := Nat.le_antisymm ht (List.drop_eq_nil_iff.mp hrest)
    have hbeg : s.begin (offset text t) (Search.prevC (text.take t)) 0 p = s.beginAt text t p := by
      rw [Search.beginAt, hrest]
      rfl
    rw [Search.rounds, Option.some_inj, hbeg] at h
    subst h
    cases hb : s.beginAt text t p with
    | none => exact .inl ⟨t, ht, hp, hb⟩
    | some q =>
      subst hlen
      exact .inr (hbegin _ p q ht hp hb)
  | cons c rest ih =>
    obtain ⟨hc, hdrop⟩ := drop_eq_cons hrest
    have hlt : t < text.length := (List.getElem?_eq_some_iff.mp hc).1
    have hbeg : s.begin (offset text t) (Search.prevC (text.take t)) c.1 p = s.beginAt text t p := by
      rw [Search.beginAt, hrest]
      rfl
    rw [Search.rounds, hbeg] at h
    cases hb : s.beginAt text t p with
    | none =>
      rw [hb] at h
      obtain rfl := Option.some_inj.mp h
      exact .inl ⟨t, ht, hp, hb⟩
    | some q =>
      simp only [hb] at h
      split at h
      · cases h
      · rw [← offset_succ hc, ← prevC_take_succ hc, ← hdrop] at h
        exact ih hdrop hlt (hround t q hlt (hbegin t p q ht hp hb)) (hdrop ▸ h)

/-- Behind the last character nothing is an error. -/
theorem rounds_isSome (s : Search) (pos : ℕ) (prev : ℤ) (text : List (ℤ × ℕ)) (p : Progress) :
    (s.rounds true pos prev text p).isSome := by
  induction text generalizing pos prev p with
  | nil => rfl
  | cons c text ih =>
    rw [Search.rounds]
    cases s.begin pos prev c.1 p with
    | none => rfl
    | some q => simpa using ih _ _ _

/-- What the loop over `initial` keeps, if each step of it does. -/
theorem begin_induction {P : Progress → Prop} (hp : P p) (h : s.beginAt text t p = some p')
    (hstep : ∀ q, ∀ i ∈ s.tnfa.initial, P q → P (s.addInitial (offset text t)
      (Search.prevC (text.take t)) (Search.nextC (text.drop t)) q i)) : P p' := by
  have hfold : ∀ (l : List Initial) (q : Progress), (∀ i ∈ l, i ∈ s.tnfa.initial) → P q →
      P (l.foldl (s.addInitial (offset text t) (Search.prevC (text.take t))
        (Search.nextC (text.drop t))) q) := by
    intro l
    induction l with
    | nil => exact fun q _ hq => hq
    | cons i l ih =>
      intro q hl hq
      exact ih _ (fun j hj => hl j (List.mem_cons_of_mem _ hj))
        (hstep q i (hl i List.mem_cons_self) hq)
  rw [Search.beginAt, Search.begin] at h
  split at h
  · obtain rfl := Option.some_inj.mp h
    exact hfold _ _ (fun _ => id) hp
  · split at h
    · cases h
    · obtain rfl := Option.some_inj.mp h
      exact hp

/-! ### Nothing is found that is not there -/

/-- What is held are paths, and the match is one. -/
structure Search.Sound (s : Search) (text : List (ℤ × ℕ)) (t : ℕ) (p : Progress) : Prop where
  reach : ∀ x ∈ p.reachNext, ∃ i, s.Path text i t x.1 x.2
  found : ∀ eo ∈ p.matchEo, ∃ i u, u ≤ text.length ∧ s.Path text i u s.tnfa.final p.matchTags ∧
    eo = offset text u

theorem path_of_candidate (hm : s.tnfa.Marked) (ht : t < text.length)
    (hp : ∀ x ∈ p.reachNext, ∃ i, s.Path text i t x.1 x.2) {x : ℕ × List ℤ}
    (hx : x ∈ s.candidatesAt text t p) : ∃ i, s.Path text i (t + 1) x.1 x.2 := by
  obtain ⟨y, hy, tr, htr, hmatch, hk, hv⟩ := mem_candidates.mp hx
  obtain ⟨i, hpath⟩ := hp y hy
  rw [prevC_take_succ (List.getElem?_eq_getElem ht)] at hmatch
  rw [← hk, ← hv]
  exact ⟨i, hpath.step htr
    ((fires_iff (hm _ _ htr)).mpr ⟨rfl, _, List.getElem?_eq_getElem ht, hmatch⟩)⟩

theorem sound_begin (ht : t ≤ text.length) (hp : s.Sound text t p)
    (h : s.beginAt text t p = some p') : s.Sound text t p' := by
  refine begin_induction hp h fun q i hi hq => ?_
  rcases addInitial_cases s (offset text t) (Search.prevC (text.take t))
    (Search.nextC (text.drop t)) q i with hsame | ⟨hholds, -, hreach, hmatch⟩
  · rw [hsame.1]
    exact hq
  · have hpath := Search.Path.start hi (checkAssertions_eq_false.mp hholds)
    refine ⟨fun x hx => ?_, fun eo heo => ?_⟩
    · rw [hreach] at hx
      rcases List.mem_append.mp hx with hx | hx
      · exact hq.reach x hx
      · rw [List.mem_singleton.mp hx]
        exact ⟨t, hpath⟩
    · split at hmatch
      · next hfinal =>
        rw [hmatch.1] at heo
        obtain rfl := Option.some_inj.mp heo
        exact ⟨t, t, ht, by rwa [hmatch.2, ← hfinal], rfl⟩
      · rw [hmatch.1] at heo
        rw [hmatch.2]
        exact hq.found eo heo

theorem sound_round (hm : s.tnfa.Marked) (ht : t < text.length) (hp : s.Sound text t p) :
    s.Sound text (t + 1) (s.roundAt text t p) := by
  refine ⟨fun x hx => ?_, fun eo heo => ?_⟩
  · rw [roundAt_reachNext] at hx
    exact path_of_candidate hm ht hp.reach ((of_mem_keepAll hx).resolve_left List.not_mem_nil)
  · rcases roundAt_match s text t p with hsame | hfound
    · rw [hsame.1] at heo
      rw [hsame.2]
      exact hp.found eo heo
    · rw [hfound.1] at heo
      obtain rfl := Option.some_inj.mp heo
      obtain ⟨i, hpath⟩ := path_of_candidate hm ht hp.reach hfound.2
      exact ⟨i, t + 1, ht, hpath, rfl⟩

/-! ### Everything is found -/

theorem path_cases {i q : ℕ} {tags : List ℤ} (hm : s.tnfa.Marked) (h : s.Path text i t q tags) :
    (i = t ∧ ∃ x ∈ s.tnfa.initial, HoldsAll (s.reading text) x.assertions t ∧ x.stateId = q) ∨
      ∃ u tags', t = u + 1 ∧ i ≤ u ∧ ∃ q' tr, s.Path text i u q' tags' ∧
        tr ∈ s.tnfa.transitions q' ∧ Fires (s.reading text) tr u t ∧ tr.stateId = q ∧
        setTags tags' tr.tags (offset text t) = tags := by
  cases h with
  | start hi hholds => exact .inl ⟨rfl, _, hi, hholds, rfl⟩
  | step hpath htr hfires =>
    obtain ⟨rfl, -⟩ := (fires_iff (hm _ _ htr)).mp hfires
    exact .inr ⟨_, _, rfl, path_le hm hpath, _, _, hpath, htr, hfires, rfl, rfl⟩

/-- As long as there is no match, every state that a match can be in is held, if the match has begun
before a time. -/
structure Search.Complete (s : Search) (text : List (ℤ × ℕ)) (n t : ℕ) (p : Progress) : Prop where
  unmatched : s.Unmatched p
  reach : p.matchEo = none → ∀ i < n, ∀ q tags, s.Path text i t q tags → q ∈ p.states
  earlier : p.matchEo = none → ∀ i, ∀ u < t, ∀ tags, ¬ s.Path text i u s.tnfa.final tags

/-- The initial states that may be entered are held, as well as the states that were held before. -/
theorem states_begin (hnone : p.matchEo = none) (h : s.beginAt text t p = some p') {k : ℕ} :
    k ∈ p'.states ↔ k ∈ p.states ∨
      ∃ i ∈ s.tnfa.initial, HoldsAll (s.reading text) i.assertions t ∧ i.stateId = k := by
  have hfold : ∀ (l : List Initial) (q : Progress),
      k ∈ (l.foldl (s.addInitial (offset text t) (Search.prevC (text.take t))
        (Search.nextC (text.drop t))) q).states ↔ k ∈ q.states ∨
          ∃ i ∈ l, HoldsAll (s.reading text) i.assertions t ∧ i.stateId = k := by
    intro l
    induction l with
    | nil => simp
    | cons i l ih =>
      intro q
      rw [List.foldl_cons, ih]
      rcases addInitial_cases s (offset text t) (Search.prevC (text.take t))
        (Search.nextC (text.drop t)) q i with ⟨hsame, hwhy⟩ | ⟨hholds, -, hreach, -⟩
      · rw [hsame]
        refine or_congr_right' fun hk => ?_
        rw [List.exists_mem_cons_iff, or_iff_right]
        rintro ⟨hholds, rfl⟩
        rcases hwhy with hmem | hfail
        · exact hk hmem
        · rw [checkAssertions_eq_false.mpr hholds] at hfail
          cases hfail
      · have hi : HoldsAll (s.reading text) i.assertions t := checkAssertions_eq_false.mp hholds
        rw [List.exists_mem_cons_iff, ← or_assoc]
        refine or_congr_left ?_
        rw [Progress.states, hreach, List.map_append, List.mem_append, List.map_singleton,
          List.mem_singleton, and_iff_right hi, eq_comm (a := k)]
        rfl
  rw [Search.beginAt, Search.begin, if_pos hnone] at h
  obtain rfl := Option.some_inj.mp h
  exact hfold _ p

theorem unmatched_addInitial {pos : ℕ} {prev next : ℤ} {i : Initial} (hp : s.Unmatched p) :
    s.Unmatched (s.addInitial pos prev next p i) := by
  rcases addInitial_cases s pos prev next p i with hsame | ⟨-, -, hreach, hmatch⟩
  · rwa [hsame.1]
  · intro hnone hmem
    split at hmatch
    · rw [hmatch.1] at hnone
      cases hnone
    · next hi =>
      rw [hmatch.1] at hnone
      rw [Progress.states, hreach, List.map_append, List.mem_append, List.map_singleton,
        List.mem_singleton] at hmem
      exact hmem.elim (hp hnone) fun h => hi h.symm

theorem matchEo_addInitial {pos : ℕ} {prev next : ℤ} {i : Initial}
    (h : (s.addInitial pos prev next p i).matchEo = none) : p.matchEo = none := by
  rcases addInitial_cases s pos prev next p i with hsame | ⟨-, -, -, hmatch⟩
  · rwa [hsame.1] at h
  · split at hmatch
    · rw [hmatch.1] at h
      cases h
    · rwa [hmatch.1] at h

theorem complete_begin (hm : s.tnfa.Marked) (hp : s.Complete text t t p)
    (h : s.beginAt text t p = some p') : s.Complete text (t + 1) t p' := by
  have hnone : p'.matchEo = none → p.matchEo = none :=
    begin_induction (P := fun q => q.matchEo = none → p.matchEo = none) id h
      fun q i _ hq hnone => hq (matchEo_addInitial hnone)
  refine ⟨begin_induction hp.unmatched h fun q i _ hq => unmatched_addInitial hq,
    fun hp' i hi q tags hpath => ?_, fun hp' => hp.earlier (hnone hp')⟩
  rw [states_begin (hnone hp') h]
  rcases path_cases hm hpath with ⟨-, x, hx, hholds, hq⟩ | ⟨u, tags', rfl, hle, -⟩
  · exact .inr ⟨x, hx, hholds, hq⟩
  · exact .inl (hp.reach (hnone hp') i (Nat.lt_succ_of_le hle) q tags hpath)

theorem matchEo_round (h : (s.roundAt text t p).matchEo = none) : p.matchEo = none := by
  rcases roundAt_match s text t p with hsame | hfound
  · rwa [hsame.1] at h
  · rw [hfound.1] at h
    cases h

theorem complete_round (hm : s.tnfa.Marked) (hp : s.Complete text (t + 1) t p) :
    s.Complete text (t + 1) (t + 1) (s.roundAt text t p) := by
  refine ⟨unmatched_round, fun h i hi q tags hpath => ?_, fun h i u hu tags hpath => ?_⟩
  · rcases path_cases hm hpath with ⟨rfl, -⟩ | ⟨u, tags', hu, -, q', tr, hpath', htr, hfires, rfl, -⟩
    · exact absurd hi (Nat.lt_irrefl _)
    · obtain rfl : t = u := Nat.succ_injective hu
      obtain ⟨-, c, hc, hmatch⟩ := (fires_iff (hm _ _ htr)).mp hfires
      obtain ⟨⟨k, v⟩, hx, rfl⟩ := List.mem_map.mp (hp.reach (matchEo_round h) i hi q' tags' hpath')
      rw [Progress.states, roundAt_reachNext, mem_keys_keepAll]
      rw [← prevC_take_succ hc] at hmatch
      exact .inr (List.mem_map.mpr
        ⟨_, mem_candidates.mpr ⟨_, hx, tr, htr, hmatch, rfl, rfl⟩, rfl⟩)
  · rcases Nat.lt_succ_iff_lt_or_eq.mp hu with hu | rfl
    · exact hp.earlier (matchEo_round h) i u hu tags hpath
    · exact hp.unmatched (matchEo_round h)
        (hp.reach (matchEo_round h) i (Nat.lt_succ_of_le (path_le hm hpath)) _ tags hpath)

end

/-- The run from the beginning of a string. -/
theorem treTnfaRunParallel_eq_some {s : Search} {string : Str} {r : ℕ × List ℤ}
    (h : treTnfaRunParallel s string = some r) :
    ∃ p, s.rounds (wchars s.loc 0 string).2 0 0 (wchars s.loc 0 string).1 ⟨[], none, []⟩ = some p ∧
      p.matchEo = some r.1 ∧ p.matchTags = r.2 := by
  rw [treTnfaRunParallel] at h
  split at h
  · cases h
  · obtain ⟨p, hrun, hp⟩ := Option.bind_eq_some_iff.mp h
    obtain ⟨eo, heo, rfl⟩ := Option.map_eq_some_iff.mp hp
    exact ⟨p, hrun, heo, rfl⟩

/-- **What the matcher finds is there**: a path of the automaton leads through the text from where the
match begins to where it ends, and the tags have the values that they get on this path. -/
theorem treTnfaRunParallel_sound (s : Search) (string : Str) (hm : s.tnfa.Marked) (eo : ℕ)
    (tags : List ℤ) (h : treTnfaRunParallel s string = some (eo, tags)) :
    let text := (wchars s.loc 0 string).1
    ∃ i u, u ≤ text.length ∧ s.Path text i u s.tnfa.final tags ∧ eo = offset text u := by
  obtain ⟨p, hrun, heo, rfl⟩ := treTnfaRunParallel_eq_some h
  have hp : s.Sound (wchars s.loc 0 string).1 0 ⟨[], none, []⟩ :=
    ⟨fun x hx => absurd hx List.not_mem_nil, fun eo heo => by cases heo⟩
  rcases rounds_rule (J := s.Sound (wchars s.loc 0 string).1) (fun t p p' ht => sound_begin ht)
    (fun t p ht => sound_round hm ht) _ rfl (Nat.zero_le _) hp hrun with ⟨u, -, hsound, -⟩ | hsound
  · exact hsound.found eo heo
  · exact hsound.found eo heo

/-- **The matcher finds a match if and only if there is one.** -/
theorem treTnfaRunParallel_isSome (s : Search) (string : Str) (hm : s.tnfa.Marked)
    (hends : (wchars s.loc 0 string).2 = true) :
    let text := (wchars s.loc 0 string).1
    (treTnfaRunParallel s string).isSome = true ↔
      ∃ i u, u ≤ text.length ∧ s.tnfa.Accepts (s.reading text) i u := by
  constructor
  · intro h
    obtain ⟨⟨eo, tags⟩, hr⟩ := Option.isSome_iff_exists.mp h
    obtain ⟨i, u, hu, hpath, -⟩ := treTnfaRunParallel_sound s string hm eo tags hr
    exact ⟨i, u, hu, accepts_iff_path.mpr ⟨tags, hpath⟩⟩
  · rintro ⟨i, u, hu, hacc⟩
    obtain ⟨tags, hpath⟩ := accepts_iff_path.mp hacc
    obtain ⟨p, hrun⟩ := Option.isSome_iff_exists.mp
      (rounds_isSome s 0 0 (wchars s.loc 0 string).1 ⟨[], none, []⟩)
    have hp : s.Complete (wchars s.loc 0 string).1 0 0 ⟨[], none, []⟩ :=
      ⟨fun _ => List.not_mem_nil, fun _ i hi => absurd hi (Nat.not_lt_zero i),
        fun _ i u hu => absurd hu (Nat.not_lt_zero u)⟩
    have hsome : p.matchEo ≠ none := by
      intro hnone
      rcases rounds_rule (I := fun t => s.Complete (wchars s.loc 0 string).1 t t)
        (J := fun t => s.Complete (wchars s.loc 0 string).1 (t + 1) t)
        (fun t p p' _ hI hb => complete_begin hm hI hb) (fun t p _ hJ => complete_round hm hJ)
        _ rfl (Nat.zero_le _) hp hrun with ⟨u', -, -, hbegin⟩ | hcomplete
      · rw [Search.beginAt, Search.begin, if_pos hnone] at hbegin
        cases hbegin
      · rcases Nat.lt_or_eq_of_le hu with hu | rfl
        · exact hcomplete.earlier hnone i u hu tags hpath
        · exact hcomplete.unmatched hnone (hcomplete.reach hnone i
            (Nat.lt_succ_of_le (path_le hm hpath)) _ tags hpath)
    obtain ⟨eo, heo⟩ := Option.ne_none_iff_exists'.mp hsome
    simp [treTnfaRunParallel, hends, hrun, heo]

end Tre
end UtilWin
