import UtilWin.Regex.ParseTree
import UtilWin.Regex.WholeMatch

/-!
# `regcomp` and `regexec`

`regcomp` parses the pattern, puts the tags into the tree, unrolls what is counted, and makes the automaton.
`regexec` runs the matcher and fills `pmatch` from the tags of the match.

Together they find a match exactly if the tree that the pattern is parsed to spans a part of the string
(`regexec_isSome`).  The subexpressions do not matter for this: their tags change nothing that is spanned,
and with any tags the matcher finds a match if there is one.  The codes of the tree have to be of 16 bits
(`Short`), as those of the automaton are; `\x{10061}` is found in `a`, and its tree does not span anything.

What `pmatch` says of the whole match is there.  If nothing else has a tag, it is the leftmost match, and the
longest one there (`regexec_leftmost`); with submatches it need not be (`regexec_not_leftmost`).
The submatches are within each other as the subexpressions are in the tree (`regexec_within`).  The tables
that the matchers index are large enough for every pattern (`regcomp_fits`).

Patterns with back references go to another matcher, which is a parameter here.
-/

namespace UtilWin
namespace Tre

open Glob (Str has)

/-- The part of `regex_t` and `tre_tnfa_t` that the matchers use.  The `end_tag` is `num_tags`. -/
structure Regex where
  reNsub : ℕ
  tnfa : Tnfa
  haveBackrefs : Bool
  numSubmatches : ℕ
  numTags : ℕ
  submatchData : ℕ → SubmatchData
  tagDirections : ℕ → TagDirection
  cflags : BitVec 32

/-- What `xcalloc` leaves in the tables if no tags are set up. -/
def Tagging.none : Tagging where
  regset := []
  parents := []
  tag := 0
  nextTag := 0
  numTags := 0
  direction := .minimize
  submatchData := fun _ => ⟨0, 0, []⟩
  tagDirections := fun _ => .maximize

/-- Whether `regcomp` sets up tags. -/
def needsTags (maxBackref : Option ℕ) (cflags : BitVec 32) : Bool :=
  maxBackref.isSome || !has cflags regNosub

/-- The tree with tags, if there are to be tags. -/
def tagged (maxBackref : Option ℕ) (cflags : BitVec 32) (n : Ast) : Ast × Tagging :=
  if needsTags maxBackref cflags then treAddTags n else (n, .none)

/-- The tree that the automaton is made of, and `position` for it. -/
def expanded (cflags : BitVec 32) (n : Ast) (p : Parsing) : Ast × ℕ :=
  let t := tagged p.maxBackref cflags n
  let e := treExpandAst t.1 p.position t.2.tagDirections
  (e.1, e.2.1)

/-- `regcomp`, behind the parser. -/
def compileTree (cflags : BitVec 32) (n : Ast) (p : Parsing) : Except RegError Regex :=
  -- referring to nonexistent subexpressions is illegal
  if p.maxBackref.any fun m => p.subid - 1 < m then .error .esubreg
  else
    let t := tagged p.maxBackref cflags n
    .ok
      { reNsub := p.subid - 1
        tnfa := compile t.1 p.position t.2.tagDirections
        haveBackrefs := p.maxBackref.isSome
        numSubmatches := p.subid
        numTags := t.2.numTags
        submatchData := t.2.submatchData
        tagDirections := (treExpandAst t.1 p.position t.2.tagDirections).2.2
        cflags := cflags }

/-- `regcomp`. -/
def regcomp (loc : Locale) (regex : Str) (cflags : BitVec 32) : Option (Except RegError Regex) :=
  (treParse loc cflags regex).map fun
    | .error e => .error e
    | .ok (n, p) => compileTree cflags n p

/-! ## Filling `pmatch` -/

/-- `rm_so` and `rm_eo`. -/
abbrev Regmatch := ℤ × ℤ

/-- The value of a tag, or the end of the match. -/
def Regex.offsetOf (preg : Regex) (tags : List ℤ) (matchEo : ℕ) (tag : ℕ) : ℤ :=
  if tag = preg.numTags then matchEo else tags.getD tag 0

/-- A submatch from its tags.  If one of them was not used, it was not part of the match. -/
def Regex.submatch (preg : Regex) (tags : List ℤ) (matchEo i : ℕ) : Regmatch :=
  let so := preg.offsetOf tags matchEo (preg.submatchData i).soTag
  let eo := preg.offsetOf tags matchEo (preg.submatchData i).eoTag
  if so = -1 ∨ eo = -1 then (-1, -1) else (so, eo)

/-- A submatch is reset if it is not within a parent. -/
def within (pmatch : List Regmatch) (i parent : ℕ) : List Regmatch :=
  let m := pmatch.getD i (-1, -1)
  let p := pmatch.getD parent (-1, -1)
  if m.1 < p.1 ∨ p.2 < m.2 then pmatch.set i (-1, -1) else pmatch

/-- The second loop of `tre_fill_pmatch`, over the submatches from `i` on. -/
def resetFrom (parents : ℕ → List ℕ) (i : ℕ) : (n : ℕ) → List Regmatch → List Regmatch
  | 0, pmatch => pmatch
  | n + 1, pmatch =>
    resetFrom parents (i + 1) n ((parents i).foldl (fun pmatch j => within pmatch i j) pmatch)

/-- `tre_fill_pmatch`, for a match that has been found. -/
def treFillPmatch (nmatch : ℕ) (preg : Regex) (tags : List ℤ) (matchEo : ℕ) : List Regmatch :=
  if has preg.cflags regNosub then List.replicate nmatch (-1, -1)
  else
    let n := min preg.numSubmatches nmatch
    resetFrom (fun i => (preg.submatchData i).parents) 0 n
        ((List.range n).map (preg.submatch tags matchEo)) ++
      List.replicate (nmatch - n) (-1, -1)

/-! ## Matching -/

/-- What the matchers are given: no tags if nothing is asked for. -/
def Regex.search (preg : Regex) (loc : Locale) (nmatch : ℕ) (eflags : BitVec 32) : Search where
  loc := loc
  tnfa := preg.tnfa
  cflags := preg.cflags
  eflags := eflags
  numTags := if has preg.cflags regNosub ∨ nmatch = 0 then 0 else preg.numTags
  tagDirections := preg.tagDirections

/-- `regexec`: `pmatch`, or `none` for `REG_NOMATCH`. -/
def regexec (backtrack : Search → Str → Option (ℕ × List ℤ)) (loc : Locale) (preg : Regex)
    (string : Str) (nmatch : ℕ) (eflags : BitVec 32) : Option (List Regmatch) :=
  let nmatch := if has preg.cflags regNosub then 0 else nmatch
  let s := preg.search loc nmatch eflags
  (if preg.haveBackrefs then backtrack s string else treTnfaRunParallel s string).map fun m =>
    treFillPmatch nmatch preg m.2 m.1

section

variable {loc : Locale} {cflags eflags : BitVec 32} {n : Ast} {p : Parsing} {preg : Regex}
  {backtrack : Search → Str → Option (ℕ × List ℤ)} {nmatch : ℕ} {string : Str}

theorem withTags_tagged {maxBackref : Option ℕ} : WithTags n (tagged maxBackref cflags n).1 := by
  rw [tagged]
  split
  · exact withTags_addTags
  · exact WithTags.refl

/-- What `regcomp` compiles is the tree with tags. -/
theorem compileTree_ok (h : compileTree cflags n p = .ok preg) :
    preg.cflags = cflags ∧ preg.haveBackrefs = p.maxBackref.isSome ∧
      ∃ t dirs, WithTags n t ∧ preg.tnfa = compile t p.position dirs := by
  rw [compileTree] at h
  split at h
  · cases h
  · cases h
    exact ⟨rfl, rfl, _, _, withTags_tagged, rfl⟩

/-- The automaton of a pattern without back references is the one of the tree with tags. -/
theorem compilable_of_parsed (hp : p.Parsed n) (hback : p.maxBackref = none)
    (hready : Ready n 0 p.position) : Compilable n p.position := by
  have hwell : WellParsed none n := hback ▸ hp.wellParsed
  exact ⟨hready, hwell.noBackrefs, hwell.bounded⟩

/-- What is known of the tree that is compiled and of the tables that belong to it. -/
theorem compileTree_tree (h : compileTree cflags n p = .ok preg) (htagless : Tagless n) :
    preg.tnfa = toTnfa (expanded cflags n p).1 (expanded cflags n p).2 ∧
      (∀ k, preg.numTags ≤ k → tagCount k (tagged p.maxBackref cflags n).1 = 0) ∧
      ∀ id, (preg.submatchData id).soTag ≤ preg.numTags ∧
        (preg.submatchData id).eoTag ≤ preg.numTags := by
  rw [compileTree] at h
  split at h
  · cases h
  · cases h
    refine ⟨rfl, ?_, ?_⟩
    · dsimp only [tagged]
      split
      · intro k hk
        rw [tagCount_treAddTags htagless, if_neg (Nat.not_lt.mpr hk)]
      · exact fun k _ => tagCount_tagless htagless
    · dsimp only [tagged]
      split
      · exact fun id => submatchData_le htagless
      · exact fun id => ⟨Nat.le_refl 0, Nat.le_refl 0⟩

/-- The tables of a compiled pattern fit together and to the tree that they are made of: what the matchers
index with is in range, and no state has more transitions than are counted in the tree. -/
structure Regex.Fits (preg : Regex) (tree : Ast) (position : ℕ) : Prop where
  transitions : ∀ state, ∀ tr ∈ preg.tnfa.transitions state, state < preg.tnfa.numStates ∧
    tr.stateId < preg.tnfa.numStates ∧ ∀ id ∈ tr.tags, id < preg.numTags
  initial : ∀ i ∈ preg.tnfa.initial, i.stateId < preg.tnfa.numStates ∧ ∀ id ∈ i.tags, id < preg.numTags
  final : preg.tnfa.final < preg.tnfa.numStates
  submatchData : ∀ id, (preg.submatchData id).soTag ≤ preg.numTags ∧
    (preg.submatchData id).eoTag ≤ preg.numTags
  made : preg.tnfa = toTnfa tree position
  counted : ∀ state, (preg.tnfa.transitions state).length ≤ (treAstToTnfaCounts
    (.catenation none tree (.literal none (.char position ⟨0, 0, none, []⟩)))).count state

/-- **Whatever `regcomp` accepts has tables that fit together**, also if something is counted inside of an
iteration. -/
theorem regcomp_fits (loc : Locale) (hloc : loc.Reads) (regex : Str) (cflags : BitVec 32) (preg : Regex)
    (hcomp : regcomp loc regex cflags = some (.ok preg)) :
    ∃ n p, treParse loc cflags regex = some (.ok (n, p)) ∧
      preg.Fits (expanded cflags n p).1 (expanded cflags n p).2 := by
  rw [regcomp] at hcomp
  obtain ⟨r, hparse, hr⟩ := Option.map_eq_some_iff.mp hcomp
  rcases r with e | ⟨n, p⟩
  · cases hr
  · have hp := parsed_treParse hloc hparse
    have htree : compileTree cflags n p = .ok preg := hr
    obtain ⟨htnfa, hcount, hdata⟩ := compileTree_tree htree hp.wellParsed.tagless
    have htags : WithTags n (tagged p.maxBackref cflags n).1 := withTags_tagged
    have hpositions : ∀ q ∈ positions (tagged p.maxBackref cflags n).1, q < p.position := by
      rw [htags.positions]
      exact fun q hq => (hp.placed.mem q hq).2
    obtain ⟨hexpanded, -⟩ := treExpandAst_positions (tagged p.maxBackref cflags n).1 p.position
      (tagged p.maxBackref cflags n).2.tagDirections hpositions
    obtain ⟨hcounted, htrans, hinit, -⟩ := toTnfa_room _ _ hexpanded
    have hid : ∀ {ids : List ℕ}, (∀ k, tagCount k (tagged p.maxBackref cflags n).1 = 0 → k ∉ ids) →
        ∀ id ∈ ids, id < preg.numTags := by
      intro ids h id hid
      by_contra hle
      exact h id (hcount id (Nat.le_of_not_lt hle)) hid
    refine ⟨n, p, hparse, fun state tr htr => ?_, fun i hi => ?_, ?_, hdata, htnfa, ?_⟩
    · rw [htnfa] at htr ⊢
      obtain ⟨h₁, h₂⟩ := htrans state tr htr
      exact ⟨h₁, h₂, hid fun k hk => (notMem_compile hk).2 state tr htr⟩
    · rw [htnfa] at hi ⊢
      exact ⟨hinit i hi, hid fun k hk => (notMem_compile hk).1 i hi⟩
    · rw [htnfa]
      exact Nat.lt_succ_self _
    · rw [htnfa]
      exact hcounted

/-- The pattern `(a{2})*`. -/
theorem regcomp_fits_nested : ∃ preg,
    regcomp asciiBytes [0x28, 0x61, 0x7b, 0x32, 0x7d, 0x29, 0x2a] regExtended = some (.ok preg) ∧
      ∃ n p, treParse asciiBytes regExtended [0x28, 0x61, 0x7b, 0x32, 0x7d, 0x29, 0x2a] =
          some (.ok (n, p)) ∧
        preg.Fits (expanded regExtended n p).1 (expanded regExtended n p).2 :=
  ⟨_, rfl, regcomp_fits asciiBytes asciiBytes_readsWide.reads [0x28, 0x61, 0x7b, 0x32, 0x7d, 0x29, 0x2a]
    regExtended _ rfl⟩

/-- `regexec` finds a match exactly if the tree of the pattern, with its codes cut to 16 bits, spans a part
of the string. -/
theorem regexec_isSome_cint (hloc : loc.Reads) {regex : Str}
    (hparse : treParse loc cflags regex = some (.ok (n, p)))
    (hcomp : regcomp loc regex cflags = some (.ok preg)) (hback : p.maxBackref = none)
    (hready : Ready n 0 p.position) (hone : OneWay n) (hends : (wchars loc 0 string).2 = true) :
    let text := (wchars loc 0 string).1
    (regexec backtrack loc preg string nmatch eflags).isSome = true ↔
      ∃ i u, u ≤ text.length ∧ Span ((preg.search loc nmatch eflags).reading text).cint n i u := by
  rw [regcomp, hparse] at hcomp
  obtain ⟨-, hbackrefs, t, dirs, htags, htnfa⟩ := compileTree_ok (Option.some_inj.mp hcomp)
  have hc : Compilable n p.position :=
    compilable_of_parsed (parsed_treParse hloc hparse) hback hready
  rw [hback, Option.isSome_none] at hbackrefs
  intro text
  have hrun := treTnfaRunParallel_compile
    (preg.search loc (if has preg.cflags regNosub then 0 else nmatch) eflags) t p.position dirs
    (htags.compilable hc) (htags.oneWay hone) htnfa string hends
  simp only [htags.span] at hrun
  rw [regexec]
  simp only [hbackrefs, Bool.false_eq_true, if_false, Option.isSome_map]
  exact hrun

/-- **`regexec` finds a match exactly if the tree of the pattern spans a part of the string**, with or
without subexpressions.  The codes in the tree are up to `0xffff`, as a transition has 16 bits of them. -/
theorem regexec_isSome (backtrack : Search → Str → Option (ℕ × List ℤ)) (loc : Locale)
    (hloc : loc.ReadsWide) (regex : Str) (cflags : BitVec 32) (preg : Regex) (n : Ast) (p : Parsing)
    (hparse : treParse loc cflags regex = some (.ok (n, p)))
    (hcomp : regcomp loc regex cflags = some (.ok preg)) (hback : p.maxBackref = none)
    (hready : Ready n 0 p.position) (hone : OneWay n) (hshort : Short n) (string : Str)
    (hends : (wchars loc 0 string).2 = true) (nmatch : ℕ) (eflags : BitVec 32) :
    let text := (wchars loc 0 string).1
    let reading := (preg.search loc nmatch eflags).reading text
    (regexec backtrack loc preg string nmatch eflags).isSome = true ↔
      ∃ i u, u ≤ text.length ∧ Span reading n i u := by
  intro text reading
  have hspan : Span reading.cint n = Span reading n := span_cint (isWide_wchars hloc) hshort
  rw [← hspan]
  exact regexec_isSome_cint hloc.reads hparse hcomp hback hready hone hends

/-- The pattern `(a)` is found in `ba`, behind the `b`. -/
theorem regexec_isSome_letter : ∃ preg,
    regcomp asciiBytes [0x28, 0x61, 0x29] regExtended = some (.ok preg) ∧
      (regexec (fun _ _ => none) asciiBytes preg [0x62, 0x61] 1 0).isSome = true :=
  ⟨_, rfl, (regexec_isSome (fun _ _ => none) asciiBytes asciiBytes_readsWide [0x28, 0x61, 0x29] regExtended
    _ _ _ rfl rfl rfl (Placed.ready ⟨0, ⟨Nat.zero_le 0, fun _ h => absurd h List.not_mem_nil⟩,
      ⟨Nat.zero_le 1, by decide⟩⟩ ⟨trivial, trivial⟩) ⟨trivial, trivial⟩
    ⟨trivial, ⟨by decide, by decide⟩, Or.inl ⟨by decide, by decide⟩⟩ [0x62, 0x61] rfl 1 0).mpr
    ⟨1, 2, Nat.le_refl 2, 1, rfl, rfl, _, rfl, ⟨le_refl 0x61, le_refl 0x61⟩,
      fun _ h => absurd h (Option.not_mem_none _), fun _ h => absurd h List.not_mem_nil⟩⟩

/-! ## The whole match -/

theorem span_blank {T : Type} {R : Reading T} {a : Ast} {t u : T} (h : Blank a)
    (hspan : Span R a t u) : t = u := by
  induction a generalizing t u with
  | literal _ leaf =>
    cases leaf with
    | char _ _ => exact h.elim
    | backref _ _ => exact h.elim
    | tag _ => exact h.elim
    | empty => exact hspan
    | assertion _ => exact hspan.1
  | catenation _ left right ihl ihr =>
    obtain ⟨v, hl, hr⟩ := hspan
    exact (ihl h.1 hl).trans (ihr h.2 hr)
  | iteration _ _ _ _ _ => exact h.elim
  | union _ _ _ _ _ => exact h.elim

/-- The tables of a pattern with submatches. -/
theorem compileTree_tags (h : compileTree cflags n p = .ok preg) (hsub : has cflags regNosub = false) :
    preg.tnfa = compile (treAddTags n).1 p.position (treAddTags n).2.tagDirections ∧
      preg.numTags = (treAddTags n).2.numTags ∧
      preg.submatchData = (treAddTags n).2.submatchData ∧ preg.numSubmatches = p.subid ∧
      preg.tagDirections =
        (treExpandAst (treAddTags n).1 p.position (treAddTags n).2.tagDirections).2.2 := by
  have hneeds : needsTags p.maxBackref cflags = true := by rw [needsTags, hsub]; simp
  simp only [compileTree, tagged, hneeds, if_true] at h
  split at h
  · cases h
  · cases h
    exact ⟨rfl, rfl, rfl, rfl, rfl⟩

/-- If there are tags, the first one says where a match begins. -/
theorem startFirst_search (hp : p.Parsed n) (htree : compileTree cflags n p = .ok preg)
    (hc : Compilable (treAddTags n).1 p.position) (hsub : has cflags regNosub = false)
    (hnmatch : 0 < nmatch) (hpos : 0 < preg.numTags) : (preg.search loc nmatch eflags).StartFirst := by
  obtain ⟨htnfa, hnum, -, -, hdirs⟩ := compileTree_tags htree hsub
  have hflags : has preg.cflags regNosub = false := (compileTree_ok htree).1 ▸ hsub
  have hsearch : (preg.search loc nmatch eflags).numTags = preg.numTags := by
    simp [Regex.search, hflags, Nat.ne_of_gt hnmatch]
  rcases (wholeMatch_treAddTags hp.root hp.numbered hp.wellParsed.tagless).front with
    ⟨hnone, -⟩ | ⟨-, hfront, hone, hmin⟩
  · rw [hnum, hnone] at hpos
    exact absurd hpos (Nat.lt_irrefl 0)
  · have honly := frontOnly_of_front hfront hone
    obtain ⟨hinitial, htransitions⟩ := @frontOnly_compile _ p.position
      (treAddTags n).2.tagDirections honly
    refine ⟨?_, by rwa [hsearch], ?_, ?_, ?_⟩
    · show preg.tnfa.Marked
      rw [htnfa]
      exact marked_compile hc
    · show preg.tagDirections 0 = .minimize
      rw [hdirs, ← hmin]
      exact direction_frontOnly honly
    · rwa [Regex.search, htnfa]
    · rwa [Regex.search, htnfa]

/-! ### The submatches that are reset -/

variable {pmatch : List Regmatch} {parents : ℕ → List ℕ} {i j k m : ℕ} {ps : List ℕ}

theorem length_within : (within pmatch i j).length = pmatch.length := by
  simp only [within]
  split
  · exact List.length_set
  · rfl

theorem getD_within_of_ne (h : k ≠ i) :
    (within pmatch i j).getD k (-1, -1) = pmatch.getD k (-1, -1) := by
  simp only [within]
  split
  · simp [List.getD_eq_getElem?_getD, List.getElem?_set_ne (Ne.symm h)]
  · rfl

/-- A submatch is within this parent. -/
def Within (pmatch : List Regmatch) (i parent : ℕ) : Prop :=
  pmatch.getD i (-1, -1) = (-1, -1) ∨
    (pmatch.getD parent (-1, -1)).1 ≤ (pmatch.getD i (-1, -1)).1 ∧
      (pmatch.getD i (-1, -1)).2 ≤ (pmatch.getD parent (-1, -1)).2

theorem getD_within :
    (within pmatch i j).getD i (-1, -1) = (-1, -1) ∨
      (within pmatch i j).getD i (-1, -1) = pmatch.getD i (-1, -1) ∧ Within pmatch i j := by
  simp only [within]
  split
  · refine .inl ?_
    rw [List.getD_eq_getElem?_getD]
    by_cases hi : i < pmatch.length
    · simp [hi]
    · simp [Nat.le_of_not_lt hi]
  · next h =>
    rw [not_or, not_lt, not_lt] at h
    exact .inr ⟨rfl, .inr h⟩

/-- The inner loop, over the parents of one submatch. -/
theorem getD_foldl_within (hne : ∀ j ∈ ps, j ≠ i) :
    let r := ps.foldl (fun pmatch j => within pmatch i j) pmatch
    (∀ k ≠ i, r.getD k (-1, -1) = pmatch.getD k (-1, -1)) ∧
      (r.getD i (-1, -1) = (-1, -1) ∨
        r.getD i (-1, -1) = pmatch.getD i (-1, -1) ∧ ∀ j ∈ ps, Within pmatch i j) := by
  induction ps generalizing pmatch with
  | nil => exact ⟨fun _ _ => rfl, .inr ⟨rfl, fun _ hj => absurd hj List.not_mem_nil⟩⟩
  | cons j ps ih =>
    obtain ⟨hother, hself⟩ := @ih (within pmatch i j)
      fun j' hj' => hne j' (List.mem_cons_of_mem _ hj')
    refine ⟨fun k hk => (hother k hk).trans (getD_within_of_ne hk), ?_⟩
    rcases hself with hself | ⟨hself, hps⟩
    · exact .inl hself
    · rcases @getD_within pmatch i j with hone | ⟨hone, hj⟩
      · exact .inl (hself.trans hone)
      · refine .inr ⟨hself.trans hone, fun j' hj' => ?_⟩
        rcases List.mem_cons.mp hj' with rfl | hj'
        · exact hj
        · have hin := hps j' hj'
          rw [Within, hone, getD_within_of_ne (hne j' (List.mem_cons_of_mem _ hj'))] at hin
          exact hin

/-- **The second loop of `tre_fill_pmatch`**: what is in front of `i` stays, and behind it every submatch is
within its parents. -/
theorem resetFrom_spec (hparents : ∀ i, ∀ j ∈ parents i, j < i) :
    let r := resetFrom parents i m pmatch
    (∀ k < i, r.getD k (-1, -1) = pmatch.getD k (-1, -1)) ∧
      (∀ k, i ≤ k → k < i + m → ∀ j ∈ parents k, Within r k j) ∧
      (parents i = [] → r.getD i (-1, -1) = pmatch.getD i (-1, -1)) ∧
      r.length = pmatch.length := by
  induction m generalizing i pmatch with
  | zero => exact ⟨fun _ _ => rfl, fun k h₁ h₂ => absurd h₂ (Nat.not_lt.mpr h₁), fun _ => rfl, rfl⟩
  | succ m ih =>
    obtain ⟨hone, hself⟩ := @getD_foldl_within pmatch i (parents i) fun j hj =>
      Nat.ne_of_lt (hparents i j hj)
    obtain ⟨hbefore, hin, -, hlen⟩ := @ih
      ((parents i).foldl (fun pmatch j => within pmatch i j) pmatch) (i + 1)
    rw [resetFrom]
    refine ⟨fun k hk => ?_, fun k h₁ h₂ j hj => ?_, fun hnil => ?_, ?_⟩
    · exact (hbefore k (Nat.lt_succ_of_lt hk)).trans (hone k (Nat.ne_of_lt hk))
    · rcases Nat.lt_or_eq_of_le h₁ with hlt | rfl
      · exact hin k hlt (by omega) j hj
      · have hj' := hparents i j hj
        rw [Within, hbefore i (Nat.lt_succ_self i), hbefore j (Nat.lt_succ_of_lt hj'),
          hone j (Nat.ne_of_lt hj')]
        rcases hself with hself | ⟨hself, hps⟩
        · exact .inl hself
        · rw [hself]
          exact hps j hj
    · rw [hbefore i (Nat.lt_succ_self i), hnil]
      rfl
    · rw [hlen]
      have hfold : ∀ (ps : List ℕ) (pmatch : List Regmatch),
          (ps.foldl (fun pmatch j => within pmatch i j) pmatch).length = pmatch.length := by
        intro ps
        induction ps with
        | nil => exact fun _ => rfl
        | cons j ps ih => exact fun pmatch => (ih _).trans length_within
      exact hfold _ _

/-- **What is recorded for a submatch is what is around it in the tree.** -/
theorem parents_eq (hp : p.Parsed n) (h : compileTree cflags n p = .ok preg)
    (hsub : has cflags regNosub = false) (i : ℕ) :
    (preg.submatchData i).parents = (around i n).getD [] := by
  obtain ⟨-, -, hdata, -⟩ := compileTree_tags h hsub
  have hone : sidCount i n ≤ 1 := (hp.sids i).trans (by split <;> omega)
  have hpurge : (treAddTags n).2.submatchData i = _ :=
    @trePurgeRegset_apply i _ (addTags n Tagging.start).2.regset _
  rw [hdata, hpurge]
  dsimp only
  rw [parents_submatchData hone]
  cases around i n <;> rfl

/-- The parents of a submatch have smaller numbers. -/
theorem parents_lt (hp : p.Parsed n) (h : compileTree cflags n p = .ok preg)
    (hsub : has cflags regNosub = false) :
    ∀ i, ∀ j ∈ (preg.submatchData i).parents, j < i := by
  intro i j hj
  rw [parents_eq hp h hsub] at hj
  cases haround : around i n with
  | none =>
    rw [haround] at hj
    exact absurd hj List.not_mem_nil
  | some ps =>
    rw [haround] at hj
    exact (lt_of_mem_around hp.numbered haround).2 j hj

/-- There is the whole match. -/
theorem subid_pos (hp : p.Parsed n) : 0 < p.subid := by
  have hcount : 0 < sidCount 0 n := by
    have hroot := hp.root
    cases n <;> simp only [Ast.sid] at hroot <;> subst hroot <;>
      simp only [sidCount, if_true] <;> omega
  by_contra hzero
  have hle := hp.sids 0
  rw [if_neg hzero] at hle
  omega

/-- The entries that are filled come first, and the rest is `-1`. -/
theorem treFillPmatch_getD (hparents : ∀ i, ∀ j ∈ (preg.submatchData i).parents, j < i)
    (hsub : has preg.cflags regNosub = false) (nmatch : ℕ) (tags : List ℤ) (matchEo : ℕ) :
    let r := treFillPmatch nmatch preg tags matchEo
    r.length = nmatch ∧
      (∀ i, i < min preg.numSubmatches nmatch → ∀ j ∈ (preg.submatchData i).parents, Within r i j) ∧
      (0 < min preg.numSubmatches nmatch →
        r.getD 0 (-1, -1) = preg.submatch tags matchEo 0) := by
  have hspec := @resetFrom_spec ((List.range (min preg.numSubmatches nmatch)).map
    (preg.submatch tags matchEo)) (fun i => (preg.submatchData i).parents) 0
    (min preg.numSubmatches nmatch) hparents
  obtain ⟨-, hin, hzero, hlen⟩ := hspec
  rw [List.length_map, List.length_range] at hlen
  have hfront : ∀ {l l' : List Regmatch} {k : ℕ}, k < l.length →
      (l ++ l').getD k (-1, -1) = l.getD k (-1, -1) := by
    intro l l' k hk
    rw [List.getD_eq_getElem?_getD, List.getElem?_append_left hk, List.getD_eq_getElem?_getD]
  rw [treFillPmatch, if_neg (by rw [hsub]; exact Bool.false_ne_true)]
  refine ⟨?_, fun i hi j hj => ?_, fun hpos => ?_⟩
  · rw [List.length_append, hlen, List.length_replicate]
    omega
  · have hwithin := hin i (Nat.zero_le i) (by rwa [Nat.zero_add]) j hj
    have hj' := (hparents i j hj).trans hi
    rw [Within] at hwithin ⊢
    rwa [hfront (by rwa [hlen]), hfront (by rwa [hlen])]
  · have hnil : (preg.submatchData 0).parents = [] :=
      List.eq_nil_iff_forall_not_mem.mpr fun j hj => Nat.not_lt_zero j (hparents 0 j hj)
    rw [hfront (by rwa [hlen]), hzero hnil]
    simp [List.getD_eq_getElem?_getD, hpos]

/-- **Submatches are within those around them**, whatever the matcher has found: a submatch has been part
of the match only if all those have that are around it in the tree of the pattern, and it lies within them. -/
theorem regexec_within (backtrack : Search → Str → Option (ℕ × List ℤ)) (loc : Locale)
    (hloc : loc.Reads) (regex : Str) (cflags : BitVec 32) (preg : Regex) (n : Ast) (p : Parsing)
    (hparse : treParse loc cflags regex = some (.ok (n, p)))
    (hcomp : regcomp loc regex cflags = some (.ok preg)) (hsub : has cflags regNosub = false)
    (string : Str) (nmatch : ℕ) (eflags : BitVec 32) (pmatch : List Regmatch)
    (hr : regexec backtrack loc preg string nmatch eflags = some pmatch) :
    pmatch.length = nmatch ∧ ∀ i ps, around i n = some ps → i < nmatch →
      ∀ j ∈ ps, j < i ∧ Within pmatch i j := by
  have hp := parsed_treParse hloc hparse
  rw [regcomp, hparse] at hcomp
  have htree : compileTree cflags n p = .ok preg := Option.some_inj.mp hcomp
  obtain ⟨-, -, -, hsubs, -⟩ := compileTree_tags htree hsub
  have hparents := parents_lt hp htree hsub
  have hflags : has preg.cflags regNosub = false := (compileTree_ok htree).1 ▸ hsub
  obtain ⟨m, -, rfl⟩ := Option.map_eq_some_iff.mp hr
  obtain ⟨hlen, hin, -⟩ := treFillPmatch_getD hparents hflags nmatch m.2 m.1
  rw [hflags]
  refine ⟨hlen, fun i ps haround hn j hj => ?_⟩
  -- what is in the tree has a number that `regcomp` has given
  have hi : i < preg.numSubmatches := by
    have hcount : sidCount i n ≠ 0 := fun hzero => by
      rw [around_eq_none_iff.mpr hzero] at haround
      cases haround
    by_contra hle
    have hsids := hp.sids i
    rw [if_neg (hsubs ▸ hle)] at hsids
    exact hcount (Nat.le_zero.mp hsids)
  have hj' : j ∈ (preg.submatchData i).parents := by
    rw [parents_eq hp htree hsub, haround]
    exact hj
  exact ⟨hparents i j hj', hin i (Nat.lt_min.mpr ⟨hi, hn⟩) j hj'⟩

/-- The subexpressions of `((a)|b)*` in `ab`: the inner one has been part of another round, and is reset. -/
theorem regexec_within_paren : ∃ preg pmatch,
    regcomp asciiBytes [0x28, 0x28, 0x61, 0x29, 0x7c, 0x62, 0x29, 0x2a] regExtended = some (.ok preg) ∧
      regexec (fun _ _ => none) asciiBytes preg [0x61, 0x62] 3 0 = some pmatch ∧
      pmatch = [(0, 2), (1, 2), (-1, -1)] ∧ ∀ j ∈ [0, 1], j < 2 ∧ Within pmatch 2 j :=
  ⟨_, _, rfl, rfl, by decide +kernel, (regexec_within (fun _ _ => none) asciiBytes
    asciiBytes_readsWide.reads [0x28, 0x28, 0x61, 0x29, 0x7c, 0x62, 0x29, 0x2a] regExtended _ _ _ rfl rfl rfl
    [0x61, 0x62] 3 0 _ rfl).2 2 [0, 1] rfl (by decide)⟩

/-- The whole match is from where the tag `0` says to the end. -/
theorem getD_treFillPmatch_zero (hp : p.Parsed n) (htree : compileTree cflags n p = .ok preg)
    (hsub : has cflags regNosub = false) (hnmatch : 0 < nmatch) {so : ℤ} {eo : ℕ} {tags : List ℤ}
    (hnone : preg.numTags = 0 → so = eo) (hsome : 0 < preg.numTags → begun tags = so)
    (hso : 0 ≤ so) : (treFillPmatch nmatch preg tags eo).getD 0 (-1, -1) = (so, (eo : ℤ)) := by
  obtain ⟨-, hnum, hdata, hsubs, -⟩ := compileTree_tags htree hsub
  have hwhole := wholeMatch_treAddTags hp.root hp.numbered hp.wellParsed.tagless
  have hflags : has preg.cflags regNosub = false := (compileTree_ok htree).1 ▸ hsub
  obtain ⟨-, -, hzero⟩ := treFillPmatch_getD (parents_lt hp htree hsub) hflags nmatch tags eo
  rw [hzero (Nat.lt_min.mpr ⟨hsubs ▸ subid_pos hp, hnmatch⟩)]
  have heo : preg.offsetOf tags eo (preg.submatchData 0).eoTag = eo := by
    rw [Regex.offsetOf, hdata, hwhole.eoTag, hnum, if_pos rfl]
  have hso' : preg.offsetOf tags eo (preg.submatchData 0).soTag = so := by
    rw [Regex.offsetOf, hdata, hwhole.soTag]
    split
    · next hzero => exact (hnone hzero.symm).symm
    · next hne =>
      rw [← hsome (Nat.pos_of_ne_zero (Ne.symm hne))]
      cases tags <;> rfl
  rw [Regex.submatch, heo, hso', if_neg]
  rintro (h | h) <;> omega

/-- **What `pmatch[0]` says is there**: the tree of the pattern spans the string from the one place to the
other.  Of what does not end earlier nothing begins earlier, and what begins there is not longer.  If nothing
but the match has a tag, it is the leftmost match, and the longest one there.  The codes in the tree are up to
`0xffff`, as a transition has 16 bits of them. -/
theorem regexec_leftmost (backtrack : Search → Str → Option (ℕ × List ℤ)) (loc : Locale)
    (hloc : loc.ReadsWide) (regex : Str) (cflags : BitVec 32) (preg : Regex) (n : Ast) (p : Parsing)
    (hparse : treParse loc cflags regex = some (.ok (n, p)))
    (hcomp : regcomp loc regex cflags = some (.ok preg)) (hback : p.maxBackref = none)
    (hready : Ready n 0 p.position) (hshort : Short n) (hsub : has cflags regNosub = false)
    (string : Str) (nmatch : ℕ) (hnmatch : 0 < nmatch) (eflags : BitVec 32) (pmatch : List Regmatch)
    (hr : regexec backtrack loc preg string nmatch eflags = some pmatch) :
    let text := (wchars loc 0 string).1
    let reading := (preg.search loc nmatch eflags).reading text
    ∃ i u, u ≤ text.length ∧ Span reading n i u ∧
      pmatch.getD 0 (-1, -1) = ((offset text i : ℤ), (offset text u : ℤ)) ∧
      (OneWay n → ∀ j v, v ≤ text.length → Span reading n j v → u ≤ v ∨ preg.numTags = 1 →
        i < j ∨ i = j ∧ v ≤ u) := by
  have hp := parsed_treParse hloc.reads hparse
  rw [regcomp, hparse] at hcomp
  have htree : compileTree cflags n p = .ok preg := Option.some_inj.mp hcomp
  obtain ⟨htnfa, hnum, -, -, -⟩ := compileTree_tags htree hsub
  obtain ⟨hcflags, hbackrefs, -⟩ := compileTree_ok htree
  have hflags : has preg.cflags regNosub = false := hcflags ▸ hsub
  have htags : WithTags n (treAddTags n).1 := withTags_addTags
  have hc : Compilable (treAddTags n).1 p.position :=
    htags.compilable (compilable_of_parsed hp hback hready)
  intro text reading
  rw [hback, Option.isSome_none] at hbackrefs
  simp only [regexec, hbackrefs, hflags, Bool.false_eq_true, if_false] at hr
  obtain ⟨⟨eo, tags⟩, hrun, rfl⟩ := Option.map_eq_some_iff.mp hr
  have hm : preg.tnfa.Marked := htnfa ▸ marked_compile hc
  have hcint : Span reading.cint n = Span reading n := span_cint (isWide_wchars hloc) hshort
  have hspan : ∀ {i u}, preg.tnfa.Accepts reading i u → Span reading n i u := fun hacc =>
    hcint ▸ htags.span ▸ span_of_accepts _ _ _ _ hc _ _ (htnfa ▸ hacc)
  rcases Nat.eq_zero_or_pos preg.numTags with hzero | hpos
  · -- nothing is read, and a match ends where it begins
    have hblank : Blank (treAddTags n).1 := by
      rcases (wholeMatch_treAddTags hp.root hp.numbered hp.wellParsed.tagless).front with
        ⟨-, hblank⟩ | ⟨hpos, -⟩
      · exact hblank
      · exact absurd (hnum.symm.trans hzero) (Nat.ne_of_gt hpos)
    have hsame : ∀ {i u}, Span reading n i u → i = u := fun h =>
      span_blank hblank (htags.span ▸ h)
    obtain ⟨i, u, hu, hpath, rfl⟩ := treTnfaRunParallel_sound (preg.search loc nmatch eflags) string hm
      eo tags hrun
    have hiu := hspan (accepts_iff_path.mpr ⟨tags, hpath⟩)
    refine ⟨i, u, hu, hiu, ?_, fun _ j v _ hjv hv => ?_⟩
    · refine getD_treFillPmatch_zero hp htree hsub hnmatch (fun _ => ?_) (fun hpos => ?_)
        (Int.natCast_nonneg _)
      · exact congrArg (fun t => (offset text t : ℤ)) (hsame hiu)
      · rw [hzero] at hpos
        exact absurd hpos (Nat.lt_irrefl 0)
    · have h₁ := hsame hiu
      have h₂ := hsame hjv
      rcases hv with hv | hone
      · omega
      · rw [hzero] at hone
        cases hone
  · have hfirst : (preg.search loc nmatch eflags).StartFirst :=
      startFirst_search hp htree hc hsub hnmatch hpos
    obtain ⟨i, u, hu, rfl, hpath, hlast⟩ := treTnfaRunParallel_leftmost (preg.search loc nmatch eflags)
      string hfirst eo tags hrun
    have hsearch : (preg.search loc nmatch eflags).numTags = preg.numTags := by
      simp [Regex.search, hflags, Nat.ne_of_gt hnmatch]
    refine ⟨i, u, hu, hspan (accepts_iff_path.mpr ⟨tags, hpath⟩), ?_, fun hone j v hv hjv hend => ?_⟩
    · exact getD_treFillPmatch_zero hp htree hsub hnmatch
        (fun hzero => absurd hzero (Nat.ne_of_gt hpos)) (fun _ => begun_path hfirst hpath)
        (Int.natCast_nonneg _)
    · refine hlast j v hv ?_ (by rwa [hsearch])
      show preg.tnfa.Accepts reading j v
      rw [htnfa, accepts_iff_span _ _ _ _ hc (htags.oneWay hone), htags.span,
        hcint]
      exact hjv

/-- What is found of `a*` in `aa`. -/
theorem regexec_leftmost_star : ∃ preg n pmatch,
    regcomp asciiBytes [0x61, 0x2a] 0 = some (.ok preg) ∧
      regexec (fun _ _ => none) asciiBytes preg [0x61, 0x61] 1 0 = some pmatch ∧
      let text := (wchars asciiBytes 0 [0x61, 0x61]).1
      let reading := (preg.search asciiBytes 1 0).reading text
      ∃ i u, u ≤ text.length ∧ Span reading n i u ∧
        pmatch.getD 0 (-1, -1) = ((offset text i : ℤ), (offset text u : ℤ)) ∧
        (OneWay n → ∀ j v, v ≤ text.length → Span reading n j v → u ≤ v ∨ preg.numTags = 1 →
          i < j ∨ i = j ∧ v ≤ u) :=
  ⟨_, _, _, rfl, rfl, regexec_leftmost (fun _ _ => none) asciiBytes asciiBytes_readsWide [0x61, 0x2a] 0
    _ _ _ rfl rfl rfl (Placed.ready ⟨Nat.zero_le 1, by decide⟩ ⟨trivial, rfl⟩)
    ⟨⟨by decide, by decide⟩, Or.inl ⟨by decide, by decide⟩⟩ rfl [0x61, 0x61] 1
    Nat.one_pos 0 _ rfl⟩

/-- **With submatches it need not be the leftmost match.**  Of `ab|(b|bc)(c|cc)` there is `ab` in front of `abcc`, and it is found
if nothing comes behind it.  But two paths that begin at the `b` come to the final state together, and the
second one, which has the longer submatch, becomes the match without a look at where the match that is
known begins. -/
theorem regexec_not_leftmost : ∃ preg,
    regcomp asciiBytes [0x61, 0x62, 0x7c, 0x28, 0x62, 0x7c, 0x62, 0x63, 0x29, 0x28, 0x63, 0x7c, 0x63, 0x63,
      0x29] regExtended = some (.ok preg) ∧
    regexec (fun _ _ => none) asciiBytes preg [0x61, 0x62] 1 0 = some [(0, 2)] ∧
    regexec (fun _ _ => none) asciiBytes preg [0x61, 0x62, 0x63, 0x63] 1 0 = some [(1, 4)] :=
  ⟨_, rfl, by decide +kernel, by decide +kernel⟩

end

end Tre
end UtilWin
