import UtilWin.Regex.Parse
import UtilWin.Regex.CompileAndRun

/-!
# What the parser makes

The parser comes to an end with every pattern (`treParse_isSome`).  The tree that it makes has its
positions from left to right, the leaves of a bracket expression apart, which have one position in common;
the bounds of its repetitions are in order and not above `RE_DUP_MAX`; it has no tags; a back reference does
not refer to a higher number than `max_backref` says; and every number of a subexpression is in the tree at
most once (`treParse_parsed`).

All of this is kept by each round, of the tree that is under way and of what is on the stack.  The loop may
go through a round without reading anything, if an atom is empty; the next round then reads what
comes behind it.
-/

namespace UtilWin
namespace Tre

open Glob
open Fnmatch (caret dash equals)

/-! ## Trees as they are parsed -/

/-- The leaves of a bracket expression: characters with the position `p`. -/
def Bracketed (p : ℕ) : Ast → Prop
  | .literal _ (.char q _) => q = p
  | .literal _ (.backref _ _) | .literal _ .empty | .literal _ (.assertion _)
  | .literal _ (.tag _) => False
  | .catenation _ _ _ | .iteration _ _ _ _ => False
  | .union _ left right => Bracketed p left ∧ Bracketed p right

/-- The positions of the tree are in the interval from `lo` to `hi`, from left to right. -/
def Placed : Ast → ℕ → ℕ → Prop
  | .literal _ leaf => fun lo hi => lo ≤ hi ∧ ∀ p ∈ leaf.positions, lo ≤ p ∧ p < hi
  | .catenation _ left right => fun lo hi => ∃ mid, Placed left lo mid ∧ Placed right mid hi
  | .iteration _ arg _ _ => Placed arg
  | .union _ left right => fun lo hi =>
    (∃ p, lo ≤ p ∧ p < hi ∧ Bracketed p left ∧ Bracketed p right) ∨
      ∃ mid, Placed left lo mid ∧ Placed right mid hi

/-- Bounds in order, no tags, and no back reference above `maxBackref`. -/
def WellParsed (maxBackref : Option ℕ) : Ast → Prop
  | .literal _ (.char _ _) | .literal _ .empty | .literal _ (.assertion _) => True
  | .literal _ (.tag _) => False
  | .literal _ (.backref _ number) => 1 ≤ number ∧ ∃ m ∈ maxBackref, number ≤ m
  | .catenation _ left right => WellParsed maxBackref left ∧ WellParsed maxBackref right
  | .iteration _ arg min max => WellParsed maxBackref arg ∧ min ≤ reDupMax ∧
    ∀ m ∈ max, min ≤ m ∧ 1 ≤ m ∧ m ≤ reDupMax
  | .union _ left right => WellParsed maxBackref left ∧ WellParsed maxBackref right

section

variable {a left right node : Ast} {lo lo' mid hi hi' position k : ℕ} {sid : Option ℕ}
  {mb mb' : Option ℕ}

theorem Bracketed.oneState (h : Bracketed position a) : OneState position a := by
  induction a with
  | literal _ leaf =>
    cases leaf with
    | char _ _ => exact h
    | backref _ _ => exact h.elim
    | empty => exact h.elim
    | assertion _ => exact h.elim
    | tag _ => exact h.elim
  | catenation _ _ _ => exact h.elim
  | iteration _ _ _ _ => exact h.elim
  | union _ left right ihl ihr => exact ⟨ihl h.1, ihr h.2⟩

theorem Placed.laid (h : Placed a lo hi) : Laid a lo hi := by
  induction a generalizing lo hi with
  | literal _ leaf => exact h
  | catenation _ left right ihl ihr =>
    obtain ⟨mid, hl, hr⟩ := h
    exact ⟨mid, .inl ⟨ihl hl, ihr hr⟩⟩
  | iteration _ arg _ _ ih => exact ih h
  | union _ left right ihl ihr =>
    rcases h with h | ⟨mid, hl, hr⟩
    · obtain ⟨p, hlo, hhi, hl, hr⟩ := h
      exact .inl ⟨p, hlo, hhi, hl.oneState, hr.oneState⟩
    · exact .inr ⟨mid, .inl ⟨ihl hl, ihr hr⟩⟩

theorem Placed.le (h : Placed a lo hi) : lo ≤ hi := h.laid.le

theorem Placed.mono (h : Placed a lo hi) (hlo : lo' ≤ lo) (hhi : hi ≤ hi') : Placed a lo' hi' := by
  induction a generalizing lo hi lo' hi' with
  | literal _ leaf =>
    exact ⟨hlo.trans (h.1.trans hhi),
      fun p hp => ⟨hlo.trans (h.2 p hp).1, (h.2 p hp).2.trans_le hhi⟩⟩
  | catenation _ left right ihl ihr =>
    obtain ⟨mid, hl, hr⟩ := h
    exact ⟨mid, ihl hl hlo (Nat.le_refl _), ihr hr (Nat.le_refl _) hhi⟩
  | iteration _ arg _ _ ih => exact ih h hlo hhi
  | union _ left right ihl ihr =>
    rcases h with ⟨p, hp₁, hp₂, h⟩ | ⟨mid, hl, hr⟩
    · exact .inl ⟨p, hlo.trans hp₁, hp₂.trans_le hhi, h⟩
    · exact .inr ⟨mid, ihl hl hlo (Nat.le_refl _), ihr hr (Nat.le_refl _) hhi⟩

theorem Bracketed.placed (h : Bracketed position a) : Placed a position (position + 1) := by
  cases a with
  | literal _ leaf =>
    cases leaf with
    | char q lit =>
      obtain rfl : q = position := h
      exact ⟨Nat.le_succ q, fun p hp => by
        obtain rfl := List.mem_singleton.mp hp
        exact ⟨Nat.le_refl _, Nat.lt_succ_self _⟩⟩
    | backref _ _ => exact h.elim
    | empty => exact h.elim
    | assertion _ => exact h.elim
    | tag _ => exact h.elim
  | catenation _ _ _ => exact h.elim
  | iteration _ _ _ _ => exact h.elim
  | union _ left right => exact .inl ⟨position, Nat.le_refl _, Nat.lt_succ_self _, h.1, h.2⟩

/-- The positions of a tree are in its interval. -/
theorem Placed.mem (h : Placed a lo hi) : ∀ p ∈ positions a, lo ≤ p ∧ p < hi := by
  have happend : ∀ {ps qs : List ℕ} {lo mid hi : ℕ}, lo ≤ mid → mid ≤ hi →
      (∀ p ∈ ps, lo ≤ p ∧ p < mid) → (∀ p ∈ qs, mid ≤ p ∧ p < hi) →
      ∀ p ∈ ps ++ qs, lo ≤ p ∧ p < hi := by
    intro ps qs lo mid hi hle hle' hps hqs p hp
    rcases List.mem_append.mp hp with hp | hp
    · exact ⟨(hps p hp).1, (hps p hp).2.trans_le hle'⟩
    · exact ⟨hle.trans (hqs p hp).1, (hqs p hp).2⟩
  induction a generalizing lo hi with
  | literal _ _ => exact h.2
  | iteration _ _ _ _ ih => exact ih h
  | catenation _ left right ihl ihr =>
    obtain ⟨mid, hl, hr⟩ := h
    exact happend hl.le hr.le (ihl hl) (ihr hr)
  | union _ left right ihl ihr =>
    rcases h with ⟨q, hlo, hhi, hl, hr⟩ | ⟨mid, hl, hr⟩
    · intro p hp
      obtain rfl : p = q := (List.mem_append.mp hp).elim (hl.oneState.mem p) (hr.oneState.mem p)
      exact ⟨hlo, hhi⟩
    · exact happend hl.le hr.le (ihl hl) (ihr hr)

/-- Where nothing is counted, the tree is as `tre_expand_ast` needs it. -/
theorem Placed.ready (h : Placed a lo hi) (hcount : Uncounted a) : Ready a lo hi := by
  induction a generalizing lo hi with
  | literal _ _ => exact h
  | catenation _ left right ihl ihr =>
    obtain ⟨mid, hl, hr⟩ := h
    exact ⟨mid, ihl hl hcount.1, ihr hr hcount.2⟩
  | iteration _ arg min max _ =>
    refine ⟨hcount.1, lo, hi, Nat.le_refl lo, Nat.le_refl hi, h.laid, fun hexp => ?_⟩
    rw [hcount.2] at hexp
    exact absurd hexp Bool.false_ne_true
  | union _ left right ihl ihr =>
    rcases h with ⟨p, hlo, hhi, hl, hr⟩ | ⟨mid, hl, hr⟩
    · exact .inl ⟨p, hlo, hhi, hl.oneState, hr.oneState⟩
    · exact .inr ⟨mid, ihl hl hcount.1, ihr hr hcount.2⟩

theorem WellParsed.mono (h : WellParsed mb a) (hmb : ∀ m ∈ mb, ∃ m' ∈ mb', m ≤ m') :
    WellParsed mb' a := by
  induction a with
  | literal _ leaf =>
    cases leaf with
    | backref _ number =>
      obtain ⟨h₁, m, hm, hle⟩ := h
      obtain ⟨m', hm', hle'⟩ := hmb m hm
      exact ⟨h₁, m', hm', hle.trans hle'⟩
    | tag _ => exact h.elim
    | char _ _ => trivial
    | empty => trivial
    | assertion _ => trivial
  | catenation _ left right ihl ihr => exact ⟨ihl h.1, ihr h.2⟩
  | iteration _ arg min max ih => exact ⟨ih h.1, h.2⟩
  | union _ left right ihl ihr => exact ⟨ihl h.1, ihr h.2⟩

theorem WellParsed.bounded (h : WellParsed mb a) : Bounded a := by
  induction a with
  | literal _ leaf => trivial
  | catenation _ left right ihl ihr => exact ⟨ihl h.1, ihr h.2⟩
  | iteration _ arg min max ih => exact ⟨ih h.1, fun m hm => ⟨(h.2.2 m hm).1, (h.2.2 m hm).2.1⟩⟩
  | union _ left right ihl ihr => exact ⟨ihl h.1, ihr h.2⟩

theorem WellParsed.tagless (h : WellParsed mb a) : Tagless a := by
  induction a with
  | literal _ leaf =>
    cases leaf with
    | tag _ => exact h.elim
    | backref _ _ => trivial
    | char _ _ => trivial
    | empty => trivial
    | assertion _ => trivial
  | catenation _ left right ihl ihr => exact ⟨ihl h.1, ihr h.2⟩
  | iteration _ arg min max ih => exact ih h.1
  | union _ left right ihl ihr => exact ⟨ihl h.1, ihr h.2⟩

theorem WellParsed.noBackrefs (h : WellParsed none a) : NoBackrefs a := by
  induction a with
  | literal _ leaf =>
    cases leaf with
    | backref _ _ =>
      obtain ⟨-, m, hm, -⟩ := h
      cases hm
    | tag _ => trivial
    | char _ _ => trivial
    | empty => trivial
    | assertion _ => trivial
  | catenation _ left right ihl ihr => exact ⟨ihl h.1, ihr h.2⟩
  | iteration _ arg min max ih => exact ih h.1
  | union _ left right ihl ihr => exact ⟨ihl h.1, ihr h.2⟩

/-! ### The number of a node -/

theorem placed_withSid : Placed (a.withSid sid) lo hi ↔ Placed a lo hi := by
  cases a <;> exact Iff.rfl

theorem wellParsed_withSid : WellParsed mb (a.withSid sid) ↔ WellParsed mb a := by
  cases a with
  | literal _ leaf => cases leaf <;> exact Iff.rfl
  | catenation _ _ _ => exact Iff.rfl
  | iteration _ _ _ _ => exact Iff.rfl
  | union _ _ _ => exact Iff.rfl

theorem sidCount_withSid (h : a.sid = none) :
    sidCount k (a.withSid (some position)) = (if position = k then 1 else 0) + sidCount k a := by
  cases a <;> simp only [Ast.sid] at h <;> subst h <;>
    simp [Ast.withSid, sidCount, Nat.add_assoc]

theorem placed_marksub (h : Placed a lo hi) : Placed (marksub a k) lo hi := by
  rw [marksub]
  split
  · exact ⟨lo, ⟨Nat.le_refl lo, fun p hp => absurd hp List.not_mem_nil⟩, h⟩
  · exact placed_withSid.mpr h

theorem wellParsed_marksub (h : WellParsed mb a) : WellParsed mb (marksub a k) := by
  rw [marksub]
  split
  · exact ⟨trivial, h⟩
  · exact wellParsed_withSid.mpr h

theorem sidCount_marksub : sidCount k (marksub a position) =
    (if position = k then 1 else 0) + sidCount k a := by
  rw [marksub]
  split
  · simp [sidCount, emptyNode]
  · next h => exact sidCount_withSid (by simpa using h)

/-- Where there are no subexpressions. -/
theorem numbered_of_sidCount (h : ∀ k, sidCount k a = 0) : Numbered a lo := by
  have hnone : ∀ {sid : Option ℕ}, (∀ k, (if sid = some k then 1 else 0) = 0) → sid = none := by
    intro sid hsid
    cases sid with
    | none => rfl
    | some k => simpa using hsid k
  induction a generalizing lo with
  | literal sid _ =>
    obtain rfl := hnone h
    exact fun k hk => by cases hk
  | catenation sid _ _ ihl ihr =>
    simp only [sidCount, Nat.add_eq_zero_iff] at h
    obtain rfl := hnone fun k => (h k).1.1
    exact ⟨fun k hk => (by cases hk), ihl fun k => (h k).1.2, ihr fun k => (h k).2⟩
  | iteration sid _ _ _ ih =>
    simp only [sidCount, Nat.add_eq_zero_iff] at h
    obtain rfl := hnone fun k => (h k).1
    exact ⟨fun k hk => (by cases hk), ih fun k => (h k).2⟩
  | union sid _ _ ihl ihr =>
    simp only [sidCount, Nat.add_eq_zero_iff] at h
    obtain rfl := hnone fun k => (h k).1.1
    exact ⟨fun k hk => (by cases hk), ihl fun k => (h k).1.2, ihr fun k => (h k).2⟩

/-- The node of a subexpression has its number, and those in it have greater ones. -/
theorem numbered_marksub (h : Numbered a (k + 1)) (hle : lo ≤ k) :
    Numbered (marksub a k) lo ∧ (marksub a k).sid = some k := by
  have hroot : ∀ j ∈ some k, lo ≤ j := by
    intro j hj
    rwa [← Option.some_inj.mp hj]
  rw [marksub]
  split
  · exact ⟨⟨hroot, fun j hj => (by cases hj), h⟩, rfl⟩
  · next hsid =>
    have hnone : a.sid = none := by simpa using hsid
    cases a with
    | literal sid _ => exact ⟨hroot, rfl⟩
    | catenation sid _ _ =>
      obtain rfl : sid = none := hnone
      exact ⟨⟨hroot, h.2⟩, rfl⟩
    | iteration sid _ _ _ =>
      obtain rfl : sid = none := hnone
      exact ⟨⟨hroot, h.2⟩, rfl⟩
    | union sid _ _ =>
      obtain rfl : sid = none := hnone
      exact ⟨⟨hroot, h.2⟩, rfl⟩

end

/-! ## Atoms -/

/-- What is asked of the node of an atom. -/
structure AtomNode (position : ℕ) (mb : Option ℕ) (n : Ast) (position' : ℕ) (mb' : Option ℕ) :
    Prop where
  placed : Placed n position position'
  wellParsed : WellParsed mb' n
  mono : ∀ m ∈ mb, ∃ m' ∈ mb', m ≤ m'
  noSid : ∀ k, sidCount k n = 0

section

variable {loc : Locale} {cflags : BitVec 32} {position k : ℕ} {mb : Option ℕ} {s rest : Str}
  {a : Atom} {n : Ast} {lit : Literal} {atStart : Bool}

theorem atomNode_empty : AtomNode position mb emptyNode position mb :=
  ⟨⟨Nat.le_refl _, fun _ hp => absurd hp List.not_mem_nil⟩, trivial, fun m hm => ⟨m, hm, Nat.le_refl m⟩,
    fun _ => rfl⟩

theorem atomNode_assertion {x : Assertion} : AtomNode position mb (assertionNode x) position mb :=
  ⟨⟨Nat.le_refl _, fun _ hp => absurd hp List.not_mem_nil⟩, trivial, fun m hm => ⟨m, hm, Nat.le_refl m⟩,
    fun _ => rfl⟩

/-- The leaves of a bracket expression, and of a letter in both cases. -/
theorem bracketed_facts (h : Bracketed position n) : WellParsed mb n := by
  induction n with
  | literal _ leaf =>
    cases leaf with
    | char _ _ => trivial
    | backref _ _ => exact h.elim
    | empty => exact h.elim
    | assertion _ => exact h.elim
    | tag _ => exact h.elim
  | catenation _ _ _ => exact h.elim
  | iteration _ _ _ _ => exact h.elim
  | union _ left right ihl ihr => exact ⟨ihl h.1, ihr h.2⟩

theorem atomNode_bracketed (h : Bracketed position n) (hsid : ∀ k, sidCount k n = 0) :
    AtomNode position mb n (position + 1) mb :=
  ⟨h.placed, bracketed_facts h, fun m hm => ⟨m, hm, Nat.le_refl m⟩, hsid⟩

theorem bracketUnion_facts {ls : List Literal} (h : bracketUnion position ls = some n) :
    Bracketed position n ∧ ∀ k, sidCount k n = 0 := by
  have hfold : ∀ (ls : List Literal) (node : Option Ast),
      (∀ m ∈ node, Bracketed position m ∧ ∀ k, sidCount k m = 0) →
      ∀ m ∈ ls.foldl (fun node lit =>
        let n : Ast := .literal none (.char position lit)
        some (node.elim n fun node => .union none node n)) node,
      Bracketed position m ∧ ∀ k, sidCount k m = 0 := by
    intro ls
    induction ls with
    | nil => exact fun node hnode => hnode
    | cons lit ls ih =>
      intro node hnode
      refine ih _ fun m hm => ?_
      obtain rfl := Option.some_inj.mp hm
      cases node with
      | none => exact ⟨rfl, fun _ => rfl⟩
      | some node =>
        obtain ⟨hone, hsid⟩ := hnode node rfl
        exact ⟨⟨hone, rfl⟩, fun k => by simp [sidCount, hsid k]⟩
  exact hfold ls none (by simp) n h

theorem parseBracket_facts (h : parseBracket loc cflags position s = some (.ok (n, rest))) :
    (Bracketed position n ∧ ∀ k, sidCount k n = 0) ∧ rest.length ≤ s.length := by
  rw [parseBracket] at h
  split at h
  · cases h
  · cases h
  · next terms rest' hterms =>
    have hlen := length_parseBracketTerms hterms
    split at h
    · cases h
    · obtain ⟨node, hnode, hrest⟩ := Option.map_eq_some_iff.mp h
      cases hrest
      refine ⟨bracketUnion_facts hnode, hlen.le.trans ?_⟩
      split
      · rw [List.length_drop]
        exact Nat.sub_le _ _
      · exact Nat.le_refl _

theorem parseLiteral_facts (hloc : loc.Reads) (h : parseLiteral loc cflags position mb s = .ok a)
    (hs : s ≠ []) : AtomNode position mb a.n a.position a.maxBackref ∧ a.s.length < s.length := by
  rw [parseLiteral] at h
  split at h
  · cases h
  · next wc len hwide =>
    cases h
    constructor
    · refine atomNode_bracketed ?_ ?_
      · dsimp only
        split
        · exact ⟨rfl, rfl⟩
        · exact rfl
      · dsimp only
        split
        · exact fun _ => rfl
        · exact fun _ => rfl
    · cases s with
      | nil => exact absurd rfl hs
      | cons c s =>
        have hlen := hloc c s wc len hwide
        rw [List.length_drop, List.length_cons]
        omega

theorem length_hexDigits {len v : ℕ} : (hexDigits len v s).2.length ≤ s.length := by
  induction len generalizing v s with
  | zero => exact Nat.le_refl _
  | succ len ih =>
    cases s with
    | nil => exact Nat.le_refl _
    | cons c s =>
      rw [hexDigits]
      split
      · exact Nat.le_refl _
      · split
        · exact Nat.le_refl _
        · exact ih.trans (Nat.le_succ _)

theorem length_parseHex {p : ℕ × Str} (h : parseHex s = .ok p) : p.2.length ≤ s.length := by
  rw [parseHex] at h
  split at h
  · simp only at h
    split at h
    · cases h
      have hlen : (hexDigits 8 0 (s.drop 1)).2.length ≤ (s.drop 1).length := length_hexDigits
      rw [List.length_drop] at hlen ⊢
      omega
    · cases h
  · cases h
    exact length_hexDigits

/-- An atom behind a `\` takes at least one more byte, or is the empty one in front of `\|`. -/
theorem parseEscape_facts (hloc : loc.Reads) (h : parseEscape loc cflags position mb s = .ok a) :
    AtomNode position mb a.n a.position a.maxBackref ∧
      (a.s.length < s.length ∨ a.s = backslash :: s ∧ alternates cflags a.s = true) := by
  cases s with
  | nil => cases h
  | cons c q =>
    rw [parseEscape] at h
    split at h
    · cases h
      exact ⟨atomNode_assertion, .inl (Nat.lt_succ_self _)⟩
    split at h
    · cases h
      exact ⟨atomNode_assertion, .inl (Nat.lt_succ_self _)⟩
    split at h
    · cases h
      exact ⟨atomNode_assertion, .inl (Nat.lt_succ_self _)⟩
    split at h
    · cases h
      exact ⟨atomNode_assertion, .inl (Nat.lt_succ_self _)⟩
    split at h
    · cases hhex : parseHex q with
      | error e =>
        rw [hhex] at h
        cases h
      | ok p =>
        rw [hhex] at h
        cases h
        exact ⟨atomNode_bracketed rfl fun _ => rfl,
          .inl (Nat.lt_succ_of_le (length_parseHex hhex))⟩
    split at h
    · cases h
    split at h
    · next hbar =>
      cases h
      refine ⟨atomNode_empty, .inr ⟨rfl, ?_⟩⟩
      have hbre : isEre cflags = false := by simpa using hbar.2
      simp [alternates, hbre, hbar.1]
    split at h
    · next hdigit =>
      cases h
      refine ⟨⟨⟨Nat.le_succ _, fun p hp => ?_⟩, ⟨?_, _, rfl, ?_⟩, ?_, fun _ => rfl⟩,
        .inl (Nat.lt_succ_self _)⟩
      · obtain rfl := List.mem_singleton.mp hp
        exact ⟨Nat.le_refl _, Nat.lt_succ_self _⟩
      · have hc : (byte '1').toNat ≤ c.toNat := UInt8.le_iff_toNat_le.mp hdigit.2.1
        have h1 : (byte '1').toNat = 0x31 := by decide
        omega
      · cases mb with
        | none => exact Nat.le_refl _
        | some m => exact Nat.le_max_left _ _
      · intro m hm
        cases mb with
        | none => cases hm
        | some m' =>
          obtain rfl := Option.some_inj.mp hm
          exact ⟨_, rfl, Nat.le_max_right _ _⟩
    · have hlit := parseLiteral_facts hloc h (List.cons_ne_nil c q)
      exact ⟨hlit.1, .inl hlit.2⟩

/-- An atom takes at least one byte, or is the empty one at the end of a branch. -/
theorem parseAtomWith_facts (hloc : loc.Reads) {expand : Str → Option (Except RegError Atom)}
    (hexpand : ∀ p a, expand p = some (.ok a) → AtomNode position mb a.n a.position a.maxBackref)
    (h : parseAtomWith loc cflags expand atStart position mb s = some (.ok a)) :
    AtomNode position mb a.n a.position a.maxBackref ∧
      (a.s.length < s.length ∨ a.s = s ∧ (s = [] ∨ alternates cflags s = true)) := by
  cases s with
  | nil =>
    cases h
    exact ⟨atomNode_empty, .inr ⟨rfl, .inl rfl⟩⟩
  | cons c q =>
    rw [parseAtomWith] at h
    split at h
    · obtain ⟨r, hr, hra⟩ := Option.map_eq_some_iff.mp h
      cases r with
      | error e => cases hra
      | ok p =>
        cases hra
        obtain ⟨⟨hone, hsid⟩, hlen⟩ := parseBracket_facts hr
        exact ⟨atomNode_bracketed hone hsid, .inl (Nat.lt_succ_of_le hlen)⟩
    split at h
    · next hback =>
      split at h
      · obtain ⟨r, hr, hra⟩ := Option.map_eq_some_iff.mp h
        cases r with
        | error e => cases hra
        | ok a =>
          cases hra
          refine ⟨hexpand _ a hr, .inl ?_⟩
          simp only [List.length_drop, List.length_cons]
          omega
      · obtain ⟨hnode, hlen | ⟨heq, halt⟩⟩ := parseEscape_facts hloc (Option.some_inj.mp h)
        · exact ⟨hnode, .inl (hlen.trans (Nat.lt_succ_self _))⟩
        · rw [hback, ← heq]
          exact ⟨hnode, .inr ⟨rfl, .inr halt⟩⟩
    split at h
    · cases h
      refine ⟨?_, .inl ?_⟩
      · split
        · exact ⟨.inr ⟨position + 1, Bracketed.placed rfl, Bracketed.placed rfl⟩, ⟨trivial, trivial⟩,
            fun m hm => ⟨m, hm, Nat.le_refl m⟩, fun _ => rfl⟩
        · exact atomNode_bracketed rfl fun _ => rfl
      · split <;> exact Nat.lt_succ_self _
    split at h
    · cases h
      exact ⟨atomNode_assertion, .inl (Nat.lt_succ_self _)⟩
    split at h
    · cases h
      exact ⟨atomNode_assertion, .inl (Nat.lt_succ_self _)⟩
    split at h
    · cases h
    split at h
    · next hbar =>
      cases h
      refine ⟨atomNode_empty, .inr ⟨rfl, .inr ?_⟩⟩
      simp [alternates, hbar.1, hbar.2]
    · have hlit := parseLiteral_facts hloc (Option.some_inj.mp h) (List.cons_ne_nil c q)
      exact ⟨hlit.1, .inl hlit.2⟩

theorem parseAtom_facts (hloc : loc.Reads)
    (h : parseAtom loc cflags atStart position mb s = some (.ok a)) :
    AtomNode position mb a.n a.position a.maxBackref ∧
      (a.s.length < s.length ∨ a.s = s ∧ (s = [] ∨ alternates cflags s = true)) := by
  refine parseAtomWith_facts hloc (fun p a ha => ?_) h
  exact (parseAtomWith_facts hloc (fun p a ha => by cases ha) ha).1

end

/-! ## Repetitions -/

section

variable {cflags : BitVec 32} {s rest start : Str} {min lo hi k fuel : ℕ} {max mb : Option ℕ}
  {ere : Bool} {n n' : Ast}

theorem length_dupDigits {v : ℕ} : (dupDigits v s).2.length ≤ s.length := by
  induction s generalizing v with
  | nil => exact Nat.le_refl _
  | cons c s ih =>
    rw [dupDigits]
    split
    · exact ih.trans (Nat.le_succ _)
    · exact Nat.le_refl _

theorem length_parseDupCount : (parseDupCount s).2.length ≤ s.length := by
  rw [parseDupCount]
  split
  · exact length_dupDigits
  · exact Nat.le_refl _

/-- Bounds that `parse_dup` lets pass. -/
def InDup (min : ℕ) (max : Option ℕ) : Prop :=
  min ≤ reDupMax ∧ ∀ m ∈ max, min ≤ m ∧ m ≤ reDupMax

theorem parseDup_facts (h : parseDup ere s = some (min, max, rest)) :
    InDup min max ∧ rest.length ≤ s.length := by
  rw [parseDup] at h
  simp only at h
  have hq : (if (parseDupCount s).2.head? = some comma then parseDupCount ((parseDupCount s).2.drop 1)
      else parseDupCount s).2.length ≤ s.length := by
    have h₁ := length_parseDupCount (s := s)
    have h₂ := length_parseDupCount (s := (parseDupCount s).2.drop 1)
    rw [List.length_drop] at h₂
    split <;> omega
  generalize (if (parseDupCount s).2.head? = some comma then parseDupCount ((parseDupCount s).2.drop 1)
    else parseDupCount s) = q at h hq
  cases hmin : (parseDupCount s).1 with
  | none =>
    rw [hmin] at h
    cases h
  | some min' =>
    simp only [hmin] at h
    have hs : (if ere = true then q.2 else q.2.drop 1).length ≤ s.length := by
      split
      · exact hq
      · rw [List.length_drop]
        omega
    generalize (if ere = true then q.2 else q.2.drop 1) = s' at h hs
    split at h
    · cases h
    · next hok =>
      cases h
      simp only [not_or, not_exists, not_and] at hok
      obtain ⟨hmax, hle, -⟩ := hok
      refine ⟨⟨Nat.not_lt.mp hle, fun m hm => ?_⟩, ?_⟩
      · have hm := hmax m hm
        omega
      · rw [List.length_drop]
        omega

theorem parseRepetition_facts (h : parseRepetition cflags s = .ok (min, max, rest)) (hs : s ≠ []) :
    InDup min max ∧ rest.length < s.length := by
  have hpos : 0 < s.length := List.length_pos_of_ne_nil hs
  rw [parseRepetition] at h
  split at h
  · split at h
    · cases h
    · next r hr =>
      cases h
      obtain ⟨hdup, hlen⟩ := parseDup_facts hr
      rw [List.length_drop] at hlen
      exact ⟨hdup, by omega⟩
  · cases h
    refine ⟨⟨?_, fun m hm => ?_⟩, ?_⟩
    · split <;> decide
    · split at hm
      · next hq =>
        obtain rfl := Option.some_inj.mp hm
        refine ⟨?_, by decide⟩
        split <;> decide
      · cases hm
    · rw [List.length_drop]
      omega

theorem isRepetition_ne_nil (h : isRepetition cflags start s = true) :
    (if s.head? = some backslash then s.drop 1 else s) ≠ [] := by
  cases s with
  | nil => simp [isRepetition] at h
  | cons c q =>
    split
    · next hc =>
      cases q with
      | nil =>
        obtain rfl : c = backslash := Option.some_inj.mp hc
        simp [isRepetition, backslash, Glob.star, plus, Glob.question, braceOpen] at h
      | cons d q => exact List.cons_ne_nil d q
    · exact List.cons_ne_nil c q

/-- Whatever follows an atom makes a node of the same kind. -/
theorem parseIter_facts (h : parseIter cflags start fuel n s = some (.ok (n', rest)))
    (hplaced : Placed n lo hi) (hwell : WellParsed mb n) :
    (Placed n' lo hi ∧ WellParsed mb n' ∧ (∀ k, sidCount k n' ≤ sidCount k n) ∧
      ∀ sid, Numbered n sid → Numbered n' sid) ∧ rest.length ≤ s.length := by
  induction fuel generalizing n s with
  | zero => cases h
  | succ fuel ih =>
    rw [parseIter] at h
    split at h
    · next hrep =>
      split at h
      · cases h
      · next min max rest' hr =>
        obtain ⟨⟨hmin, hmax⟩, hlen⟩ := parseRepetition_facts hr (isRepetition_ne_nil hrep)
        have hnode : Placed (repetitionNode n min max) lo hi ∧
            WellParsed mb (repetitionNode n min max) ∧
            (∀ k, sidCount k (repetitionNode n min max) ≤ sidCount k n) ∧
            ∀ sid, Numbered n sid → Numbered (repetitionNode n min max) sid := by
          rw [repetitionNode]
          split
          · exact ⟨⟨hplaced.le, fun _ hp => absurd hp List.not_mem_nil⟩, trivial,
              fun _ => Nat.zero_le _, fun _ _ k hk => by cases hk⟩
          · next hzero =>
            refine ⟨hplaced, ⟨hwell, hmin, fun m hm => ?_⟩, fun k => by simp [sidCount],
              fun _ hnum => ⟨fun k hk => (by cases hk), hnum⟩⟩
            have hm' := hmax m hm
            have hne : m ≠ 0 := by
              rintro rfl
              exact hzero hm
            exact ⟨hm'.1, Nat.one_le_iff_ne_zero.mpr hne, hm'.2⟩
        obtain ⟨⟨hp, hw, hs, hnum⟩, hle⟩ := ih h hnode.1 hnode.2.1
        refine ⟨⟨hp, hw, fun k => (hs k).trans (hnode.2.2.1 k),
          fun sid hn => hnum sid (hnode.2.2.2 sid hn)⟩, hle.trans (hlen.le.trans ?_)⟩
        split
        · rw [List.length_drop]
          exact Nat.sub_le _ _
        · exact Nat.le_refl _
    · cases h
      exact ⟨⟨hplaced, hwell, fun _ => Nat.le_refl _, fun _ hn => hn⟩, Nat.le_refl _⟩

/-- If there is a repetition something is read. -/
theorem parseIter_rest (h : parseIter cflags start fuel n s = some (.ok (n', rest))) :
    rest = s ∨ rest.length < s.length := by
  induction fuel generalizing n s with
  | zero => cases h
  | succ fuel ih =>
    rw [parseIter] at h
    split at h
    · next hrep =>
      split at h
      · cases h
      · next min max rest' hr =>
        have hlen := (parseRepetition_facts hr (isRepetition_ne_nil hrep)).2
        have hdrop : (if s.head? = some backslash then s.drop 1 else s).length ≤ s.length := by
          split
          · rw [List.length_drop]
            exact Nat.sub_le _ _
          · exact Nat.le_refl _
        rcases ih h with rfl | hlt
        · exact .inr (hlen.trans_le hdrop)
        · exact .inr (hlt.trans (hlen.trans_le hdrop))
    · cases h
      exact .inl rfl

/-- With more rounds than bytes the loop comes to its end. -/
theorem parseIter_isSome (h : s.length < fuel) : (parseIter cflags start fuel n s).isSome = true := by
  induction fuel generalizing n s with
  | zero => exact absurd h (Nat.not_lt_zero _)
  | succ fuel ih =>
    rw [parseIter]
    split
    · next hrep =>
      split
      · rfl
      · next min max rest hr =>
        have hlen := (parseRepetition_facts hr (isRepetition_ne_nil hrep)).2
        refine ih (Nat.lt_of_lt_of_le hlen ?_)
        split
        · rw [List.length_drop]
          omega
        · omega
    · rfl

end

/-! ## What is under way -/

/-- A part of the tree that may not be there yet has this interval. -/
def PlacedOpt (node : Option Ast) (lo hi : ℕ) : Prop := node.elim (lo ≤ hi) (Placed · lo hi)

/-- What is on the stack has its intervals in front of `hi`. -/
def Stacked : List Frame → ℕ → Prop
  | [], hi => hi = 0
  | f :: outer, hi => ∃ lo mid, Stacked outer lo ∧ PlacedOpt f.nunion lo mid ∧ PlacedOpt f.nbranch mid hi

/-- How often a number is in a part of the tree that may not be there yet. -/
def countOpt (k : ℕ) (node : Option Ast) : ℕ := node.elim 0 (sidCount k)

/-- How often a number is on the stack. -/
def frameCount (k : ℕ) : List Frame → ℕ
  | [] => 0
  | f :: outer =>
    countOpt k f.nunion + countOpt k f.nbranch + (if f.sid = k then 1 else 0) + frameCount k outer

/-- The numbers of the subexpressions that are open are greater than those around them, and smaller than
those in them. -/
def Framed : List Frame → ℕ → Prop
  | [], sid => sid = 0
  | f :: outer, sid => f.sid < sid ∧ (∀ a ∈ f.nbranch, Numbered a (f.sid + 1)) ∧
    (∀ a ∈ f.nunion, Numbered a (f.sid + 1)) ∧ Framed outer f.sid

/-- What holds in each round, with the atom that has been read if there is one. -/
structure Parsing.Under (n : Option Ast) (p : Parsing) : Prop where
  placed : ∃ lo mid m, Stacked p.outer lo ∧ PlacedOpt p.nunion lo mid ∧ PlacedOpt p.nbranch mid m ∧
    PlacedOpt n m p.position
  wellParsed : (∀ a ∈ n, WellParsed p.maxBackref a) ∧ (∀ a ∈ p.nbranch, WellParsed p.maxBackref a) ∧
    (∀ a ∈ p.nunion, WellParsed p.maxBackref a) ∧
    ∀ f ∈ p.outer, (∀ a ∈ f.nunion, WellParsed p.maxBackref a) ∧
      ∀ a ∈ f.nbranch, WellParsed p.maxBackref a
  sids : ∀ k, countOpt k n + countOpt k p.nbranch + countOpt k p.nunion +
    (if p.sid = k then 1 else 0) + frameCount k p.outer ≤ if k < p.subid then 1 else 0
  numbered : (∀ a ∈ n, Numbered a (p.sid + 1)) ∧ (∀ a ∈ p.nbranch, Numbered a (p.sid + 1)) ∧
    (∀ a ∈ p.nunion, Numbered a (p.sid + 1)) ∧ p.sid < p.subid ∧ Framed p.outer p.sid

/-- A tree as `tre_parse` makes it. -/
structure Parsing.Parsed (n : Ast) (p : Parsing) : Prop where
  placed : Placed n 0 p.position
  wellParsed : WellParsed p.maxBackref n
  sids : ∀ k, sidCount k n ≤ if k < p.subid then 1 else 0
  root : n.sid = some 0
  numbered : Numbered n 0

/-- What holds when a round is over. -/
def Round.Fine : Round → Prop
  | .atom p => p.Under none
  | .iter n p => p.Under (some n)
  | .done n p => p.Parsed n
  | .error _ => True

section

variable {loc : Locale} {cflags : BitVec 32} {lo mid hi hi' k fuel : ℕ} {left : Option Ast}
  {right n : Ast} {p p' : Parsing} {mb : Option ℕ}

theorem PlacedOpt.mono (h : PlacedOpt left lo hi) (hhi : hi ≤ hi') : PlacedOpt left lo hi' := by
  cases left with
  | none => exact Nat.le_trans h hhi
  | some a => exact Placed.mono h (Nat.le_refl _) hhi

theorem PlacedOpt.le (h : PlacedOpt left lo hi) : lo ≤ hi := by
  cases left with
  | none => exact h
  | some a => exact Placed.le h

theorem placed_newCatenation (hl : PlacedOpt left lo mid) (hr : Placed right mid hi) :
    Placed (newCatenation left right) lo hi := by
  cases left with
  | none => exact hr.mono hl (Nat.le_refl _)
  | some a => exact ⟨mid, hl, hr⟩

theorem placed_newUnion (hl : PlacedOpt left lo mid) (hr : Placed right mid hi) :
    Placed (newUnion left right) lo hi := by
  cases left with
  | none => exact hr.mono hl (Nat.le_refl _)
  | some a => exact .inr ⟨mid, hl, hr⟩

theorem wellParsed_newCatenation (hl : ∀ a ∈ left, WellParsed mb a) (hr : WellParsed mb right) :
    WellParsed mb (newCatenation left right) := by
  cases left with
  | none => exact hr
  | some a => exact ⟨hl a rfl, hr⟩

theorem wellParsed_newUnion (hl : ∀ a ∈ left, WellParsed mb a) (hr : WellParsed mb right) :
    WellParsed mb (newUnion left right) := by
  cases left with
  | none => exact hr
  | some a => exact ⟨hl a rfl, hr⟩

theorem numbered_newCatenation {sid : ℕ} (hl : ∀ a ∈ left, Numbered a sid) (hr : Numbered right sid) :
    Numbered (newCatenation left right) sid := by
  cases left with
  | none => exact hr
  | some a => exact ⟨fun k hk => (by cases hk), hl a rfl, hr⟩

theorem numbered_newUnion {sid : ℕ} (hl : ∀ a ∈ left, Numbered a sid) (hr : Numbered right sid) :
    Numbered (newUnion left right) sid := by
  cases left with
  | none => exact hr
  | some a => exact ⟨fun k hk => (by cases hk), hl a rfl, hr⟩

theorem sidCount_newCatenation :
    sidCount k (newCatenation left right) = countOpt k left + sidCount k right := by
  cases left <;> simp [newCatenation, countOpt, sidCount]

theorem sidCount_newUnion :
    sidCount k (newUnion left right) = countOpt k left + sidCount k right := by
  cases left <;> simp [newUnion, countOpt, sidCount]

/-- A subexpression is opened. -/
theorem under_open (h : p.Under none) {s : Str} :
    Parsing.Under none
      { p with
        s := s
        start := s
        nunion := none
        nbranch := none
        outer := ⟨p.nunion, p.nbranch, p.sid⟩ :: p.outer
        sid := p.subid
        subid := p.subid + 1 } := by
  obtain ⟨lo, mid, m, houter, hunion, hbranch, hm⟩ := h.placed
  refine ⟨⟨p.position, p.position, p.position, ⟨lo, mid, houter, hunion, hbranch.mono hm⟩,
    Nat.le_refl _, Nat.le_refl _, Nat.le_refl _⟩, ⟨by simp, by simp, by simp, fun f hf => ?_⟩,
    fun k => ?_, by simp, by simp, by simp, Nat.lt_succ_self _, h.numbered.2.2.2.1,
    h.numbered.2.1, h.numbered.2.2.1, h.numbered.2.2.2.2⟩
  · rcases List.mem_cons.mp hf with rfl | hf
    · exact ⟨h.wellParsed.2.2.1, h.wellParsed.2.1⟩
    · exact h.wellParsed.2.2.2 f hf
  · have hk := h.sids k
    simp only [countOpt, frameCount, Option.elim_none] at hk ⊢
    by_cases hlt : k < p.subid
    · rw [if_pos hlt] at hk
      rw [if_pos (Nat.lt_succ_of_lt hlt), if_neg (Nat.ne_of_gt hlt)]
      omega
    · rw [if_neg hlt] at hk
      by_cases heq : p.subid = k
      · have hlast : k < p.subid + 1 := by omega
        rw [if_pos heq, if_pos hlast]
        omega
      · rw [if_neg heq]
        omega

/-- An atom has been read. -/
theorem under_atom (h : p.Under none) {s : Str} {position : ℕ}
    (hn : AtomNode p.position p.maxBackref n position mb) :
    Parsing.Under (some n) { p with s := s, position := position, maxBackref := mb } := by
  obtain ⟨lo, mid, m, houter, hunion, hbranch, hm⟩ := h.placed
  refine ⟨⟨lo, mid, p.position, houter, hunion, hbranch.mono hm, hn.placed⟩,
    ⟨fun a ha => ?_, fun a ha => ?_, fun a ha => ?_, fun f hf => ⟨fun a ha => ?_, fun a ha => ?_⟩⟩,
    fun k => ?_, fun a ha => ?_, h.numbered.2⟩
  · obtain rfl := Option.some_inj.mp ha
    exact hn.wellParsed
  · exact (h.wellParsed.2.1 a ha).mono hn.mono
  · exact (h.wellParsed.2.2.1 a ha).mono hn.mono
  · exact ((h.wellParsed.2.2.2 f hf).1 a ha).mono hn.mono
  · exact ((h.wellParsed.2.2.2 f hf).2 a ha).mono hn.mono
  · have hk := h.sids k
    simp only [countOpt, Option.elim_none, Option.elim_some, hn.noSid] at hk ⊢
    omega
  · obtain rfl := Option.some_inj.mp ha
    exact numbered_of_sidCount hn.noSid

/-- The repetitions behind an atom have been read. -/
theorem under_iter (h : p.Under (some n)) {s rest : Str} {n' : Ast}
    (hn : parseIter cflags p.start fuel n s = some (.ok (n', rest))) :
    Parsing.Under (some n') { p with s := rest } := by
  obtain ⟨lo, mid, m, houter, hunion, hbranch, hm⟩ := h.placed
  obtain ⟨⟨hplaced, hwell, hsids, hnum⟩, -⟩ := parseIter_facts hn hm (h.wellParsed.1 n rfl)
  refine ⟨⟨lo, mid, m, houter, hunion, hbranch, hplaced⟩, ⟨fun a ha => ?_, h.wellParsed.2⟩,
    fun k => ?_, fun a ha => ?_, h.numbered.2⟩
  · obtain rfl := Option.some_inj.mp ha
    exact hwell
  · have hk := h.sids k
    have hk' := hsids k
    simp only [countOpt, Option.elim_some] at hk ⊢
    omega
  · obtain rfl := Option.some_inj.mp ha
    exact hnum _ (h.numbered.1 n rfl)

/-- **What one round keeps.** -/
theorem fine_endAtom (h : p.Under (some n)) : (endAtom cflags n p).Fine := by
  obtain ⟨lo, mid, m, houter, hunion, hbranch, hm⟩ := h.placed
  have hplaced : Placed (newCatenation p.nbranch n) mid p.position := placed_newCatenation hbranch hm
  have hwell : WellParsed p.maxBackref (newCatenation p.nbranch n) :=
    wellParsed_newCatenation h.wellParsed.2.1 (h.wellParsed.1 n rfl)
  have hnum : Numbered (newCatenation p.nbranch n) (p.sid + 1) :=
    numbered_newCatenation h.numbered.2.1 (h.numbered.1 n rfl)
  rw [endAtom]
  simp only
  split
  · refine ⟨⟨lo, p.position, p.position, houter, placed_newUnion hunion hplaced, Nat.le_refl _,
      Nat.le_refl _⟩, ⟨by simp, by simp, fun a ha => ?_, h.wellParsed.2.2.2⟩, fun k => ?_,
      by simp, by simp, fun a ha => ?_, h.numbered.2.2.2⟩
    · obtain rfl := Option.some_inj.mp ha
      exact wellParsed_newUnion h.wellParsed.2.2.1 hwell
    · have hk := h.sids k
      simp only [countOpt, Option.elim_none, Option.elim_some, sidCount_newUnion,
        sidCount_newCatenation] at hk ⊢
      omega
    · obtain rfl := Option.some_inj.mp ha
      exact numbered_newUnion h.numbered.2.2.1 hnum
  · split
    · have hnode : Placed (marksub (newUnion p.nunion (newCatenation p.nbranch n)) p.sid) lo
          p.position := placed_marksub (placed_newUnion hunion hplaced)
      have hnode' : WellParsed p.maxBackref
          (marksub (newUnion p.nunion (newCatenation p.nbranch n)) p.sid) :=
        wellParsed_marksub (wellParsed_newUnion h.wellParsed.2.2.1 hwell)
      have hmark := fun lo => @numbered_marksub _ lo p.sid (numbered_newUnion h.numbered.2.2.1 hnum)
      cases hframe : p.outer with
      | nil =>
        simp only
        split
        · rw [hframe] at houter
          obtain rfl : lo = 0 := houter
          have hsid : p.sid = 0 := by
            have hframed := h.numbered.2.2.2.2
            rwa [hframe] at hframed
          refine ⟨hnode, hnode', fun k => ?_, ?_, (hmark 0 (Nat.zero_le _)).1⟩
          · have hk := h.sids k
            simp only [countOpt, Option.elim_some, sidCount_marksub, sidCount_newUnion,
              sidCount_newCatenation] at hk ⊢
            omega
          · rw [← hsid]
            exact (hmark 0 (Nat.zero_le _)).2
        · trivial
      | cons f outer =>
        simp only
        split
        · trivial
        · rw [hframe] at houter
          obtain ⟨lo', mid', houter', hunion', hbranch'⟩ := houter
          have hf := h.wellParsed.2.2.2 f (hframe ▸ List.mem_cons_self)
          have hframed := h.numbered.2.2.2.2
          rw [hframe] at hframed
          obtain ⟨hlt, hfbranch, hfunion, hfouter⟩ := hframed
          refine ⟨⟨lo', mid', lo, houter', hunion', hbranch', hnode⟩, ⟨fun a ha => ?_, hf.2, hf.1,
            fun g hg => h.wellParsed.2.2.2 g (hframe ▸ List.mem_cons_of_mem _ hg)⟩, fun k => ?_,
            fun a ha => ?_, hfbranch, hfunion, hlt.trans h.numbered.2.2.2.1, hfouter⟩
          · obtain rfl := Option.some_inj.mp ha
            exact hnode'
          · have hk := h.sids k
            rw [hframe] at hk
            simp only [countOpt, Option.elim_some, sidCount_marksub, sidCount_newUnion,
              sidCount_newCatenation, frameCount] at hk ⊢
            omega
          · obtain rfl := Option.some_inj.mp ha
            exact (hmark (f.sid + 1) hlt).1
    · refine ⟨⟨lo, mid, p.position, houter, hunion, hplaced, Nat.le_refl _⟩,
        ⟨by simp, fun a ha => ?_, h.wellParsed.2.2⟩, fun k => ?_, by simp, fun a ha => ?_,
        h.numbered.2.2⟩
      · obtain rfl := Option.some_inj.mp ha
        exact hwell
      · have hk := h.sids k
        simp only [countOpt, Option.elim_none, Option.elim_some, sidCount_newCatenation] at hk ⊢
        omega
      · obtain rfl := Option.some_inj.mp ha
        exact hnum

/-- What holds of the tree that comes out, if it holds at the start. -/
theorem parsed_parseFrom (hloc : loc.Reads) {node : Option Ast} (hp : p.Under node)
    (h : parseFrom loc cflags fuel node p = some (.ok (n, p'))) : p'.Parsed n := by
  induction fuel generalizing node p with
  | zero => cases h
  | succ fuel ih =>
    cases node with
    | none =>
      rw [parseFrom] at h
      split at h
      · exact ih (under_open hp) h
      · split at h
        · exact ih (under_atom (s := p.s) hp atomNode_empty) h
        · split at h
          · cases h
          · cases h
          · next a ha => exact ih (under_atom hp (parseAtom_facts hloc ha).1) h
    | some node =>
      rw [parseFrom] at h
      split at h
      · cases h
      · cases h
      · next n' s hiter =>
        have hfine : (endAtom cflags n' { p with s := s }).Fine := fine_endAtom (under_iter hp hiter)
        split at h
        · next hround =>
          rw [hround] at hfine
          exact ih hfine h
        · next hround =>
          rw [hround] at hfine
          exact ih hfine h
        · next hround =>
          rw [hround] at hfine
          cases h
          exact hfine
        · cases h

/-! ## The end -/

theorem parseAtomWith_isSome (hloc : loc.ReadsWide) {expand : Str → Option (Except RegError Atom)}
    {atStart : Bool} {position : ℕ} {s : Str}
    (hexpand : ∀ q x, s.head? = some backslash → treExpandMacro q = some x →
      (expand x).isSome = true) :
    (parseAtomWith loc cflags expand atStart position mb s).isSome = true := by
  cases s with
  | nil => rfl
  | cons c q =>
    rw [parseAtomWith]
    split
    · rw [Option.isSome_map]
      exact parseBracket_isSome hloc
    split
    · next hc =>
      split
      · next x hx =>
        rw [Option.isSome_map]
        exact hexpand q x (congrArg some hc) hx
      · rfl
    split
    · rfl
    split
    · rfl
    split
    · rfl
    split
    · rfl
    split
    · rfl
    · rfl

/-- There is always a result, as no macro is a macro again. -/
theorem parseAtom_isSome (hloc : loc.ReadsWide) {atStart : Bool} {position : ℕ} {s : Str} :
    (parseAtom loc cflags atStart position mb s).isSome = true := by
  refine parseAtomWith_isSome hloc fun q x _ hx => parseAtomWith_isSome hloc fun _ _ hback _ => ?_
  have hmacros : ∀ m ∈ treMacros, m.2.head? ≠ some backslash := by decide
  obtain ⟨c, -, hc⟩ := Option.bind_eq_some_iff.mp hx
  obtain ⟨m, hm, rfl⟩ := Option.map_eq_some_iff.mp hc
  exact absurd hback (hmacros m (List.mem_of_find?_eq_some hm))

/-- At the end of a branch or of a subexpression at least one byte is read; otherwise the next round
reads an atom at the same place. -/
theorem length_endAtom :
    (∀ p', endAtom cflags n p = .atom p' → p'.s.length < p.s.length ∨
      p'.s = p.s ∧ alternates cflags p.s = false ∧ p.s ≠ [] ∧
        closes cflags p.outer.length p.s = false) ∧
      ∀ n' p', endAtom cflags n p = .iter n' p' → p'.s.length < p.s.length := by
  have hmark : 0 < markLength cflags := by
    rw [markLength]
    split <;> decide
  rw [endAtom]
  simp only
  by_cases halt : alternates cflags p.s = true
  · rw [if_pos halt]
    refine ⟨fun p' h => .inl ?_, fun n' p' h => by cases h⟩
    cases h
    have hne : p.s ≠ [] := by
      intro hnil
      rw [alternates, hnil] at halt
      simp at halt
    have hpos := List.length_pos_of_ne_nil hne
    simp only [List.length_drop]
    omega
  · rw [if_neg halt]
    by_cases hend : closes cflags p.outer.length p.s = true ∨ p.s = []
    · rw [if_pos hend]
      cases p.outer with
      | nil =>
        simp only
        constructor
        · intro p' h
          split at h <;> cases h
        · intro n' p' h
          split at h <;> cases h
      | cons f outer =>
        simp only
        by_cases hnil : p.s = []
        · rw [if_pos hnil]
          exact ⟨fun p' h => (by cases h), fun n' p' h => (by cases h)⟩
        · rw [if_neg hnil]
          refine ⟨fun p' h => (by cases h), fun n' p' h => ?_⟩
          cases h
          have hpos := List.length_pos_of_ne_nil hnil
          simp only [List.length_drop]
          omega
    · rw [if_neg hend]
      refine ⟨fun p' h => .inr ?_, fun n' p' h => by cases h⟩
      cases h
      rw [not_or] at hend
      exact ⟨rfl, Bool.eq_false_iff.mpr halt, hend.2, Bool.eq_false_iff.mpr hend.1⟩

/-- Behind an atom, if the rounds that follow come to an end. -/
theorem parseFrom_iter_isSome
    (hatom : ∀ p' : Parsing, p'.s.length < p.s.length →
      (parseFrom loc cflags fuel none p').isSome = true)
    (hiter : ∀ (n : Ast) (p' : Parsing), p'.s.length < p.s.length →
      (parseFrom loc cflags fuel (some n) p').isSome = true)
    (hsame : ∀ p' : Parsing, p'.s = p.s → alternates cflags p.s = false → p.s ≠ [] →
      closes cflags p.outer.length p.s = false →
      (parseFrom loc cflags fuel none p').isSome = true) :
    (parseFrom loc cflags (fuel + 1) (some n) p).isSome = true := by
  rw [parseFrom]
  split
  · next hnone =>
    have hsome : (parseIter cflags p.start (p.s.length + 1) n p.s).isSome = true :=
      parseIter_isSome (Nat.lt_succ_self p.s.length)
    rw [hnone] at hsome
    cases hsome
  · rfl
  · next n' s hres =>
    have hrest := parseIter_rest hres
    have hle : s.length ≤ p.s.length := by
      rcases hrest with rfl | hlt
      · exact Nat.le_refl _
      · exact hlt.le
    have hlength := @length_endAtom cflags n' { p with s := s }
    obtain ⟨hround, hround'⟩ := hlength
    split
    · next p' heq =>
      rcases hround p' heq with hlt | ⟨hs, halt, hne, hclose⟩
      · exact hatom p' (hlt.trans_le hle)
      · rcases hrest with rfl | hlt
        · exact hsame p' hs halt hne hclose
        · exact hatom p' (hs ▸ hlt)
    · next n'' p' heq => exact hiter n'' p' ((hround' n'' p' heq).trans_le hle)
    · rfl
    · rfl

/-- Three rounds for each byte are enough. -/
theorem parseFrom_isSome (hloc : loc.ReadsWide) (k : ℕ) :
    (∀ (fuel : ℕ) (p : Parsing), p.s.length ≤ k → 3 * k + 2 ≤ fuel →
      (parseFrom loc cflags fuel none p).isSome = true) ∧
    (∀ (fuel : ℕ) (n : Ast) (p : Parsing), p.s.length ≤ k → 3 * k + 3 ≤ fuel →
      (parseFrom loc cflags fuel (some n) p).isSome = true) := by
  induction k using Nat.strong_induction_on with
  | _ k ih =>
    -- the rounds behind at least one more byte
    have hatom : ∀ {fuel} {p p' : Parsing}, p.s.length ≤ k → 3 * k ≤ fuel + 1 →
        p'.s.length < p.s.length → (parseFrom loc cflags fuel none p').isSome = true :=
      fun hk hfuel hlt => (ih _ (hlt.trans_le hk)).1 _ _ (Nat.le_refl _) (by omega)
    have hiter : ∀ {fuel} {p p' : Parsing} {n : Ast}, p.s.length ≤ k → 3 * k ≤ fuel →
        p'.s.length < p.s.length → (parseFrom loc cflags fuel (some n) p').isSome = true :=
      fun hk hfuel hlt => (ih _ (hlt.trans_le hk)).2 _ _ _ (Nat.le_refl _) (by omega)
    have hfirst : ∀ (fuel : ℕ) (p : Parsing), p.s.length ≤ k → 3 * k + 2 ≤ fuel →
        (parseFrom loc cflags fuel none p).isSome = true := by
      intro fuel p hk hfuel
      obtain ⟨fuel, rfl⟩ : ∃ f, fuel = f + 2 := ⟨fuel - 2, by omega⟩
      rw [parseFrom]
      split
      · next hopen =>
        refine hatom hk (by omega) ?_
        have hpos : 0 < p.s.length := by
          refine List.length_pos_of_ne_nil fun hnil => ?_
          rw [opens, hnil] at hopen
          simp at hopen
        have hmark : 0 < markLength cflags := by
          rw [markLength]
          split <;> decide
        simp only [List.length_drop]
        omega
      · split
        · next hclose =>
          refine parseFrom_iter_isSome (fun p' hlt => hatom hk (by omega) hlt)
            (fun n p' hlt => hiter hk (by omega) hlt) fun p' _ _ _ hnot => ?_
          rw [hclose] at hnot
          cases hnot
        · split
          · next hnone =>
            have hsome : (parseAtom loc cflags (p.s.length = p.start.length) p.position
                p.maxBackref p.s).isSome = true :=
              parseAtom_isSome hloc
            rw [hnone] at hsome
            cases hsome
          · rfl
          · next a ha =>
            rcases (parseAtom_facts hloc.reads ha).2 with hlt | ⟨hs, hend⟩
            · exact hiter hk (by omega) hlt
            · rw [hs]
              refine parseFrom_iter_isSome (fun p' hlt => hatom hk (by omega) hlt)
                (fun n p' hlt => hiter hk (by omega) hlt) fun p' _ halt hne _ => ?_
              rcases hend with hnil | halt'
              · exact absurd hnil hne
              · simp only [halt'] at halt
                cases halt
    refine ⟨hfirst, fun fuel n p hk hfuel => ?_⟩
    obtain ⟨fuel, rfl⟩ : ∃ f, fuel = f + 1 := ⟨fuel - 1, by omega⟩
    exact parseFrom_iter_isSome (fun p' hlt => hatom hk (by omega) hlt)
      (fun n p' hlt => hiter hk (by omega) hlt)
      fun p' hs _ _ _ => hfirst fuel p' (hs ▸ hk) (by omega)

end

/-- **The parser comes to an end**, with a tree or with an error. -/
theorem treParse_isSome (loc : Locale) (hloc : loc.ReadsWide) (cflags : BitVec 32) (regex : Str) :
    (treParse loc cflags regex).isSome = true :=
  (parseFrom_isSome hloc regex.length).1 _ _ (Nat.le_refl _) (Nat.le_refl _)

/-- **What the parser makes**: positions from left to right, bounds in order, back references up to
`max_backref`, and every number of a subexpression at most once. -/
theorem parsed_treParse {loc : Locale} (hloc : loc.Reads) {cflags : BitVec 32} {regex : Str} {n : Ast}
    {p : Parsing} (h : treParse loc cflags regex = some (.ok (n, p))) : p.Parsed n := by
  refine parsed_parseFrom hloc ?_ h
  refine ⟨⟨0, 0, 0, rfl, Nat.le_refl _, Nat.le_refl _, Nat.le_refl _⟩,
    ⟨by simp, by simp, by simp, by simp⟩, fun k => ?_, by simp, by simp, by simp, Nat.one_pos, rfl⟩
  simp only [countOpt, frameCount, Option.elim_none]
  rcases Nat.eq_zero_or_pos k with rfl | hk
  · simp
  · rw [if_neg (Nat.ne_of_lt hk), if_neg (by omega)]

/-- **The parser comes to an end with every pattern**, with an error or with a tree as it should be. -/
theorem treParse_parsed (loc : Locale) (hloc : loc.ReadsWide) (cflags : BitVec 32) (regex : Str) :
    (∃ e, treParse loc cflags regex = some (.error e)) ∨
      ∃ n p, treParse loc cflags regex = some (.ok (n, p)) ∧ p.Parsed n := by
  obtain ⟨r, hr⟩ := Option.isSome_iff_exists.mp (treParse_isSome loc hloc cflags regex)
  cases r with
  | error e => exact .inl ⟨e, hr⟩
  | ok r =>
    obtain ⟨n, p⟩ := r
    exact .inr ⟨n, p, hr, parsed_treParse hloc.reads hr⟩

/-- The pattern `([a-c]b)*`. -/
theorem treParse_parsed_group : ∃ n p,
    treParse asciiBytes regExtended [0x28, 0x5b, 0x61, 0x2d, 0x63, 0x5d, 0x62, 0x29, 0x2a] =
      some (.ok (n, p)) ∧ p.Parsed n := by
  refine (treParse_parsed asciiBytes asciiBytes_readsWide regExtended
    [0x28, 0x5b, 0x61, 0x2d, 0x63, 0x5d, 0x62, 0x29, 0x2a]).resolve_left ?_
  rintro ⟨e, he⟩
  have hok : treParse asciiBytes regExtended [0x28, 0x5b, 0x61, 0x2d, 0x63, 0x5d, 0x62, 0x29, 0x2a] =
      some (.ok _) := rfl
  rw [hok] at he
  cases he

end Tre
end UtilWin
