import UtilWin.Library.Run
import UtilWin.Library.Utf16
import UtilWin.Win32u.ConvBuf
import Mathlib.Tactic.SplitIfs

/-!
# Every result of a conversion buffer stays

The blocks of a conversion buffer are the buffer itself and the nodes of its chain.  `Kept` is what
holds between two calls: the chain is in order, every result handed out so far stands at the start of
a block of its own, and the buffer itself holds one only if its flag says so, which is all that a
later call asks.

A call does one of two things to that.  It fills a block that holds no result yet (`Kept.fill`), or
it hangs a new block behind the last one (`Kept.append`) and fills that.  Which path is taken depends
on three thresholds; that each of them leaves room for the terminator is `Kind.Sound`.
-/

namespace UtilWin
namespace ConvBuf

variable {w w₀ : World} {p a : Addr} {b : Block}

/-! ## Memory -/

@[simp] theorem heap_set_self : (w.set a b).heap a = some b := Function.update_self _ _ _

theorem heap_set_of_ne {x : Addr} (h : x ≠ a) : (w.set a b).heap x = w.heap x :=
  Function.update_of_ne h _ _

@[simp] theorem set_set {b' : Block} : (w.set a b).set a b' = w.set a b' := by
  rw [World.set, World.set, World.set, Function.update_idem]

@[simp] theorem mallocs_set : (w.set a b).mallocs = w.mallocs := rfl

@[simp] theorem frees_set : (w.set a b).frees = w.frees := rfl

theorem modify_eq {f : Block → Block} (h : w.heap a = some b) :
    w.modify a f = some (w.set a (f b)) := by
  rw [World.modify, h, Option.map_some]

theorem store_eq {off : ℕ} {bytes : List UInt8} (h : w.heap a = some b)
    (hle : off + bytes.length ≤ b.buf.length) :
    w.store a off bytes = some (w.set a (b.overwrite off bytes)) := by
  rw [World.store, h, Option.bind_some, if_pos hle]

theorem length_buf_overwrite {off : ℕ} {bytes : List UInt8}
    (hle : off + bytes.length ≤ b.buf.length) :
    (b.overwrite off bytes).buf.length = b.buf.length := by
  rw [Block.overwrite, List.length_append, List.length_append, List.length_take, List.length_drop]
  omega

/-- Two writes, the second behind the first. -/
theorem prefix_overwrite_overwrite (x y : List UInt8) :
    x ++ y <+: ((b.overwrite 0 x).overwrite x.length y).buf := by
  simp only [Block.overwrite, List.take_zero, List.nil_append, List.take_left]
  exact List.prefix_append _ _

/-- The links see a block only through its pointer. -/
theorem nextOf_set_of_next {b' : Block} (h : w.heap a = some b) (hnext : b'.next = b.next) :
    (w.set a b').nextOf = w.nextOf := by
  funext x
  rw [World.nextOf, World.nextOf]
  by_cases hx : x = a
  · rw [hx, heap_set_self, h, Option.map_some, Option.map_some, hnext]
  · rw [heap_set_of_ne hx]

/-! ## Room -/

/-- What makes the thresholds of a kind right, for conversions to at most `factor` units for one. -/
structure Kind.Sound {β : Type} (k : Kind β) (factor : ℕ) : Prop where
  unit_pos : 0 < k.unit
  length_bytes : ∀ b, (k.bytes b).length = k.unit
  /-- A string that is not measured fits, with its terminator. -/
  inline : (factor * k.sp + 1) * k.unit ≤ defArrSz
  /-- A node has room for what was measured and a terminator. -/
  node : ∀ n : ℕ, n < 2 ^ 31 - 2 → hdrSize + (n + 1) * k.unit ≤ k.mallocSize n

/-- The sum of `int`s may wrap around; what is allocated then is larger still. -/
theorem w2aKind_sound : w2aKind.Sound 3 where
  unit_pos := Nat.one_pos
  length_bytes _ := rfl
  inline := by decide
  node := by
    intro n hn
    simp only [w2aKind, hdrSize, BitVec.toInt_ofInt, BitVec.toNat_ofInt, Int.bmod]
    split <;> omega

theorem a2wKind_sound : a2wKind.Sound 1 where
  unit_pos := Nat.two_pos
  length_bytes _ := rfl
  inline := by decide
  node := by
    intro n hn
    have hint : (BitVec.ofInt 32 ((n : ℤ) + 2)).toInt = n + 2 := by
      rw [BitVec.toInt_ofInt, Int.bmod]
      split <;> omega
    have htwo : (2 : BitVec 64).toNat = 2 := rfl
    simp only [a2wKind, hint, htwo, hdrSize, BitVec.toNat_add, BitVec.toNat_mul,
      BitVec.toNat_ofInt, BitVec.toNat_ofNat]
    omega

variable {α β : Type} [DecidableEq α] [Zero α] {k : Kind β} {factor : ℕ} {conv : List α → List β}

theorem Kind.Sound.length_flatMap (hk : k.Sound factor) (out : List β) :
    (out.flatMap k.bytes).length = out.length * k.unit := by
  induction out with
  | nil => rw [List.flatMap_nil, List.length_nil, List.length_nil, Nat.zero_mul]
  | cons x out ih =>
    rw [List.flatMap_cons, List.length_append, hk.length_bytes, ih, List.length_cons, Nat.succ_mul,
      Nat.add_comm]

/-- The bytes of a result: the units and a terminator. -/
def Kind.terminated (k : Kind β) (out : List β) : List UInt8 :=
  out.flatMap k.bytes ++ List.replicate k.unit 0

section

omit [DecidableEq α] [Zero α]

theorem callConverter_fits {s : List α} {size : ℕ} (hnil : conv [] = []) (hpos : 0 < size)
    (hle : (conv s).length ≤ size) :
    callConverter conv s size = (((conv s).length : ℤ), conv s) := by
  cases s with
  | nil => rw [hnil]; rfl
  | cons x s =>
    have hne : (x :: s).isEmpty = false := rfl
    simp only [callConverter, hne, Bool.false_eq_true, if_false, if_pos hle,
      if_neg (Nat.ne_of_gt hpos)]

theorem callConverter_zero (s : List α) (hnil : conv [] = []) :
    (callConverter conv s 0).1 = (conv s).length := by
  cases s with
  | nil => rw [hnil]; rfl
  | cons x s => rfl

end

theorem flags_or_used (flags : BitVec 32) : (flags ||| convbufUsed) &&& convbufUsed ≠ 0 := by
  intro h
  have h0 := congrArg (·.getLsbD 0) h
  simp [convbufUsed] at h0

/-- **The end of each path.**  With room for the result and a terminator, both are written, and
nothing else of the memory changes. -/
theorem finish_eq (hk : k.Sound factor) (out : List β) (hb : w.heap a = some b)
    (hroom : (out.length + 1) * k.unit ≤ b.buf.length) :
    ∃ b', finish k a (out.length, out) w = some (some a, w.set a b') ∧ b'.next = b.next ∧
      b'.flags &&& convbufUsed ≠ 0 ∧ b'.buf.length = b.buf.length ∧
      k.terminated out <+: b'.buf := by
  have hlen := hk.length_flatMap out
  have hzero : (List.replicate k.unit (0 : UInt8)).length = k.unit := List.length_replicate
  rw [Nat.succ_mul] at hroom
  have hfits : 0 + (out.flatMap k.bytes).length ≤ b.buf.length := by omega
  have hfits' : out.length * k.unit + (List.replicate k.unit (0 : UInt8)).length ≤
      (b.overwrite 0 (out.flatMap k.bytes)).buf.length := by
    rw [length_buf_overwrite hfits]
    omega
  refine ⟨{ (b.overwrite 0 (out.flatMap k.bytes)).overwrite (out.length * k.unit)
      (List.replicate k.unit 0) with flags := b.flags ||| convbufUsed }, ?_, rfl,
    flags_or_used b.flags, (length_buf_overwrite hfits').trans (length_buf_overwrite hfits), ?_⟩
  · rw [finish, store_eq hb hfits]
    simp only [Option.bind_eq_bind, Option.bind_some]
    rw [if_neg (by omega), Int.toNat_natCast, store_eq heap_set_self hfits', set_set]
    simp only [Option.bind_some]
    rw [modify_eq heap_set_self, set_set]
    rfl
  · show k.terminated out <+: ((b.overwrite 0 (out.flatMap k.bytes)).overwrite _ _).buf
    rw [← hlen]
    exact prefix_overwrite_overwrite _ _

/-! ## The invariant -/

/-- Between two calls on the buffer at `p`: its nodes are `nodes`, oldest first, and the results so
far are `results`.  The world was `w₀` when the buffer was initialised. -/
structure Kept (w₀ : World) (p : Addr) (nodes : List Addr) (results : List (Addr × List UInt8))
    (w : World) : Prop where
  /-- The chain. -/
  links : Linked w.nextOf (some p) (p :: nodes)
  nodup : (p :: nodes).Nodup
  /-- The buffer itself: without the flag it holds no result. -/
  head : ∃ b, w.heap p = some b ∧ b.buf.length = defArrSz ∧
    (b.flags &&& convbufUsed = 0 → p ∉ results.map Prod.fst)
  /-- Each result stands at the start of one of the blocks. -/
  result : ∀ r ∈ results, r.1 ∈ p :: nodes ∧ ∃ b, w.heap r.1 = some b ∧ r.2 <+: b.buf
  /-- No two in the same one. -/
  apart : (results.map Prod.fst).Nodup
  /-- Other blocks are as they were, and the nodes were not there. -/
  frame : ∀ a ∉ p :: nodes, w.heap a = w₀.heap a
  fresh : ∀ a ∈ nodes, w₀.heap a = none
  mallocs : w.mallocs = w₀.mallocs ++ nodes
  frees : w.frees = w₀.frees

variable {nodes : List Addr} {results : List (Addr × List UInt8)}

/-- `convbuf_init` leaves an empty buffer. -/
theorem Kept.of_init (hp : w₀.heap p = some b) (hb : b.buf.length = defArrSz)
    (hinit : convbufInit p w₀ = some w) : Kept w p [] [] w := by
  rw [convbufInit, modify_eq hp] at hinit
  cases hinit
  refine ⟨⟨rfl, none, ?_, rfl⟩, List.nodup_singleton p, ⟨_, heap_set_self, hb, fun _ => ?_⟩, ?_,
    List.nodup_nil, fun _ _ => rfl, ?_, (List.append_nil _).symm, rfl⟩
  · rw [World.nextOf, heap_set_self, Option.map_some]
  · exact List.not_mem_nil
  · intro r hr
    cases hr
  · intro a ha
    cases ha

/-- **Filling a block** that holds no result. -/
theorem Kept.fill (h : Kept w₀ p nodes results w) {bytes : List UInt8} {b' : Block}
    (ha : a ∈ p :: nodes) (hnew : a ∉ results.map Prod.fst) (hb : w.heap a = some b)
    (hnext : b'.next = b.next) (hused : b'.flags &&& convbufUsed ≠ 0)
    (hlen : b'.buf.length = b.buf.length) (hbytes : bytes <+: b'.buf) :
    Kept w₀ p nodes (results ++ [(a, bytes)]) (w.set a b') where
  links := by
    rw [nextOf_set_of_next hb hnext]
    exact h.links
  nodup := h.nodup
  head := by
    obtain ⟨bp, hbp, hsize, hflag⟩ := h.head
    by_cases hpa : p = a
    · subst hpa
      rw [hb] at hbp
      cases hbp
      exact ⟨b', heap_set_self, hlen.trans hsize, fun hz => absurd hz hused⟩
    · refine ⟨bp, by rw [heap_set_of_ne hpa, hbp], hsize, fun hz hmem => ?_⟩
      rw [List.map_append, List.mem_append] at hmem
      rcases hmem with hmem | hmem
      · exact hflag hz hmem
      · exact hpa (List.mem_singleton.mp hmem)
  result := by
    intro r hr
    rcases List.mem_append.mp hr with hr | hr
    · obtain ⟨hmem, br, hbr, hpre⟩ := h.result r hr
      have hne : r.1 ≠ a := fun heq => hnew (heq ▸ List.mem_map_of_mem hr)
      exact ⟨hmem, br, by rw [heap_set_of_ne hne, hbr], hpre⟩
    · rw [List.mem_singleton.mp hr]
      exact ⟨ha, b', heap_set_self, hbytes⟩
  apart := by
    rw [List.map_append, List.nodup_append]
    refine ⟨h.apart, List.nodup_singleton _, fun x hx y hy hxy => ?_⟩
    rw [hxy, List.mem_singleton.mp hy] at hx
    exact hnew hx
  frame := by
    intro x hx
    have hxa : x ≠ a := by
      rintro rfl
      exact hx ha
    rw [heap_set_of_ne hxa, h.frame x hx]
  fresh := h.fresh
  mallocs := h.mallocs
  frees := h.frees

/-- The chain with the new node `n` behind its last block `z`, initialised. -/
def World.hang (w : World) (z : Addr) (bz : Block) (n : Addr) (bn : Block) : World :=
  ((w.malloc (n, bn)).set z { bz with next := some n }).set n { bn with next := none, flags := 0 }

/-- **A new node** behind the last block. -/
theorem Kept.append (h : Kept w₀ p nodes results w) {z n : Addr} {bz : Block} (bn : Block)
    (hz : (p :: nodes).getLast? = some z) (hbz : w.heap z = some bz) (hn : w.heap n = none) :
    Kept w₀ p (nodes ++ [n]) results (w.hang z bz n bn) ∧ n ∉ p :: nodes := by
  have hnew : n ∉ p :: nodes := by
    intro hmem
    obtain ⟨q, hq⟩ := h.links.isSome hmem
    rw [World.nextOf, hn] at hq
    cases hq
  have hzmem : z ∈ p :: nodes := List.mem_of_getLast? hz
  have hzn : z ≠ n := fun heq => hnew (heq ▸ hzmem)
  have hother : ∀ x, x ≠ z → x ≠ n → (w.hang z bz n bn).heap x = w.heap x := by
    intro x hxz hxn
    rw [World.hang, heap_set_of_ne hxn, heap_set_of_ne hxz]
    exact Function.update_of_ne hxn _ _
  have hatz : (w.hang z bz n bn).heap z = some { bz with next := some n } := by
    rw [World.hang, heap_set_of_ne hzn, heap_set_self]
  have hatn : (w.hang z bz n bn).heap n = some { bn with next := none, flags := 0 } :=
    heap_set_self
  -- a block of the chain keeps its flags and its bytes
  have hold : ∀ x ∈ p :: nodes, ∀ b, w.heap x = some b → ∃ b', (w.hang z bz n bn).heap x = some b' ∧
      b'.flags = b.flags ∧ b'.buf = b.buf := by
    intro x hx b hb
    by_cases hxz : x = z
    · subst hxz
      rw [hbz] at hb
      cases hb
      exact ⟨_, hatz, rfl, rfl⟩
    · exact ⟨b, by rw [hother x hxz fun heq => hnew (heq ▸ hx), hb], rfl, rfl⟩
  refine ⟨⟨?_, ?_, ?_, ?_, h.apart, ?_, ?_, ?_, h.frees⟩, hnew⟩
  · refine h.links.snoc h.nodup hz ?_ ?_ fun x hx hxz => ?_
    · rw [World.nextOf, hatz, Option.map_some]
    · rw [World.nextOf, hatn, Option.map_some]
    · rw [World.nextOf, hother x hxz fun heq => hnew (heq ▸ hx), World.nextOf]
  · rw [← List.cons_append, List.nodup_append]
    refine ⟨h.nodup, List.nodup_singleton n, fun x hx y hy hxy => ?_⟩
    rw [hxy, List.mem_singleton.mp hy] at hx
    exact hnew hx
  · obtain ⟨bp, hbp, hsize, hflag⟩ := h.head
    obtain ⟨b', hb', hflags, hbuf⟩ := hold p (List.mem_cons_self ..) bp hbp
    exact ⟨b', hb', by rw [hbuf, hsize], by rwa [hflags]⟩
  · intro r hr
    obtain ⟨hmem, br, hbr, hpre⟩ := h.result r hr
    obtain ⟨b', hb', -, hbuf⟩ := hold r.1 hmem br hbr
    refine ⟨?_, b', hb', by rwa [hbuf]⟩
    rw [← List.cons_append]
    exact List.mem_append_left _ hmem
  · intro x hx
    rw [← List.cons_append, List.mem_append, List.mem_singleton] at hx
    have hx' : x ∉ p :: nodes := fun hmem => hx (Or.inl hmem)
    rw [hother x (fun heq => hx' (heq ▸ hzmem)) fun heq => hx (Or.inr heq), h.frame x hx']
  · intro x hx
    rcases List.mem_append.mp hx with hx | hx
    · exact h.fresh x hx
    · rw [List.mem_singleton.mp hx, ← h.frame n hnew, hn]
  · show w.mallocs ++ [n] = _
    rw [h.mallocs, List.append_assoc]

/-! ## One conversion -/

/-- `malloc` succeeds with a block of the size it was asked for, where there was none. -/
def MallocAnswers (w : World) (malloc : ℕ → Addr × Block) : Prop :=
  ∀ size, hdrSize ≤ size →
    w.heap (malloc size).1 = none ∧ hdrSize + (malloc size).2.buf.length = size

section

variable {malloc : ℕ → Addr × Block} {s : List α} (hk : k.Sound factor) (hnil : conv [] = [])
  (hsize : (conv s).length < 2 ^ 31 - 2)

include hk hnil hsize

omit [DecidableEq α] [Zero α] in
/-- **The path through a node.** -/
theorem Kept.convertInNode (h : Kept w₀ p nodes results w) (hmalloc : MallocAnswers w malloc)
    {needlen : ℤ} (hneedlen : needlen = -1 ∨ needlen = (conv s).length) :
    ∃ n w', ConvBuf.convertInNode k conv malloc p s needlen w = some (some n, w') ∧
      Kept w₀ p (nodes ++ [n]) (results ++ [(n, k.terminated (conv s))]) w' := by
  have hmeasured : (if needlen < 0 then (callConverter conv s 0).1 else needlen) =
      (conv s).length := by
    rcases hneedlen with rfl | rfl
    · rw [if_pos (by decide), callConverter_zero s hnil]
    · rw [if_neg (by omega)]
  obtain ⟨z, hz⟩ : ∃ z, (p :: nodes).getLast? = some z := ⟨_, List.getLast?_eq_some_getLast (by simp)⟩
  have hwalk : walk w.nextOf w.mallocs.length p = some z := by
    refine h.links.walk_eq hz ?_
    rw [h.mallocs, List.length_append, List.length_cons]
    omega
  obtain ⟨q, hq⟩ := h.links.isSome (List.mem_of_getLast? hz)
  obtain ⟨bz, hbz, -⟩ := Option.map_eq_some_iff.mp hq
  -- the answer of `malloc`, and what hanging it in makes of the chain
  have hnode := hk.node _ hsize
  obtain ⟨hn, hcap⟩ := hmalloc (k.mallocSize (conv s).length) (by omega)
  generalize hanswer : malloc (k.mallocSize (conv s).length) = answer at hn hcap
  obtain ⟨n, bn⟩ := answer
  dsimp only at hn hcap
  obtain ⟨hkept, hnew⟩ := h.append bn hz hbz hn
  have hzn : z ≠ n := fun heq => hnew (heq ▸ List.mem_of_getLast? hz)
  have hatz : (w.malloc (n, bn)).heap z = some bz := by
    rw [← hbz]
    exact Function.update_of_ne hzn _ _
  have hatn : ((w.malloc (n, bn)).set z { bz with next := some n }).heap n = some bn := by
    rw [heap_set_of_ne hzn.symm]
    exact Function.update_self _ _ _
  have hatn' : (w.hang z bz n bn).heap n = some { bn with next := none, flags := 0 } :=
    heap_set_self
  obtain ⟨b', hfinish, hnext, hused, hlen, hbytes⟩ := finish_eq hk (conv s) hatn' (by
    show _ ≤ bn.buf.length
    omega)
  have hunused : n ∉ results.map Prod.fst := by
    intro hmem
    obtain ⟨r, hr, hrn⟩ := List.mem_map.mp hmem
    exact hnew (hrn ▸ (h.result r hr).1)
  refine ⟨n, (w.hang z bz n bn).set n b', ?_, hkept.fill (by simp) hunused hatn' hnext hused hlen
    hbytes⟩
  have hcall : callConverter conv s (((conv s).length : ℤ) + 1).toNat =
      (((conv s).length : ℤ), conv s) := callConverter_fits hnil (by omega) (by omega)
  unfold ConvBuf.convertInNode
  simp only [hmeasured, hwalk, hanswer, Option.bind_eq_bind, Option.bind_some]
  rw [modify_eq hatz, Option.bind_some, convbufInit, modify_eq hatn, Option.bind_some, hcall]
  exact hfinish

/-- **One conversion.**  Whichever path it takes, it hands out the whole result, terminated, in a
block of its own, and keeps all results there were. -/
theorem Kept.convert (h : Kept w₀ p nodes results w) (hmalloc : MallocAnswers w malloc)
    (hfactor : ∀ s, (conv s).length ≤ factor * s.length) {str : Option (List α)} {len : ℤ}
    (harg : argument str len = some s) :
    ∃ a nodes' w', ConvBuf.convert k conv malloc p str len w = some (some a, w') ∧
      Kept w₀ p nodes' (results ++ [(a, k.terminated (conv s))]) w' := by
  obtain ⟨bp, hbp, hroom, hflag⟩ := h.head
  simp only [ConvBuf.convert, harg, hbp, Option.bind_eq_bind, Option.bind_some]
  by_cases hfree : bp.flags &&& convbufUsed = 0
  · rw [if_pos hfree]
    by_cases hinline : s.length ≤ k.sp ∨
        ((if k.sp < s.length then (callConverter conv s 0).1 else -1) + 1) * k.unit ≤ defArrSz
    · -- in the buffer itself
      rw [if_pos hinline]
      have hfits : ((conv s).length + 1) * k.unit ≤ defArrSz := by
        by_cases hshort : s.length ≤ k.sp
        · calc ((conv s).length + 1) * k.unit
              ≤ (factor * k.sp + 1) * k.unit := Nat.mul_le_mul_right _
                (Nat.succ_le_succ (Nat.le_trans (hfactor s) (Nat.mul_le_mul_left _ hshort)))
            _ ≤ defArrSz := hk.inline
        · have hmeasured := hinline.resolve_left hshort
          rw [if_pos (by omega), callConverter_zero s hnil] at hmeasured
          exact_mod_cast hmeasured
      have hunits : (conv s).length + 1 ≤ defArrSz / k.unit :=
        (Nat.le_div_iff_mul_le hk.unit_pos).mpr hfits
      rw [callConverter_fits hnil (by omega) (by omega)]
      obtain ⟨b', hfinish, hnext, hused, hlen, hbytes⟩ := finish_eq hk (conv s) hbp (by omega)
      exact ⟨p, nodes, _, hfinish, h.fill (List.mem_cons_self ..) (hflag hfree) hbp hnext hused hlen
        hbytes⟩
    · rw [if_neg hinline]
      have hmeasured : (if k.sp < s.length then (callConverter conv s 0).1 else -1) = -1 ∨
          (if k.sp < s.length then (callConverter conv s 0).1 else -1) = ((conv s).length : ℤ) := by
        split_ifs
        · exact Or.inr (callConverter_zero s hnil)
        · exact Or.inl rfl
      obtain ⟨n, w', hrun, hkept⟩ := h.convertInNode hk hnil hsize hmalloc hmeasured
      exact ⟨n, _, w', hrun, hkept⟩
  · rw [if_neg hfree]
    obtain ⟨n, w', hrun, hkept⟩ := h.convertInNode hk hnil hsize hmalloc (Or.inl rfl)
    exact ⟨n, _, w', hrun, hkept⟩

end

/-! ## Clearing -/

/-- The loop of `convbuf_clear` frees the nodes, each once, in order. -/
theorem freeNodes_eq {q : Option Addr} {l : List Addr} {fuel : ℕ} (hlinks : Linked w.nextOf q l)
    (hnodup : l.Nodup) (hfuel : l.length ≤ fuel) :
    ∃ w', freeNodes fuel q w = some w' ∧ w'.frees = w.frees ++ l ∧ w'.mallocs = w.mallocs ∧
      (∀ a ∈ l, w'.heap a = none) ∧ ∀ a ∉ l, w'.heap a = w.heap a := by
  induction l generalizing q fuel w with
  | nil =>
    cases hlinks
    refine ⟨w, ?_, (List.append_nil _).symm, rfl, fun a ha => ?_, fun _ _ => rfl⟩
    · rw [freeNodes]
    · cases ha
  | cons a l ih =>
    obtain ⟨rfl, q, hq, hl⟩ := hlinks
    obtain ⟨ha, hnodup⟩ := List.nodup_cons.mp hnodup
    obtain ⟨b, hb, hnext⟩ := Option.map_eq_some_iff.mp hq
    cases fuel with
    | zero => cases hfuel
    | succ fuel =>
      have hother : ∀ x, x ≠ a → (w.remove a).heap x = w.heap x :=
        fun x hx => Function.update_of_ne hx _ _
      have hl' : Linked (w.remove a).nextOf q l := by
        refine hl.congr fun x hx => ?_
        rw [World.nextOf, hother x fun heq => ha (heq ▸ hx), World.nextOf]
      obtain ⟨w', hrun, hfrees, hmallocs, hgone, hrest⟩ :=
        ih hl' hnodup (Nat.le_of_succ_le_succ hfuel)
      refine ⟨w', ?_, ?_, hmallocs, fun x hx => ?_, fun x hx => ?_⟩
      · simp only [freeNodes, hb, World.free, Option.map_some, Option.bind_eq_bind,
          Option.bind_some, hnext]
        exact hrun
      · rw [hfrees]
        exact List.append_assoc _ [a] l
      · by_cases hxl : x ∈ l
        · exact hgone x hxl
        · have hxa : x = a := (List.mem_cons.mp hx).resolve_right hxl
          rw [hrest x hxl, hxa]
          exact Function.update_self _ _ _
      · rw [List.mem_cons, not_or] at hx
        rw [hrest x hx.2, hother x hx.1]

/-- **`convbuf_clear`** frees the nodes, each once, and leaves what `convbuf_init` leaves. -/
theorem Kept.clear (h : Kept w₀ p nodes results w) :
    ∃ w' b', convbufClear p w = some w' ∧ w'.frees = w₀.frees ++ nodes ∧
      w'.mallocs = w₀.mallocs ++ nodes ∧ (∀ a, a ≠ p → w'.heap a = w₀.heap a) ∧
      w'.heap p = some b' ∧ b'.next = none ∧ b'.flags = 0 ∧ b'.buf.length = defArrSz := by
  obtain ⟨b, hb, hsize, -⟩ := h.head
  obtain ⟨-, q, hq, hlinks⟩ := h.links
  obtain ⟨hp, hnodup⟩ := List.nodup_cons.mp h.nodup
  rw [World.nextOf, hb, Option.map_some] at hq
  have hnext := Option.some.inj hq
  have hfuel : nodes.length ≤ w.mallocs.length := by
    rw [h.mallocs, List.length_append]
    omega
  obtain ⟨w', hrun, hfrees, hmallocs, hgone, hrest⟩ := freeNodes_eq hlinks hnodup hfuel
  have hb' : w'.heap p = some b := by rw [hrest p hp, hb]
  refine ⟨w'.set p { b with next := none, flags := 0 }, { b with next := none, flags := 0 }, ?_,
    ?_, ?_, fun a ha => ?_, heap_set_self, rfl, rfl, hsize⟩
  · simp only [convbufClear, hb, hnext, hrun, Option.bind_eq_bind, Option.bind_some, modify_eq hb']
  · rw [frees_set, hfrees, h.frees]
  · rw [mallocs_set, hmallocs, h.mallocs]
  · rw [heap_set_of_ne ha]
    by_cases hmem : a ∈ nodes
    · rw [hgone a hmem, h.fresh a hmem]
    · rw [hrest a hmem, h.frame a (by simp [ha, hmem])]

/-! ## Every sequence of calls -/

/-- The converters of the system: to each code page, and from UTF-8. -/
structure Converters where
  wideCharToMultiByte : ℕ → List UInt16 → List UInt8
  multiByteToWideChar : List UInt8 → List UInt16
  wide_nil : ∀ cp, wideCharToMultiByte cp [] = []
  narrow_nil : multiByteToWideChar [] = []
  /-- From UTF-8, a byte gives at most one unit. -/
  narrow_le : ∀ s, (multiByteToWideChar s).length ≤ s.length

/-- A call on a conversion buffer, with its arguments. -/
inductive Call where
  | w2a (s : Option (List UInt16)) (len : ℤ) (cp : ℕ)
  | a2w (s : Option (List UInt8)) (len : ℤ)

namespace Call

variable (sys : Converters)

/-- The call on the buffer at `p`. -/
def run (malloc : ℕ → Addr × Block) (p : Addr) (w : World) : Call → Option (Option Addr × World)
  | w2a s len cp => convbufW2a (sys.wideCharToMultiByte cp) malloc p s len w
  | a2w s len => convbufA2w sys.multiByteToWideChar malloc p s len w

/-- The whole result, with its terminator, for a string that is converted at all. -/
def result : Call → Option (List UInt8)
  | w2a s len cp => (argument s len).map fun s => sys.wideCharToMultiByte cp s ++ [0]
  | a2w s len => (argument s len).map fun s =>
      (sys.multiByteToWideChar s).flatMap wideBytes ++ [0, 0]

/-- The string that a pointer leads to has what is read of it: a zero, for `-1`, and for a length
that is accepted as many units. -/
def Readable {α : Type} [Zero α] (s : Option (List α)) (len : ℤ) : Prop :=
  ∀ u, s = some u → (len = -1 → 0 ∈ u) ∧ (len >>> (31 : ℕ) = 0 → len ≤ u.length)

/-- What is asked of a call: readable arguments, a code page with at most three bytes for a unit,
and a result of less than `2 ^ 31 - 2` units. -/
def Valid : Call → Prop
  | w2a s len cp => Readable s len ∧ (∀ u, (sys.wideCharToMultiByte cp u).length ≤ 3 * u.length) ∧
      ∀ u, argument s len = some u → (sys.wideCharToMultiByte cp u).length < 2 ^ 31 - 2
  | a2w s len => Readable s len ∧
      ∀ u, argument s len = some u → (sys.multiByteToWideChar u).length < 2 ^ 31 - 2

end Call

/-- One call on the buffer at `p`, labelled with the call and what it returned. -/
inductive Step (sys : Converters) (p : Addr) : World → Call × Option Addr → World → Prop where
  | call {w w' : World} {c : Call} {malloc : ℕ → Addr × Block} {ret : Option Addr} :
      c.Valid sys → MallocAnswers w malloc → c.run sys malloc p w = some (ret, w') →
      Step sys p w (c, ret) w'

variable {sys : Converters}

/-- A call goes through; it returns `NULL` exactly when there is nothing to convert, and then has
changed nothing. -/
theorem Kept.call (h : Kept w₀ p nodes results w) {c : Call} {malloc : ℕ → Addr × Block}
    (hc : c.Valid sys) (hmalloc : MallocAnswers w malloc) :
    (c.result sys = none ∧ c.run sys malloc p w = some (none, w)) ∨
      ∃ bytes a nodes' w', c.result sys = some bytes ∧ c.run sys malloc p w = some (some a, w') ∧
        Kept w₀ p nodes' (results ++ [(a, bytes)]) w' := by
  cases c with
  | w2a s len cp =>
    obtain ⟨-, hfactor, hsize⟩ := hc
    cases harg : argument s len with
    | none =>
      refine Or.inl ⟨by rw [Call.result, harg, Option.map_none], ?_⟩
      simp only [Call.run, convbufW2a, ConvBuf.convert, harg]
    | some u =>
      obtain ⟨a, nodes', w', hrun, hkept⟩ :=
        h.convert w2aKind_sound (sys.wide_nil cp) (hsize u harg) hmalloc hfactor harg
      refine Or.inr ⟨_, a, nodes', w', by rw [Call.result, harg, Option.map_some], hrun, ?_⟩
      have hbytes : w2aKind.terminated (sys.wideCharToMultiByte cp u) =
          sys.wideCharToMultiByte cp u ++ [0] := by
        rw [Kind.terminated]
        exact congrArg (· ++ [0]) (List.flatMap_singleton' _)
      rwa [hbytes] at hkept
  | a2w s len =>
    obtain ⟨-, hsize⟩ := hc
    cases harg : argument s len with
    | none =>
      refine Or.inl ⟨by rw [Call.result, harg, Option.map_none], ?_⟩
      simp only [Call.run, convbufA2w, ConvBuf.convert, harg]
    | some u =>
      obtain ⟨a, nodes', w', hrun, hkept⟩ :=
        h.convert a2wKind_sound sys.narrow_nil (hsize u harg) hmalloc
          (fun s => by rw [Nat.one_mul]; exact sys.narrow_le s) harg
      refine Or.inr ⟨_, a, nodes', w', ?_, hrun, hkept⟩
      rw [Call.result, harg, Option.map_some]
      rfl

/-- What a run of calls leaves: the results handed out are among those that are kept. -/
theorem Kept.run {w₁ : World} (hp : w₀.heap p = some b) (hb : b.buf.length = defArrSz)
    (hinit : convbufInit p w₀ = some w₁) {tr : List (Call × Option Addr)}
    (hrun : Run (Step sys p) w₁ tr w) :
    ∃ nodes results, Kept w₁ p nodes results w ∧
      ∀ e ∈ tr, ∀ a, e.2 = some a → ∃ bytes, e.1.result sys = some bytes ∧ (a, bytes) ∈ results := by
  induction hrun with
  | nil =>
    refine ⟨[], [], .of_init hp hb hinit, fun e he => ?_⟩
    cases he
  | snoc _ hstep ih =>
    obtain ⟨nodes, results, hkept, htr⟩ := ih
    cases hstep with
    | call hc hmalloc hcall =>
      rcases hkept.call hc hmalloc with ⟨-, hnull⟩ | ⟨bytes, a, nodes', w', hres, hok, hkept'⟩
      · rw [hcall] at hnull
        cases hnull
        refine ⟨nodes, results, hkept, fun e he a hret => ?_⟩
        rcases List.mem_append.mp he with he | he
        · exact htr e he a hret
        · rw [List.mem_singleton.mp he] at hret
          cases hret
      · rw [hcall] at hok
        cases hok
        refine ⟨nodes', _, hkept', fun e he x hret => ?_⟩
        rcases List.mem_append.mp he with he | he
        · obtain ⟨bytes', hres', hmem⟩ := htr e he x hret
          exact ⟨bytes', hres', List.mem_append_left _ hmem⟩
        · rw [List.mem_singleton.mp he] at hret ⊢
          cases hret
          exact ⟨bytes, hres, List.mem_append_right _ (List.mem_singleton.mpr rfl)⟩

/-- **Every result stays alive and complete.**  After any calls on a buffer that was initialised,
each result handed out still stands, whole and terminated, at its address; the next call goes
through, so nothing is ever written outside a block, and it returns `NULL` only when there is nothing
to convert; and `convbuf_clear` frees what was allocated since, each node once, and leaves the memory
as `convbuf_init` left it. -/
theorem results_kept (sys : Converters) {w₀ w₁ w : World} {p : Addr} {b : Block}
    (hp : w₀.heap p = some b) (hb : b.buf.length = defArrSz) (hinit : convbufInit p w₀ = some w₁)
    {tr : List (Call × Option Addr)} (hrun : Run (Step sys p) w₁ tr w) :
    (∀ e ∈ tr, ∀ a, e.2 = some a → ∃ bytes b, e.1.result sys = some bytes ∧
        w.heap a = some b ∧ bytes <+: b.buf) ∧
      (∀ (c : Call) malloc, c.Valid sys → MallocAnswers w malloc →
        ∃ ret w', c.run sys malloc p w = some (ret, w') ∧ (ret = none ↔ c.result sys = none)) ∧
      ∃ w' nodes b', convbufClear p w = some w' ∧ nodes.Nodup ∧
        w'.mallocs = w₁.mallocs ++ nodes ∧ w'.frees = w₁.frees ++ nodes ∧
        (∀ a, a ≠ p → w'.heap a = w₁.heap a) ∧
        w'.heap p = some b' ∧ b'.next = none ∧ b'.flags = 0 ∧ b'.buf.length = defArrSz := by
  obtain ⟨nodes, results, hkept, htr⟩ := Kept.run hp hb hinit hrun
  refine ⟨fun e he a ha => ?_, fun c malloc hc hmalloc => ?_, ?_⟩
  · obtain ⟨bytes, hres, hmem⟩ := htr e he a ha
    obtain ⟨-, b', hb', hpre⟩ := hkept.result _ hmem
    exact ⟨bytes, b', hres, hb', hpre⟩
  · rcases hkept.call hc hmalloc with ⟨hres, hrun'⟩ | ⟨bytes, a, _, w', hres, hrun', -⟩
    · exact ⟨none, w, hrun', iff_of_true rfl hres⟩
    · exact ⟨some a, w', hrun', by simp [hres]⟩
  · obtain ⟨w', b', hclear, hfrees, hmallocs, hheap, hb'⟩ := hkept.clear
    exact ⟨w', nodes, b', hclear, (List.nodup_cons.mp hkept.nodup).2, hmallocs, hfrees, hheap, hb'⟩

/-- Converters for plain text: to UTF-8, and from those bytes of it that are characters. -/
def plainConverters : Converters where
  wideCharToMultiByte _ := Utf16.toUtf8
  multiByteToWideChar s := s.map UInt8.toUInt16
  wide_nil _ := rfl
  narrow_nil := rfl
  narrow_le _ := Nat.le_of_eq (List.length_map _)

/-- A buffer on the stack, at the address 1, and nothing else. -/
def onStack : World where
  heap := Function.update (fun _ => none) 1 (some ⟨none, 0, List.replicate 540 0⟩)
  mallocs := []
  frees := []

/-- The same after `convbuf_init`. -/
def initialised : World := onStack.set 1 ⟨none, 0, List.replicate 540 0⟩

/-- A `malloc` that answers with the address `a`. -/
def zeroedAt (a : Addr) (size : ℕ) : Addr × Block :=
  (a, ⟨none, 0, List.replicate (size - hdrSize) 0⟩)

theorem mallocAnswers_zeroedAt (h : w.heap a = none) : MallocAnswers w (zeroedAt a) := by
  intro size hsize
  refine ⟨h, ?_⟩
  rw [zeroedAt, List.length_replicate]
  omega

/-- The letter `a`, to UTF-8. -/
def callA : Call := .w2a (some [97, 0]) (-1) 65001

/-- The letter `b`, from UTF-8. -/
def callB : Call := .a2w (some [98, 0]) (-1)

theorem callA_valid : callA.Valid plainConverters := by
  refine ⟨?_, Utf16.length_toUtf8_le, fun u hu => ?_⟩
  · rintro u ⟨⟩
    exact ⟨fun _ => by decide, fun h => absurd h (by decide)⟩
  · cases (show argument (some [97, 0]) (-1) = some ([97] : List UInt16) from rfl).symm.trans hu
    decide

theorem callB_valid : callB.Valid plainConverters := by
  refine ⟨?_, fun u hu => ?_⟩
  · rintro u ⟨⟩
    exact ⟨fun _ => by decide, fun h => absurd h (by decide)⟩
  · cases (show argument (some [98, 0]) (-1) = some ([98] : List UInt8) from rfl).symm.trans hu
    decide

/-- `a` goes into the buffer itself and `b` into a node, and both are there at the end. -/
theorem results_kept_plain : ∃ w b₁ b₂,
    Run (Step plainConverters 1) initialised [(callA, some 1), (callB, some 2)] w ∧
    w.heap 1 = some b₁ ∧ [97, 0] <+: b₁.buf ∧ w.heap 2 = some b₂ ∧ [98, 0, 0, 0] <+: b₂.buf := by
  have hp : onStack.heap 1 = some ⟨none, 0, List.replicate 540 0⟩ := rfl
  have hinit : convbufInit 1 onStack = some initialised := rfl
  have heval : ((callA.run plainConverters (zeroedAt 2) 1 initialised).bind fun r =>
        (callB.run plainConverters (zeroedAt 2) 1 r.2).map fun r' =>
          (r.1, (r.2.heap 2).isNone, r'.1)) = some (some 1, true, some 2) := by
    decide +kernel
  obtain ⟨⟨ret, w⟩, hA, heval⟩ := Option.bind_eq_some_iff.mp heval
  obtain ⟨⟨ret', w'⟩, hB, heval⟩ := Option.map_eq_some_iff.mp heval
  obtain ⟨hret, hfree, hret'⟩ : ret = some 1 ∧ (w.heap 2).isNone = true ∧ ret' = some 2 := by
    simpa using heval
  subst hret hret'
  have hrun := (Run.nil.snoc (Step.call callA_valid (mallocAnswers_zeroedAt rfl) hA)).snoc
    (Step.call callB_valid (mallocAnswers_zeroedAt (Option.isNone_iff_eq_none.mp hfree)) hB)
  have hkept := (results_kept plainConverters hp List.length_replicate hinit hrun).1
  obtain ⟨bytes, b₁, hres, hb₁, hpre₁⟩ := hkept (callA, some 1) (by simp) 1 rfl
  cases (show callA.result plainConverters = some [97, 0] from rfl).symm.trans hres
  obtain ⟨bytes, b₂, hres, hb₂, hpre₂⟩ := hkept (callB, some 2) (by simp) 2 rfl
  cases (show callB.result plainConverters = some [98, 0, 0, 0] from rfl).symm.trans hres
  exact ⟨w', b₁, b₂, hrun, hb₁, hpre₁, hb₂, hpre₂⟩

end ConvBuf
end UtilWin
