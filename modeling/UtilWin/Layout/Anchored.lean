import Mathlib.Data.Finite.Prod
import Mathlib.Data.List.Forall2
import Mathlib.Order.WellFounded
import UtilWin.Layout.Visits

/-!
# The equations of anchored layout

Each edge of an item has an equation: it is at its distance from the edge of the parent or of another
item, or it is where its distance says, or it is a width or a height away from the edge opposite.  If no
edge depends on itself, there is exactly one solution (`exists_solution`, `solution_unique`).

`ComputeIt` does not follow these dependencies but those between whole items, so it may come back to an
item whose edges are not all there, also where no edge depends on itself; then it uses an edge that has
not been computed, or it does not, depending on the order of the items.  Two more things go wrong with
large numbers, because ids and indices are looked for as `short`s: an item whose id is not a positive
`short` is never found, and one whose index is not is found outside the array.

So the rectangles are the solution in whatever order the items are given only if the list is `Orderly`.
-/

namespace UtilWin
namespace Sizes

open Relation

/-! ## The equations -/

/-- The size that is between an edge and the one opposite. -/
def ItemSize.size (s : ItemSize) : Fin 4 → BitVec 16 := ![s.width, s.height, s.width, s.height]

/-- Left and right, top and bottom. -/
def opposite (e : Fin 4) : Fin 4 := ⟨(e.val + 2) % 4, Nat.mod_lt _ (by decide)⟩

/-- What edge `e` of item `s` is to be, with the edges of the items given by their ids.  An id that no
item has is as good as `0xFFFF`. -/
def equation (ss : List ItemSize) (parentrect : Rect) (sol : BitVec 16 → Fin 4 → ℤ) (s : ItemSize)
    (e : Fin 4) : ℤ :=
  if s.replaces e then sol s.id (opposite e) + (s.size e).toInt
  else if (s.pos e).id = 0 then (s.pos e).pos.toInt + (parentrect.edge e).toInt
  else if ∃ t ∈ ss, t.id = (s.pos e).id then (s.pos e).pos.toInt + sol (s.pos e).id e
  else (s.pos e).pos.toInt

/-- The true coordinates. -/
def Solves (ss : List ItemSize) (parentrect : Rect) (sol : BitVec 16 → Fin 4 → ℤ) : Prop :=
  ∀ s ∈ ss, ∀ e, sol s.id e = equation ss parentrect sol s e

/-- They fit in a `short`. -/
def Fits (ss : List ItemSize) (sol : BitVec 16 → Fin 4 → ℤ) : Prop :=
  ∀ s ∈ ss, ∀ e, -0x8000 ≤ sol s.id e ∧ sol s.id e < 0x8000

/-- The dependency between edges: an edge that the size replaces depends on the one opposite, and any
other on the same edge of the item that its `pos` names. -/
inductive DependsOn (ss : List ItemSize) : BitVec 16 × Fin 4 → BitVec 16 × Fin 4 → Prop
  | size {s : ItemSize} (hs : s ∈ ss) {e : Fin 4} (he : s.replaces e = true) :
      DependsOn ss (s.id, e) (s.id, opposite e)
  | pos {s t : ItemSize} (hs : s ∈ ss) (ht : t ∈ ss) {e : Fin 4} (he : s.replaces e = false)
      (hid : (s.pos e).id = t.id) : DependsOn ss (s.id, e) (t.id, e)

/-- Items with ids of their own, of which no edge depends on itself. -/
structure Anchored (ss : List ItemSize) : Prop where
  ids : Ids ss
  acyclic : ∀ x, ¬TransGen (DependsOn ss) x x

variable {ss ss' : List ItemSize} {parentrect : Rect} {sol sol' : BitVec 16 → Fin 4 → ℤ}
  {s t : ItemSize} {e : Fin 4} {m : Memory} {i k : ℕ}

theorem Ids.eq_of_id (h : Ids ss) (hs : s ∈ ss) (ht : t ∈ ss) (hid : s.id = t.id) : s = t :=
  List.inj_on_of_nodup_map h.nodup hs ht hid

/-- It is enough that the edges can be numbered so that none depends on a later one. -/
theorem Anchored.of_rank (hids : Ids ss) (f : BitVec 16 × Fin 4 → ℕ)
    (hsize : ∀ s ∈ ss, ∀ e, s.replaces e = true → f (s.id, opposite e) < f (s.id, e))
    (hpos : ∀ s ∈ ss, ∀ t ∈ ss, ∀ e, s.replaces e = false → (s.pos e).id = t.id →
      f (t.id, e) < f (s.id, e)) : Anchored ss := by
  refine ⟨hids, not_transGen_self f ?_⟩
  rintro x y (⟨hs, he⟩ | ⟨hs, ht, he, hid⟩)
  · exact hsize _ hs _ he
  · exact hpos _ hs _ ht _ he hid

/-- The dependency can be followed down. -/
theorem Anchored.wellFounded (h : Anchored ss) :
    WellFounded fun x y => TransGen (DependsOn ss) y x := by
  have hfinite : Finite (BitVec 16) :=
    Finite.of_injective BitVec.toFin fun _ _ hfin => BitVec.eq_of_toFin_eq hfin
  have htrans : IsTrans _ fun x y => TransGen (DependsOn ss) y x :=
    ⟨fun _ _ _ hxy hyz => TransGen.trans hyz hxy⟩
  have hirrefl : Std.Irrefl fun x y => TransGen (DependsOn ss) y x := ⟨h.acyclic⟩
  exact Finite.wellFounded_of_trans_of_irrefl _

theorem DependsOn.target {x y : BitVec 16 × Fin 4} (h : DependsOn ss x y) :
    ∃ t ∈ ss, t.id = y.1 := by
  cases h with
  | size hs _ => exact ⟨_, hs, rfl⟩
  | pos _ ht _ _ => exact ⟨_, ht, rfl⟩

/-- An equation only looks at what the edge depends on. -/
theorem equation_congr (hs : s ∈ ss)
    (h : ∀ y, DependsOn ss (s.id, e) y → sol y.1 y.2 = sol' y.1 y.2) :
    equation ss parentrect sol s e = equation ss parentrect sol' s e := by
  rw [equation, equation]
  cases he : s.replaces e with
  | true =>
    rw [if_pos rfl, if_pos rfl]
    exact congrArg (· + (s.size e).toInt) (h (s.id, opposite e) (.size hs he))
  | false =>
    rw [if_neg Bool.false_ne_true, if_neg Bool.false_ne_true]
    refine if_congr Iff.rfl rfl ?_
    by_cases hnamed : ∃ t ∈ ss, t.id = (s.pos e).id
    · obtain ⟨t, ht, hid⟩ := hnamed
      rw [if_pos ⟨t, ht, hid⟩, if_pos ⟨t, ht, hid⟩, ← hid, h (t.id, e) (.pos hs ht he hid.symm)]
    · rw [if_neg hnamed, if_neg hnamed]

/-- **There is only one solution.** -/
theorem solution_unique (h : Anchored ss) (hsol : Solves ss parentrect sol)
    (hsol' : Solves ss parentrect sol') (hs : s ∈ ss) (e : Fin 4) : sol s.id e = sol' s.id e := by
  have hall : ∀ x : BitVec 16 × Fin 4, (∃ s ∈ ss, s.id = x.1) → sol x.1 x.2 = sol' x.1 x.2 := by
    intro x
    induction x using h.wellFounded.induction with
    | _ x ih =>
    rintro ⟨s, hs, hid⟩
    obtain ⟨id, e⟩ := x
    cases hid
    refine (hsol s hs e).trans ((equation_congr hs fun y hy => ?_).trans (hsol' s hs e).symm)
    exact ih y (.single hy) hy.target
  exact hall (s.id, e) ⟨s, hs, rfl⟩

open Classical in
/-- **There is a solution.** -/
theorem exists_solution (h : Anchored ss) (parentrect : Rect) : ∃ sol, Solves ss parentrect sol := by
  let solve : BitVec 16 × Fin 4 → ℤ := h.wellFounded.fix fun x below =>
    if hs : ∃ s ∈ ss, s.id = x.1 then
      equation ss parentrect (fun id e =>
        if hy : TransGen (DependsOn ss) x (id, e) then below (id, e) hy else 0) hs.choose x.2
    else 0
  refine ⟨fun id e => solve (id, e), fun s hs e => ?_⟩
  have hsome : ∃ s' ∈ ss, s'.id = s.id := ⟨s, hs, rfl⟩
  have hchosen : hsome.choose = s := h.ids.eq_of_id hsome.choose_spec.1 hs hsome.choose_spec.2
  show solve (s.id, e) = _
  rw [show solve (s.id, e) = _ from h.wellFounded.fix_eq _ (s.id, e), dif_pos hsome, hchosen]
  refine equation_congr hs fun y hy => ?_
  exact dif_pos (TransGen.single hy)

/-! ## What is asked and what it takes -/

/-- `GetSizes` gives every item the true coordinates, in whatever order the items are. -/
def LaidOut (ss : List ItemSize) (parentrect : Rect) (sol : BitVec 16 → Fin 4 → ℤ) : Prop :=
  ∀ ss' : List ItemSize, ss'.Perm ss → ∃ out, getSizes ss' parentrect = .ok out ∧
    List.Forall₂ (fun s r => ∀ e, (r.edge e).toInt = sol s.id e) ss' out

/-- Edge `e` of the item with the id `a` takes `ComputeIt` to the item with the id `b`. -/
def Leads (ss : List ItemSize) (a : BitVec 16) (e : Fin 4) (b : BitVec 16) : Prop :=
  a ≠ b ∧ ∃ s ∈ ss, ∃ t ∈ ss, s.id = a ∧ t.id = b ∧ (s.pos e).id = b ∧ b.toNat < 0x8000

/-- What `ComputeIt` needs. -/
structure Orderly (ss : List ItemSize) (sol : BitVec 16 → Fin 4 → ℤ) : Prop where
  /-- No item leads back to itself, by whatever edges. -/
  acyclic : ∀ a, ¬TransGen (Edge (Leads ss)) a a
  /-- Where an item is meant whose id is no positive `short`, the edge that is meant is 0, as if it were
  not there. -/
  signed : ∀ s ∈ ss, ∀ e, s.replaces e = false → ∀ t ∈ ss, (s.pos e).id = t.id →
    0x8000 ≤ t.id.toNat → sol t.id e = 0
  /-- There are not too many items, or nothing is looked for that can be found. -/
  few : ss.length ≤ 0x8000 ∨
    ∀ s ∈ ss, ∀ e, ∀ t ∈ ss, (s.pos e).id = t.id → 0x8000 ≤ t.id.toNat

/-! None of this depends on the order of the items. -/

theorem Ids.perm (h : Ids ss) (hperm : ss'.Perm ss) : Ids ss' where
  nodup := (hperm.map ItemSize.id).nodup_iff.mpr h.nodup
  ne_zero s hs := h.ne_zero s (hperm.mem_iff.mp hs)
  lt s hs := h.lt s (hperm.mem_iff.mp hs)

theorem DependsOn.perm (hperm : ss'.Perm ss) {x y : BitVec 16 × Fin 4} (h : DependsOn ss' x y) :
    DependsOn ss x y := by
  cases h with
  | size hs he => exact .size (hperm.mem_iff.mp hs) he
  | pos hs ht he hid => exact .pos (hperm.mem_iff.mp hs) (hperm.mem_iff.mp ht) he hid

theorem Anchored.perm (h : Anchored ss) (hperm : ss'.Perm ss) : Anchored ss' where
  ids := h.ids.perm hperm
  acyclic x hx := h.acyclic x (hx.lift id fun _ _ hxy => hxy.perm hperm)

theorem Solves.perm (h : Solves ss parentrect sol) (hperm : ss'.Perm ss) :
    Solves ss' parentrect sol := by
  intro s hs e
  rw [h s (hperm.mem_iff.mp hs) e, equation, equation]
  simp only [hperm.mem_iff]

theorem Leads.perm (hperm : ss'.Perm ss) {a b : BitVec 16} (h : Leads ss' a e b) :
    Leads ss a e b := by
  obtain ⟨hne, s, hs, t, ht, hrest⟩ := h
  exact ⟨hne, s, hperm.mem_iff.mp hs, t, hperm.mem_iff.mp ht, hrest⟩

theorem Orderly.perm (h : Orderly ss sol) (hperm : ss'.Perm ss) : Orderly ss' sol where
  acyclic a ha := by
    refine h.acyclic a (ha.lift id ?_)
    rintro x y ⟨e, hxy⟩
    exact ⟨e, hxy.perm hperm⟩
  signed s hs e he t ht := h.signed s (hperm.mem_iff.mp hs) e he t (hperm.mem_iff.mp ht)
  few := by
    rw [hperm.length_eq]
    exact h.few.imp_right fun hno s hs e t ht =>
      hno s (hperm.mem_iff.mp hs) e t (hperm.mem_iff.mp ht)

/-! ## Reading the results -/

/-- A rectangle is read off the four cells of an item. -/
theorem outrect_eq_ok {r : Rect} (h : outrect m i = .ok r) (e : Fin 4) :
    ∃ v, m.itemposs e i = some v ∧ (r.edge e).toInt = v.toInt := by
  obtain ⟨left, hleft, h⟩ := bind_eq_ok.mp h
  obtain ⟨top, htop, h⟩ := bind_eq_ok.mp h
  obtain ⟨right, hright, h⟩ := bind_eq_ok.mp h
  obtain ⟨bottom, hbottom, h⟩ := bind_eq_ok.mp h
  cases h
  have hsign : ∀ v : BitVec 16, (v.signExtend 32).toInt = v.toInt :=
    fun v => BitVec.toInt_signExtend_of_le (by decide)
  match e with
  | 0 => exact ⟨left, Memory.load_eq_ok.mp hleft, hsign left⟩
  | 1 => exact ⟨top, Memory.load_eq_ok.mp htop, hsign top⟩
  | 2 => exact ⟨right, Memory.load_eq_ok.mp hright, hsign right⟩
  | 3 => exact ⟨bottom, Memory.load_eq_ok.mp hbottom, hsign bottom⟩

theorem outrect_of_known (h : ∀ e, (m.itemposs e i).isSome = true) : ∃ r, outrect m i = .ok r := by
  have hload : ∀ e, ∃ v, m.load e i = .ok v := by
    intro e
    obtain ⟨v, hv⟩ := Option.isSome_iff_exists.mp (h e)
    exact ⟨v, Memory.load_eq_ok.mpr hv⟩
  obtain ⟨left, hleft⟩ := hload 0
  obtain ⟨top, htop⟩ := hload 1
  obtain ⟨right, hright⟩ := hload 2
  obtain ⟨bottom, hbottom⟩ := hload 3
  exact ⟨⟨left.signExtend 32, top.signExtend 32, right.signExtend 32, bottom.signExtend 32⟩,
    bind_eq_ok.mpr ⟨left, hleft, bind_eq_ok.mpr ⟨top, htop, bind_eq_ok.mpr ⟨right, hright,
      bind_eq_ok.mpr ⟨bottom, hbottom, rfl⟩⟩⟩⟩⟩

/-- The first loop of `GetSizes`. -/
theorem progress_foldlM (hids : Ids ss) {fuel : ℕ} {l : List ℕ} {m m' : Memory}
    (h : l.foldlM (fun m i => computeIt ss parentrect fuel i m) m = .ok m') :
    Progress ss m m' ∧ ∀ i ∈ l, m'.masks i = true := by
  induction l generalizing m with
  | nil =>
    cases h
    exact ⟨.refl ss _, fun i hi => absurd hi List.not_mem_nil⟩
  | cons i l ih =>
    rw [List.foldlM_cons] at h
    obtain ⟨m₁, hcall, h⟩ := bind_eq_ok.mp h
    obtain ⟨hprog, hmask⟩ := progresses_computeIt hids fuel i m m₁ hcall
    obtain ⟨hrest, hmasks⟩ := ih h
    refine ⟨hprog.trans hrest, fun j hj => ?_⟩
    rcases List.mem_cons.mp hj with rfl | hj
    · exact hrest.mono j hmask
    · exact hmasks j hj

theorem getElem?_forall₂ {α β : Type} {R : α → β → Prop} {l : List α} {l' : List β}
    (h : List.Forall₂ R l l') {a : α} (hi : l[i]? = some a) : ∃ b, l'[i]? = some b ∧ R a b := by
  induction h generalizing i with
  | nil => cases hi
  | @cons a' b' l l' hR _ ih =>
    cases i with
    | zero =>
      cases hi
      exact ⟨b', rfl, hR⟩
    | succ i => exact ih hi

/-- **What is known when `GetSizes` has given the true coordinates.** -/
theorem getSizes_eq_ok (hids : Ids ss) {out : List Rect} (h : getSizes ss parentrect = .ok out)
    (hout : List.Forall₂ (fun s r => ∀ e, (Rect.edge r e).toInt = sol s.id e) ss out) :
    ∃ m, computeAll ss parentrect = .ok m ∧ ∀ i s, ss[i]? = some s → Done ss .init m i ∧
      ∀ e, ∃ v, m.itemposs e i = some v ∧ v.toInt = sol s.id e := by
  obtain ⟨m, hcompute, h⟩ := bind_eq_ok.mp h
  obtain ⟨hprog, hmasks⟩ := progress_foldlM hids hcompute
  refine ⟨m, hcompute, fun i s hs => ?_⟩
  have hi := (List.getElem?_eq_some_iff.mp hs).1
  refine ⟨hprog.fresh i (hmasks i (List.mem_range.mpr hi)) rfl, fun e => ?_⟩
  obtain ⟨r, hr, htrue⟩ := getElem?_forall₂ hout hs
  obtain ⟨r', hr', houtrect⟩ := getElem?_forall₂ (mapM_eq_ok.mp h)
    (show (List.range ss.length)[i]? = some i from List.getElem?_range hi)
  rw [hr] at hr'
  cases hr'
  obtain ⟨v, hv, hint⟩ := outrect_eq_ok houtrect e
  exact ⟨v, hv, hint.symm.trans (htrue e)⟩

/-! ## What it takes -/

/-- An item can be moved to the front. -/
theorem exists_perm_front (hs : s ∈ ss) : ∃ l, (s :: l).Perm ss := by
  obtain ⟨l₁, l₂, rfl⟩ := List.append_of_mem hs
  exact ⟨l₁ ++ l₂, List.perm_middle.symm⟩

/-- **Not too many items.** -/
theorem LaidOut.few (h : LaidOut ss parentrect sol) (hids : Ids ss) : ss.length ≤ 0x8000 ∨
    ∀ s ∈ ss, ∀ e, ∀ t ∈ ss, (s.pos e).id = t.id → 0x8000 ≤ t.id.toNat := by
  by_contra hno
  obtain ⟨hlong, hfound⟩ := not_or.mp hno
  refine hfound fun s hs e t ht hid => ?_
  by_contra hsmall
  -- the item that is found is the last
  obtain ⟨l, hl⟩ := exists_perm_front ht
  have hperm : (l ++ [t]).Perm ss := (List.perm_append_singleton t l).trans hl
  obtain ⟨out, hrun, hout⟩ := h (l ++ [t]) hperm
  obtain ⟨m, -, hdone⟩ := getSizes_eq_ok (hids.perm hperm) hrun hout
  obtain ⟨i, hi⟩ := List.mem_iff_getElem?.mp (hperm.mem_iff.mpr hs)
  have hlast : (l ++ [t])[l.length]? = some t := by simp
  have hlen := hperm.length_eq
  rw [List.length_append, List.length_singleton] at hlen
  have hrefers : Refers (l ++ [t]) i e l.length := ⟨s, t, hi, hlast, hid, by omega⟩
  have hbound := ((hdone i s hi).1.refs e l.length hrefers).1
  omega

/-- **Ids that are no positive `short`.** -/
theorem LaidOut.signed (h : LaidOut ss parentrect sol) (hids : Ids ss)
    (hsol : Solves ss parentrect sol) : ∀ s ∈ ss, ∀ e, s.replaces e = false → ∀ t ∈ ss,
      (s.pos e).id = t.id → 0x8000 ≤ t.id.toNat → sol t.id e = 0 := by
  intro s hs e he t ht hid hlarge
  obtain ⟨out, hrun, hout⟩ := h ss (.refl ss)
  obtain ⟨m, -, hdone⟩ := getSizes_eq_ok hids hrun hout
  obtain ⟨i, hi⟩ := List.mem_iff_getElem?.mp hs
  obtain ⟨v, hv, htrue⟩ := (hdone i s hi).2 e
  have hzero : (s.pos e).id ≠ 0 := hid ▸ hids.ne_zero t ht
  have hplain : m.itemposs e i = some (s.pos e).pos := by
    refine (hdone i s hi).1.plain s e hi he hzero ?_
    rintro j ⟨s', t', hs', -, hid', hsmall⟩
    rw [hi] at hs'
    cases hs'
    rw [← hid', hid] at hsmall
    omega
  rw [hplain] at hv
  cases hv
  rw [hsol s hs e, equation, if_neg (by rw [he]; exact Bool.false_ne_true), if_neg hzero,
    if_pos ⟨t, ht, hid.symm⟩, hid] at htrue
  omega

/-- Where one item leads, the item at its index refers to. -/
theorem Leads.refers {a b : BitVec 16} (h : Leads ss a e b) (hids : Ids ss) (hi : ss[i]? = some s)
    (ha : s.id = a) : ∃ k t, ss[k]? = some t ∧ t.id = b ∧ Refers ss i e k := by
  obtain ⟨-, s', hs', t, ht, ha', hb, hid, hsmall⟩ := h
  have hsame : s = s' := hids.eq_of_id (List.mem_of_getElem? hi) hs' (ha.trans ha'.symm)
  subst hsame
  obtain ⟨k, hk⟩ := List.mem_iff_getElem?.mp ht
  refine ⟨k, t, hk, hb, s, t, hi, hk, hid.trans hb.symm, ?_⟩
  rw [hb]
  exact hsmall

/-- A way from item to item is found in the list. -/
theorem exists_path (hids : Ids ss) {a b c : BitVec 16} (hi : ss[i]? = some s) (ha : s.id = a)
    (hpath : ReflTransGen (EdgeAvoiding (Leads ss) a) b c) {j : ℕ} (hj : ss[j]? = some t)
    (hb : t.id = b) : ∃ k t', ss[k]? = some t' ∧ t'.id = c ∧
      ReflTransGen (EdgeAvoiding (Refers ss) i) j k := by
  induction hpath with
  | refl => exact ⟨j, t, hj, hb, .refl⟩
  | @tail x y _ hxy ih =>
    obtain ⟨k, u, hk, hu, hway⟩ := ih
    obtain ⟨⟨e, hleads⟩, hne⟩ := hxy
    obtain ⟨k', t', hk', hy, hrefers⟩ := hleads.refers hids hk hu
    refine ⟨k', t', hk', hy, hway.tail ⟨⟨e, hrefers⟩, ?_⟩⟩
    rintro rfl
    rw [hi] at hk'
    cases hk'
    exact hne (hy.symm.trans ha)

/-- **The first item leads back** only by an edge that comes before the one that leads away. -/
theorem not_return (hids : Ids ss) (hs : ss[0]? = some s) {m : Memory}
    (hcompute : computeAll ss parentrect = .ok m) {y z : BitVec 16} {e' : Fin 4}
    (hout : Leads ss s.id e y) (hpath : ReflTransGen (EdgeAvoiding (Leads ss) s.id) y z)
    (hback : Leads ss z e' s.id) : e' < e := by
  obtain ⟨l, hl⟩ : ∃ l, List.range ss.length = 0 :: l := by
    have hpos : 0 < ss.length := (List.getElem?_eq_some_iff.mp hs).1
    obtain ⟨n, hn⟩ := Nat.exists_eq_succ_of_ne_zero (Nat.pos_iff_ne_zero.mp hpos)
    rw [hn]
    exact ⟨_, List.range_succ_eq_map⟩
  rw [computeAll, hl, List.foldlM_cons] at hcompute
  obtain ⟨m₁, hcall, -⟩ := bind_eq_ok.mp hcompute
  obtain ⟨j, t, hj, hjid, hjref⟩ := hout.refers hids hs rfl
  have hji : j ≠ 0 := by
    rintro rfl
    rw [hs] at hj
    cases hj
    exact hout.1 hjid
  obtain ⟨k, u, hk, hkid, hway⟩ := exists_path hids hs rfl hpath hj hjid
  obtain ⟨k', t', hk', hk'id, hkref⟩ := hback.refers hids hk hkid
  have hzero : k' = 0 := hids.index_unique hk' hs hk'id
  subst hzero
  exact computeIt_back hids hcall hjref hji hway hkref

/-- **No item leads back to itself.** -/
theorem LaidOut.acyclic (h : LaidOut ss parentrect sol) (hids : Ids ss) (a : BitVec 16) :
    ¬TransGen (Edge (Leads ss)) a a := by
  intro hcycle
  obtain ⟨x, e, y, z, e', hxy, hpath, hzx, hle⟩ :=
    exists_return (fun a e haa => haa.1 rfl) hcycle
  obtain ⟨-, s, hs, -, -, rfl, -⟩ := id hxy
  -- the item that is come back to is the first
  obtain ⟨l, hperm⟩ := exists_perm_front hs
  obtain ⟨out, hrun, hout⟩ := h (s :: l) hperm
  obtain ⟨m, hcompute, -⟩ := getSizes_eq_ok (hids.perm hperm) hrun hout
  have hpath' : ReflTransGen (EdgeAvoiding (Leads (s :: l)) s.id) y z := by
    refine hpath.lift id ?_
    rintro u v ⟨⟨w, huv⟩, hv⟩
    exact ⟨⟨w, huv.perm hperm.symm⟩, hv⟩
  have hlt : e' < e := not_return (hids.perm hperm) rfl hcompute (hxy.perm hperm.symm) hpath'
    (hzx.perm hperm.symm)
  exact absurd hlt (not_lt_of_ge hle)

end Sizes
end UtilWin
