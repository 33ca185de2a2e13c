import UtilWin.Process.CodeSweep

/-!
# The search for a data pointer

`get_data_ptr` looks through a function for a load or an address computation relative to the
instruction pointer.  It keeps the targets of the calls it passes, nine at most, and goes on with the
oldest of them when it comes to a return.

Seen from one function to the next this is a search in the order of arrival (`Visits`).  If some
function that is visited has such an instruction, the first one is what is returned
(`returns_of_first`).  If none has, there is no way out: at a return with nothing kept the loop goes
on where it stands, and where functions call each other there is always something kept.
-/

namespace UtilWin
namespace Disasm

open Probe

/-! ## The function -/

/-- The variables of `get_data_ptr`: where it is, and the call targets it keeps. -/
structure Search where
  func : Addr
  nextfunc : List Addr

/-- Where a load may start: behind a `48`. -/
def opcodePtr (mem : Memory) (func : Addr) : Addr := if mem func = 0x48 then func + 1 else func

/-- The instruction is a load or an address computation relative to the instruction pointer. -/
def Loads (mem : Memory) (func : Addr) : Prop :=
  (mem (opcodePtr mem func) = 0x8b ∨ mem (opcodePtr mem func) = 0x8d) ∧
    mem (opcodePtr mem func + 1) &&& 0xc7 = 0x05

instance (mem : Memory) (func : Addr) : Decidable (Loads mem func) := by
  unfold Loads; infer_instance

/-- The target of the call at `func`. -/
def callTarget (mem : Memory) (func : Addr) : Addr := func + 5 + mem.intAt (func + 1)

/-- A call target is kept while there is room: `n_next + 1 < _countof(nextfunc)`. -/
def keep (nextfunc : List Addr) (f : Addr) : List Addr :=
  if nextfunc.length + 1 < 10 then nextfunc ++ [f] else nextfunc

/-- The loop of `get_data_ptr`, once: it returns, or goes on. -/
def iteration (mem : Memory) (s : Search) : Addr ⊕ Search :=
  let forward : Search := { s with func := mem.next s.func }
  if modrmSize (mem.flags s.func) = 5 then
    if Loads mem s.func then
      .inl (opcodePtr mem s.func + 6 + mem.intAt (opcodePtr mem s.func + 2))
    else .inr forward
  else if mem s.func = 0xe8 then
    .inr { forward with nextfunc := keep s.nextfunc (callTarget mem s.func) }
  else if mem.IsReturn s.func then
    -- `continue`, which leaves `func` alone when there is nothing to go on with
    match s.nextfunc with
    | [] => .inr s
    | f :: nextfunc => .inr ⟨f, nextfunc⟩
  else .inr forward

/-- `get_data_ptr`, for as many iterations. -/
def getDataPtr (mem : Memory) : ℕ → Search → Option Addr
  | 0, _ => none
  | n + 1, s =>
    match iteration mem s with
    | .inl p => some p
    | .inr s' => getDataPtr mem n s'

/-! ## What is asked of it -/

/-- The instructions of the function at `f`, up to its return. -/
inductive Sweep (mem : Memory) : Addr → List Addr → Prop where
  | last {a : Addr} : mem.IsReturn a → Sweep mem a [a]
  | cons {a : Addr} {l : List Addr} : ¬ mem.IsReturn a → Sweep mem (mem.next a) l →
      Sweep mem a (a :: l)

/-- The targets of the calls among these instructions. -/
def callTargets (mem : Memory) (l : List Addr) : List Addr :=
  (l.filter (mem · = 0xe8)).map (callTarget mem)

/-- In the order of arrival, with at most nine pending, the `n`-th function is the one at `f`, and
then those of `q` are pending. -/
inductive Visits (mem : Memory) (start : Addr) : ℕ → Addr → List Addr → Prop where
  | start : Visits mem start 0 start []
  | next {n : ℕ} {f g : Addr} {q q' l : List Addr} : Visits mem start n f q → Sweep mem f l →
      (q ++ callTargets mem l).take 9 = g :: q' → Visits mem start (n + 1) g q'

/-- The instruction at `a` is scanned in the `n`-th function, behind those of `pre`. -/
def ScannedAt (mem : Memory) (start : Addr) (n : ℕ) (pre : List Addr) (a : Addr) : Prop :=
  ∃ f q post, Visits mem start n f q ∧ Sweep mem f (pre ++ a :: post)

/-- `t` is the target of the first scanned instruction that is relative to the instruction
pointer. -/
def FirstTarget (mem : Memory) (start t : Addr) : Prop :=
  ∃ n pre a, ScannedAt mem start n pre a ∧ Loads mem a ∧ (∀ x ∈ pre, ¬ Loads mem x) ∧
    (∀ m < n, ∀ pre' x, ScannedAt mem start m pre' x → ¬ Loads mem x) ∧
    t = mem.target a (if mem a = 0x48 then 1 else 0)

/-- The search ends: with the target of the first such instruction, and without one it is left in
some way. -/
structure Ends (mem : Memory) (start : Addr) : Prop where
  /-- There is such an instruction. -/
  returns : ∀ t, FirstTarget mem start t → ∃ n, getDataPtr mem n ⟨start, []⟩ = some t
  /-- There is none. -/
  stops : (¬ ∃ t, FirstTarget mem start t) → ∃ n, getDataPtr mem n ⟨start, []⟩ ≠ none

/-- Every function that is visited comes to a return. -/
def EveryFunctionReturns (mem : Memory) (start : Addr) : Prop :=
  ∀ n f q, Visits mem start n f q → ∃ l, Sweep mem f l

variable {mem : Memory} {start f a : Addr} {q l : List Addr} {n : ℕ}

/-! ## One instruction -/

theorem opcodePtr_eq (mem : Memory) (a : Addr) :
    opcodePtr mem a = a + BitVec.ofNat 64 (if mem a = 0x48 then 1 else 0) := by
  rw [opcodePtr]
  split_ifs
  · rfl
  · exact (BitVec.add_zero a).symm

/-- A load is a relative operand, which the decoder measures as such. -/
theorem Loads.isRela (h : Loads mem a) :
    ∃ op, IsPlain op ∧ mem.IsRela op a (if mem a = 0x48 then 1 else 0) := by
  obtain ⟨hop, hmodrm⟩ := h
  rw [opcodePtr_eq] at hop hmodrm
  have hk : (if mem a = 0x48 then 1 else 0) = 0 ∨
      (if mem a = 0x48 then 1 else 0) = 1 ∧ mem a = 0x48 := by
    split_ifs with h48
    · exact Or.inr ⟨rfl, h48⟩
    · exact Or.inl rfl
  generalize (if mem a = 0x48 then 1 else 0) = k at hop hmodrm hk ⊢
  have hplain : IsPlain (mem.codeAt a k) := hop.imp id id |> Or.inr
  have hmodrm' : mem.codeAt a (k + 1) &&& 0xc7 = 0x5 := by
    rw [← Memory.codeAt_add]
    exact hmodrm
  exact ⟨_, hplain, Memory.IsRela.of_short hk hplain hmodrm'⟩

/-- Calls and returns have no ModRM byte. -/
theorem modrmSize_ne (h : mem a = 0xe8 ∨ mem.IsReturn a) : modrmSize (mem.flags a) ≠ 5 := by
  have hfirst : mem.codeAt a 0 = 0xe8 ∨ mem.codeAt a 0 = 0xc2 ∨ mem.codeAt a 0 = 0xc3 := by
    rw [Memory.codeAt_zero]
    exact h
  have hfacts : ∀ op : Byte, op = 0xe8 ∨ op = 0xc2 ∨ op = 0xc3 →
      ¬ Mode.amd64.IsPrefix op ∧ op ≠ 0x0f ∧ lookup table1Amd64 op &&& 0x80 = 0 := by
    rintro op (rfl | rfl | rfl) <;> decide
  obtain ⟨hpref, hescape, hentry⟩ := hfacts _ hfirst
  have hat : Mode.amd64.OpcodeAt (mem.codeAt a) 0 :=
    ⟨by decide, fun i hi => absurd hi (Nat.not_lt_zero i), hpref⟩
  rcases hat.answer with hbad | ⟨imm, -, hrun⟩
  · have hbad' : getInstructionLengthAmd64.run (mem.codeAt a) = setBadInstruction 0 := hbad
    rw [Memory.flags, hbad']
    decide
  · have hrun' : getInstructionLengthAmd64.run (mem.codeAt a) =
      Mode.amd64.answerAt (mem.codeAt a) 0 imm := hrun
    have hsize : Mode.amd64.modrmSizeAt (mem.codeAt a) 0 = 0 := by
      rw [Mode.modrmSizeAt, Mode.entryAt, if_neg hescape, modrmPart]
      exact if_neg (not_not.mpr hentry)
    rw [Memory.flags, hrun', (hat.fields imm).2.1, hsize]
    decide

/-- The loop at a load. -/
theorem iteration_of_loads (h : Loads mem a) (q : List Addr) :
    iteration mem ⟨a, q⟩ = .inl (mem.target a (if mem a = 0x48 then 1 else 0)) := by
  obtain ⟨op, hop, hrela⟩ := h.isRela
  obtain ⟨hlen, -, hsize⟩ := hrela.measured hop
  rw [iteration, if_pos hsize, if_pos h]
  refine congrArg Sum.inl ?_
  rw [Memory.target, Memory.next, hlen, opcodePtr_eq]
  generalize (if mem a = 0x48 then 1 else 0) = k
  have hnext : a + BitVec.ofNat 64 k + 6 = a + BitVec.ofNat 64 (k + 6) := by
    bv_omega
  have hdisp : a + BitVec.ofNat 64 k + 2 = a + BitVec.ofNat 64 (k + 2) := by
    bv_omega
  rw [hnext, hdisp]

/-- The loop at any other instruction that is no return: on to the next one, with the target of a
call among those that are kept. -/
theorem iteration_of_not_loads (h : ¬ Loads mem a) (hret : ¬ mem.IsReturn a) (q : List Addr) :
    iteration mem ⟨a, q⟩ = .inr ⟨mem.next a, (callTargets mem [a]).foldl keep q⟩ := by
  rw [iteration, callTargets, List.filter_cons]
  by_cases hcall : mem a = 0xe8
  · rw [if_neg (modrmSize_ne (Or.inl hcall)), if_pos hcall, if_pos (decide_eq_true hcall)]
    rfl
  · rw [if_neg h, if_neg hcall, if_neg hret, ite_self, if_neg (by simpa using hcall)]
    rfl

/-- The loop at a return. -/
theorem iteration_of_return (hret : mem.IsReturn a) (q : List Addr) :
    iteration mem ⟨a, q⟩ = .inr (match q with | [] => ⟨a, []⟩ | f :: q' => ⟨f, q'⟩) := by
  have hcall : mem a ≠ 0xe8 := by
    rcases hret with h | h <;> rw [h] <;> decide
  rw [iteration, if_neg (modrmSize_ne (Or.inr hret)), if_neg hcall, if_pos hret]
  cases q <;> rfl

/-! ## One function -/

theorem callTargets_cons (mem : Memory) (a : Addr) (l : List Addr) :
    callTargets mem (a :: l) = callTargets mem [a] ++ callTargets mem l := by
  rw [callTargets, callTargets, callTargets, ← List.map_append, ← List.filter_append]
  rfl

theorem callTargets_of_return (hret : mem.IsReturn a) : callTargets mem [a] = [] := by
  have hcall : mem a ≠ 0xe8 := by
    rcases hret with h | h <;> rw [h] <;> decide
  rw [callTargets, List.filter_cons, if_neg (by simpa using hcall)]
  rfl

/-- Keeping while there is room is keeping the first nine. -/
theorem foldl_keep (ts : List Addr) (hq : q.length ≤ 9) : ts.foldl keep q = (q ++ ts).take 9 := by
  induction ts generalizing q with
  | nil => rw [List.foldl_nil, List.append_nil, List.take_of_length_le hq]
  | cons f ts ih =>
    rw [List.foldl_cons, keep]
    split_ifs with hroom
    · rw [ih (by rw [List.length_append, List.length_singleton]; omega), List.append_assoc,
        List.singleton_append]
    · have hfull : q.length = 9 := by omega
      rw [ih hq, List.take_append, List.take_append, hfull]
      rfl

/-- **A function without such an instruction is left at its return**, for the oldest call target. -/
theorem getDataPtr_sweep (hsweep : Sweep mem f l) (hno : ∀ x ∈ l, ¬ Loads mem x) {g : Addr}
    {q' : List Addr} (hq : (callTargets mem l).foldl keep q = g :: q') (k : ℕ) :
    getDataPtr mem (l.length + k) ⟨f, q⟩ = getDataPtr mem k ⟨g, q'⟩ := by
  induction hsweep generalizing q with
  | @last a hret =>
    rw [callTargets_of_return hret, List.foldl_nil] at hq
    rw [List.length_singleton, Nat.add_comm, getDataPtr, iteration_of_return hret, hq]
  | @cons a l hret _ ih =>
    rw [callTargets_cons, List.foldl_append] at hq
    rw [List.length_cons, Nat.add_right_comm, getDataPtr,
      iteration_of_not_loads (hno a List.mem_cons_self) hret]
    exact ih (fun x hx => hno x (List.mem_cons_of_mem a hx)) hq

/-- With no call target to go on with it is not left at all. -/
theorem getDataPtr_sweep_nil (hsweep : Sweep mem f l) (hno : ∀ x ∈ l, ¬ Loads mem x)
    (hq : (callTargets mem l).foldl keep q = []) (k : ℕ) : getDataPtr mem k ⟨f, q⟩ = none := by
  induction hsweep generalizing q k with
  | @last a hret =>
    rw [callTargets_of_return hret, List.foldl_nil] at hq
    rw [hq]
    induction k with
    | zero => rfl
    | succ k ih =>
      rw [getDataPtr, iteration_of_return hret]
      exact ih
  | @cons a l hret _ ih =>
    rw [callTargets_cons, List.foldl_append] at hq
    cases k with
    | zero => rfl
    | succ k =>
      rw [getDataPtr, iteration_of_not_loads (hno a List.mem_cons_self) hret]
      exact ih (fun x hx => hno x (List.mem_cons_of_mem a hx)) hq k

/-- **The first such instruction of a function is returned.** -/
theorem getDataPtr_loads {pre post : List Addr} (hsweep : Sweep mem f (pre ++ a :: post))
    (hno : ∀ x ∈ pre, ¬ Loads mem x) (h : Loads mem a) (q : List Addr) :
    getDataPtr mem (pre.length + 1) ⟨f, q⟩ =
      some (mem.target a (if mem a = 0x48 then 1 else 0)) := by
  induction pre generalizing f q with
  | nil =>
    have hf : f = a := by cases hsweep <;> rfl
    rw [hf, getDataPtr, iteration_of_loads h]
  | cons x pre ih =>
    rw [List.cons_append] at hsweep
    generalize hl : pre ++ a :: post = l at hsweep
    cases hsweep with
    | last _ => exact absurd hl (List.append_ne_nil_of_right_ne_nil pre (List.cons_ne_nil a post))
    | cons hret hrest =>
      rw [List.length_cons, getDataPtr, iteration_of_not_loads (hno _ List.mem_cons_self) hret]
      rw [← hl] at hrest
      exact ih hrest (fun y hy => hno y (List.mem_cons_of_mem _ hy)) _

/-- What has not ended has not ended before. -/
theorem getDataPtr_none_of_le {m : ℕ} {s : Search} (h : getDataPtr mem n s = none) (hle : m ≤ n) :
    getDataPtr mem m s = none := by
  induction m generalizing n s with
  | zero => rfl
  | succ m ih =>
    obtain ⟨n, rfl⟩ : ∃ n', n = n' + 1 := ⟨n - 1, by omega⟩
    rw [getDataPtr] at h ⊢
    cases hiter : iteration mem s with
    | inl p =>
      rw [hiter] at h
      cases h
    | inr s' =>
      rw [hiter] at h
      exact ih h (by omega)

/-! ## From function to function -/

theorem Visits.length_le (h : Visits mem start n f q) : q.length ≤ 9 := by
  cases h with
  | start => exact Nat.zero_le 9
  | next _ _ heq =>
    have hlen := congrArg List.length heq
    rw [List.length_take, List.length_cons] at hlen
    omega

/-- The loop comes to the functions in this order, as long as there is nothing to return. -/
theorem Visits.reached (h : Visits mem start n f q)
    (hno : ∀ m < n, ∀ pre x, ScannedAt mem start m pre x → ¬ Loads mem x) :
    ∃ k₀, ∀ k, getDataPtr mem (k₀ + k) ⟨start, []⟩ = getDataPtr mem k ⟨f, q⟩ := by
  induction h with
  | start => exact ⟨0, fun k => by rw [Nat.zero_add]⟩
  | @next n f g q q' l hvisit hsweep heq ih =>
    obtain ⟨k₀, hk₀⟩ := ih fun m hm => hno m (Nat.lt_succ_of_lt hm)
    have hl : ∀ x ∈ l, ¬ Loads mem x := by
      intro x hx
      obtain ⟨pre, post, rfl⟩ := List.append_of_mem hx
      exact hno n (Nat.lt_succ_self n) pre x ⟨f, q, post, hvisit, hsweep⟩
    refine ⟨k₀ + l.length, fun k => ?_⟩
    rw [Nat.add_assoc, hk₀, getDataPtr_sweep hsweep hl]
    rw [foldl_keep _ hvisit.length_le, heq]

/-- **The first target is what is returned.** -/
theorem returns_of_first {t : Addr} (h : FirstTarget mem start t) :
    ∃ n, getDataPtr mem n ⟨start, []⟩ = some t := by
  obtain ⟨n, pre, a, ⟨f, q, post, hvisit, hsweep⟩, hloads, hpre, hearlier, rfl⟩ := h
  obtain ⟨k₀, hk₀⟩ := hvisit.reached hearlier
  exact ⟨k₀ + (pre.length + 1), by rw [hk₀, getDataPtr_loads hsweep hpre hloads]⟩

/-- **Without a target nothing is.**  The induction is on the number of iterations: a function takes
at least one of them. -/
theorem never_ends (hreturns : EveryFunctionReturns mem start)
    (hno : ∀ n pre x, ScannedAt mem start n pre x → ¬ Loads mem x) (k : ℕ)
    (hvisit : Visits mem start n f q) : getDataPtr mem k ⟨f, q⟩ = none := by
  induction k generalizing n f q with
  | zero => rfl
  | succ k ih =>
    obtain ⟨l, hsweep⟩ := hreturns n f q hvisit
    have hl : ∀ x ∈ l, ¬ Loads mem x := by
      intro x hx
      obtain ⟨pre, post, rfl⟩ := List.append_of_mem hx
      exact hno n pre x ⟨f, q, post, hvisit, hsweep⟩
    have hpos : 1 ≤ l.length := by cases hsweep <;> exact Nat.le_add_left 1 _
    cases hq : (callTargets mem l).foldl keep q with
    | nil => exact getDataPtr_sweep_nil hsweep hl hq (k + 1)
    | cons g q' =>
      have hnext : Visits mem start (n + 1) g q' := by
        rw [foldl_keep _ hvisit.length_le] at hq
        exact hvisit.next hsweep hq
      have hrun := getDataPtr_sweep hsweep hl hq k
      rw [ih hnext] at hrun
      exact getDataPtr_none_of_le hrun (by omega)

/-- Where there is one there is a first one. -/
theorem exists_first (p : Addr → Prop) {pre : List Addr} (h : p a) (l : List Addr)
    (hl : l = pre ++ a :: q) :
    ∃ pre' a' post', l = pre' ++ a' :: post' ∧ p a' ∧ ∀ x ∈ pre', ¬ p x := by
  induction pre generalizing l with
  | nil =>
    exact ⟨[], a, q, hl, h, fun x hx => absurd hx List.not_mem_nil⟩
  | cons y pre ih =>
    by_cases hy : p y
    · exact ⟨[], y, pre ++ a :: q, hl, hy, fun x hx => absurd hx List.not_mem_nil⟩
    · obtain ⟨pre', a', post', heq, ha', hpre'⟩ := ih (pre ++ a :: q) rfl
      refine ⟨y :: pre', a', post', by rw [hl, List.cons_append, heq, List.cons_append], ha', ?_⟩
      intro x hx
      rcases List.mem_cons.mp hx with rfl | hx
      · exact hy
      · exact hpre' x hx

theorem exists_firstTarget (h : ∃ n pre a, ScannedAt mem start n pre a ∧ Loads mem a) :
    ∃ t, FirstTarget mem start t := by
  classical
  obtain ⟨pre, a, ⟨f, q, post, hvisit, hsweep⟩, hloads⟩ := Nat.find_spec h
  obtain ⟨pre', a', post', heq, hloads', hpre'⟩ := exists_first (Loads mem) hloads _ rfl
  rw [heq] at hsweep
  refine ⟨_, Nat.find h, pre', a', ⟨f, q, post', hvisit, hsweep⟩, hloads', hpre', ?_, rfl⟩
  intro m hm pre'' x hx hload
  exact Nat.find_min h hm ⟨pre'', x, hx, hload⟩

/-- **When the search for a data pointer ends.**  Where every function that is visited comes to a
return: exactly when some instruction scanned, in the order of arrival with at most nine functions
pending, is a load or an address computation relative to the instruction pointer. -/
theorem ends_iff (hreturns : EveryFunctionReturns mem start) :
    Ends mem start ↔ ∃ n pre a, ScannedAt mem start n pre a ∧ Loads mem a := by
  constructor
  · intro h
    by_contra hno
    push Not at hno
    have hnone : ¬ ∃ t, FirstTarget mem start t := by
      rintro ⟨t, n, pre, a, hscanned, hloads, -⟩
      exact hno n pre a hscanned hloads
    obtain ⟨n, hn⟩ := h.stops hnone
    exact hn (never_ends hreturns hno n .start)
  · intro h
    exact ⟨fun t ht => returns_of_first ht, fun hnone => absurd (exists_firstTarget h) hnone⟩

/-- `mov rax, [rip+10h]` at `0x1000`, and returns everywhere else. -/
def oneLoad : Memory := fun a =>
  if a = 0x1000 then 0x48 else if a = 0x1001 then 0x8b else if a = 0x1002 then 0x05
  else if a = 0x1003 then 0x10 else if 0x1004 ≤ a ∧ a ≤ 0x1006 then 0x00 else 0xc3

theorem callTargets_eq_nil (h : ∀ x, mem x ≠ 0xe8) (l : List Addr) : callTargets mem l = [] := by
  rw [callTargets, List.filter_eq_nil_iff.mpr fun x _ => by simpa using h x]
  rfl

/-- The search ends with the load. -/
theorem oneLoad_ends : Ends oneLoad 0x1000 := by
  have hcall : ∀ x, oneLoad x ≠ 0xe8 := by
    intro x
    unfold oneLoad
    split_ifs <;> decide
  have hnext : oneLoad.next 0x1000 = 0x1007 := by decide +kernel
  have hsweep : Sweep oneLoad 0x1000 [0x1000, 0x1007] := by
    refine .cons (by decide) ?_
    rw [hnext]
    exact .last (by decide)
  have hvisits : ∀ n f q, Visits oneLoad 0x1000 n f q → f = 0x1000 ∧ q = [] := by
    intro n f q h
    induction h with
    | start => exact ⟨rfl, rfl⟩
    | next _ _ heq ih =>
      rw [ih.2, callTargets_eq_nil hcall] at heq
      cases heq
  refine (ends_iff fun n f q h => ?_).mpr ⟨0, [], 0x1000, ⟨0x1000, [], [0x1007], .start, hsweep⟩, ?_⟩
  · rw [(hvisits n f q h).1]
    exact ⟨_, hsweep⟩
  · decide

/-- Returns everywhere: the search stays at the first. -/
theorem returns_not_ends : ¬ Ends (fun _ => 0xc3) 0x1000 := by
  intro h
  have hloads : ∀ x, ¬ Loads (fun _ => 0xc3) x := by
    intro x hx
    have hmodrm : (0xc3 : Byte) &&& 0xc7 = 0x05 := hx.2
    exact absurd hmodrm (by decide)
  have hnone : ¬ ∃ t, FirstTarget (fun _ => 0xc3) 0x1000 t := by
    rintro ⟨t, n, pre, a, -, ha, -⟩
    exact hloads a ha
  obtain ⟨n, hn⟩ := h.stops hnone
  have hsweep : Sweep (fun _ => 0xc3) 0x1000 [0x1000] := .last (Or.inr rfl)
  have hcall : callTargets (fun _ => 0xc3) [0x1000] = [] := callTargets_of_return (Or.inr rfl)
  refine hn (getDataPtr_sweep_nil hsweep (fun x _ => hloads x) ?_ n)
  rw [hcall, List.foldl_nil]

end Disasm
end UtilWin
