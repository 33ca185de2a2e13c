import UtilWin.Process.CodeSweep

/-!
# Two variables of ntdll

`init_ntptrs` looks for two variables that `ntdll.dll` does not export, by the instructions that use
them: a comparison (`39`) in one function and an address computation (`8D`) in another.  It goes
through a function up to a return, or three hundred instructions, and takes every instruction with the
opcode and more than four bytes for the one it looks for.  The last four bytes of such an instruction
are a displacement from the instruction pointer if its ModRM byte says so, and otherwise one from a
register, or not a displacement at all.

What is found is what the last of these instructions gives, and if there is none it is zero
(`scan_eq`); the result is `TRUE` all the same, and the forked child stores through both.
-/

namespace UtilWin
namespace Disasm

open Probe

/-! ## The functions -/

/-- The test on an instruction: `f[flags & ILF_PLENMASK] == op && len > 4`. -/
def Candidate (mem : Memory) (op : Byte) (f : Addr) : Prop :=
  mem.codeAt f (plen (mem.flags f)) = op ∧ 4 < mem.instructionLength f

instance (mem : Memory) (op : Byte) (f : Addr) : Decidable (Candidate mem op f) := by
  unfold Candidate; infer_instance

/-- The address that the instruction gives: `f + len + *(int*)(f + len - 4)`. -/
def formed (mem : Memory) (f : Addr) : Addr := mem.next f + mem.intAt (mem.next f - 4)

/-- The loop of `init_ntptrs` over a function, with `i` instructions to go. -/
def scan (mem : Memory) (op : Byte) : (i : ℕ) → (f v : Addr) → Addr
  | 0, _, v => v
  | i + 1, f, v =>
    let v := if Candidate mem op f then formed mem f else v
    if mem.IsReturn f then v else scan mem op i (mem.next f) v

/-- `struct ntptrs_t`. -/
structure NtPtrs where
  csrPortHandle : Addr
  ldrpMrdataLock : Addr

/-- `init_ntptrs`, given what `GetModuleHandleA` and `GetProcAddress` return: the result, and
`g_ntptrs`. -/
def initNtptrs (mem : Memory) (ntdll f1 f2 : Addr) : Bool × Option NtPtrs :=
  if ntdll = 0 then (false, none)
  else
    let v1 := scan mem 0x39 300 f1 0
    let v2 := scan mem 0x8d 300 f2 0
    (true, some ⟨ntdll + (v1 - ntdll), ntdll + (v2 - ntdll)⟩)

/-- The stores of `child_entry`, which faults before the first if `g_ntptrs` is null. -/
def childEntry (gNtptrs : Option NtPtrs) : Option (List Addr) :=
  gNtptrs.map fun p => [p.csrPortHandle, p.ldrpMrdataLock]

/-! ## What is asked of them -/

/-- The instructions of a function, as far as they are looked at. -/
def body (mem : Memory) : (i : ℕ) → (f : Addr) → List Addr
  | 0, _ => []
  | i + 1, f => f :: if mem.IsReturn f then [] else body mem i (mem.next f)

/-- The instruction of the function at `f` from which the address that was found is formed. -/
def assignedAt (mem : Memory) (op : Byte) (f : Addr) : Option Addr :=
  ((body mem 300 f).filter (Candidate mem op ·)).getLast?

/-- `v` is the address that a relative operand names, and it was formed from that operand. -/
def Found (mem : Memory) (op : Byte) (f v : Addr) : Prop :=
  ∃ a k, assignedAt mem op f = some a ∧ mem.IsRela op a k ∧ v = mem.target a k

/-- The function has an instruction with a relative operand. -/
def HasRela (mem : Memory) (op : Byte) (f : Addr) : Prop :=
  ∃ a ∈ body mem 300 f, ∃ k, mem.IsRela op a k

/-- Only relative operands are accepted, and it is reported when there are none. -/
structure Reports (mem : Memory) (ntdll f1 f2 : Addr) : Prop where
  /-- With `TRUE` both are found. -/
  found : (initNtptrs mem ntdll f1 f2).1 = true → ∃ p, (initNtptrs mem ntdll f1 f2).2 = some p ∧
    Found mem 0x39 f1 p.csrPortHandle ∧ Found mem 0x8d f2 p.ldrpMrdataLock
  /-- Without a relative operand in one of the functions the result is `FALSE`. -/
  notFound : ¬ HasRela mem 0x39 f1 ∨ ¬ HasRela mem 0x8d f2 →
    (initNtptrs mem ntdll f1 f2).1 = false
  /-- The child stores only through what was found. -/
  stores : ∀ l, childEntry (initNtptrs mem ntdll f1 f2).2 = some l →
    ∀ v ∈ l, Found mem 0x39 f1 v ∨ Found mem 0x8d f2 v

/-- The last instruction of the function that passes the test has a ModRM byte with `mod=00` and
`rm=101`. -/
def LastIsRela (mem : Memory) (op : Byte) (f : Addr) : Prop :=
  ∃ a, assignedAt mem op f = some a ∧
    mem.codeAt a (plen (mem.flags a) + 1) &&& 0xc7 = 0x5

/-! ## The scan -/

variable {mem : Memory} {op : Byte} {f v : Addr}

/-- **What the scan leaves is what the last candidate gives.** -/
theorem scan_eq (mem : Memory) (op : Byte) (i : ℕ) (f v : Addr) :
    scan mem op i f v =
      ((((body mem i f).filter (Candidate mem op ·)).getLast?).map (formed mem)).getD v := by
  induction i generalizing f v with
  | zero => rfl
  | succ i ih =>
    rw [scan, body, List.filter_cons]
    by_cases hreturn : mem.IsReturn f
    · rw [if_pos hreturn, if_pos hreturn]
      split_ifs with hc hc' hc'
      · rfl
      · exact absurd (decide_eq_true hc) hc'
      · exact absurd (of_decide_eq_true hc') hc
      · rfl
    · rw [if_neg hreturn, if_neg hreturn, ih]
      split_ifs with hc hc' hc'
      · rw [List.getLast?_cons]
        cases ((body mem i (mem.next f)).filter (Candidate mem op ·)).getLast? <;> rfl
      · exact absurd (decide_eq_true hc) hc'
      · exact absurd (of_decide_eq_true hc') hc
      · rfl

/-- The last candidate is in the function and passes the test. -/
theorem assignedAt_spec {a : Addr} (h : assignedAt mem op f = some a) :
    a ∈ body mem 300 f ∧ Candidate mem op a := by
  have hmem := List.mem_of_getLast? h
  rw [List.mem_filter] at hmem
  exact ⟨hmem.1, of_decide_eq_true hmem.2⟩

/-- What is found is formed at the last candidate. -/
theorem scan_eq_formed {a : Addr} (h : assignedAt mem op f = some a) :
    scan mem op 300 f 0 = formed mem a := by
  rw [assignedAt] at h
  rw [scan_eq, h]
  rfl

/-- **A candidate with the right ModRM byte is a relative operand.** -/
theorem Candidate.isRela {a : Addr} (h : Candidate mem op a) (hop : IsPlain op)
    (hmodrm : mem.codeAt a (plen (mem.flags a) + 1) &&& 0xc7 = 0x5) :
    mem.IsRela op a (plen (mem.flags a)) := by
  have hplain : IsPlain (mem.codeAt a (plen (mem.flags a))) := by
    rw [h.1]
    exact hop
  obtain ⟨hat, hvalid⟩ := Mode.OpcodeAt.of_plen hplain
  exact ⟨hat, hvalid, h.1, hmodrm⟩

/-- What is asked of one of the two functions holds when its last candidate is relative. -/
theorem found_iff (hop : IsPlain op) :
    Found mem op f (scan mem op 300 f 0) ↔ LastIsRela mem op f := by
  constructor
  · rintro ⟨a, k, hassigned, hrela, -⟩
    refine ⟨a, hassigned, ?_⟩
    rw [(hrela.measured hop).2.1]
    exact hrela.modrm
  · rintro ⟨a, hassigned, hmodrm⟩
    have hrela := (assignedAt_spec hassigned).2.isRela hop hmodrm
    refine ⟨a, _, hassigned, hrela, ?_⟩
    rw [scan_eq_formed hassigned, hrela.target_eq hop, formed]

theorem LastIsRela.hasRela (h : LastIsRela mem op f) (hop : IsPlain op) : HasRela mem op f := by
  obtain ⟨a, hassigned, hmodrm⟩ := h
  obtain ⟨hmem, hcandidate⟩ := assignedAt_spec hassigned
  exact ⟨a, hmem, _, hcandidate.isRela hop hmodrm⟩

/-- What `init_ntptrs` does when there is an `ntdll.dll`. -/
theorem initNtptrs_of_ne {ntdll : Addr} (hne : ntdll ≠ 0) (mem : Memory) (f1 f2 : Addr) :
    initNtptrs mem ntdll f1 f2 =
      (true, some ⟨scan mem 0x39 300 f1 0, scan mem 0x8d 300 f2 0⟩) := by
  have hcancel : ∀ v : Addr, ntdll + (v - ntdll) = v := by
    intro v
    bv_omega
  rw [initNtptrs, if_neg hne]
  dsimp only
  rw [hcancel, hcancel]

/-- **When `init_ntptrs` accepts relative operands only and reports failure.**  Exactly when there is
no `ntdll.dll`, or in both functions the last instruction with the opcode and more than four bytes
has a relative operand. -/
theorem reports_iff (mem : Memory) (ntdll f1 f2 : Addr) :
    Reports mem ntdll f1 f2 ↔
      ntdll = 0 ∨ (LastIsRela mem 0x39 f1 ∧ LastIsRela mem 0x8d f2) := by
  have hcmp : IsPlain 0x39 := Or.inl rfl
  have hlea : IsPlain 0x8d := Or.inr (Or.inr rfl)
  by_cases hne : ntdll = 0
  · refine ⟨fun _ => Or.inl hne, fun _ => ?_⟩
    have hinit : initNtptrs mem ntdll f1 f2 = (false, none) := if_pos hne
    constructor <;> rw [hinit]
    · intro h
      cases h
    · exact fun _ => rfl
    · intro l h
      cases h
  · rw [or_iff_right hne]
    have hinit := initNtptrs_of_ne hne mem f1 f2
    constructor
    · intro h
      obtain ⟨p, hp, hfound1, hfound2⟩ := h.found (by rw [hinit])
      rw [hinit] at hp
      obtain rfl := Option.some.inj hp
      exact ⟨(found_iff hcmp).mp hfound1, (found_iff hlea).mp hfound2⟩
    · rintro ⟨h1, h2⟩
      have hfound1 := (found_iff hcmp).mpr h1
      have hfound2 := (found_iff hlea).mpr h2
      constructor <;> rw [hinit]
      · exact fun _ => ⟨_, rfl, hfound1, hfound2⟩
      · rintro (hnot | hnot)
        · exact absurd (h1.hasRela hcmp) hnot
        · exact absurd (h2.hasRela hlea) hnot
      · intro l hl v hv
        obtain rfl := Option.some.inj hl
        rcases List.mem_cons.mp hv with rfl | hv
        · exact Or.inl hfound1
        · rw [List.mem_singleton.mp hv]
          exact Or.inr hfound2

/-- `cmp [rip+10h], rax` and a return at `0x1000`, `lea rax, [rbx+10h]` and a return at `0x2000`. -/
def twoFunctions : Memory := fun a =>
  if a < 0x2000 then [0x48, 0x39, 0x05, 0x10, 0x00, 0x00, 0x00, 0xc3].getD (a - 0x1000).toNat 0x90
  else [0x48, 0x8d, 0x83, 0x10, 0x00, 0x00, 0x00, 0xc3].getD (a - 0x2000).toNat 0x90

/-- The operand of the second function is relative to a register, and is accepted. -/
theorem twoFunctions_not_reports : ¬ Reports twoFunctions 0x10000 0x1000 0x2000 := by
  intro h
  obtain ⟨p, -, -, a, k, hassigned, hrela, -⟩ := h.found (by decide +kernel)
  have hlast : assignedAt twoFunctions 0x8d 0x2000 = some 0x2000 := by decide +kernel
  obtain rfl : 0x2000 = a := Option.some.inj (hlast.symm.trans hassigned)
  have hplen : plen (twoFunctions.flags 0x2000) = 1 := by decide +kernel
  have hk : 1 = k := hplen.symm.trans (hrela.measured (Or.inr (Or.inr rfl))).2.1
  have hmodrm := hrela.modrm
  rw [← hk] at hmodrm
  revert hmodrm
  decide

end Disasm
end UtilWin
