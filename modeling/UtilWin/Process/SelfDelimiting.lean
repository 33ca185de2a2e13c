import UtilWin.Process.DisasmSpec

/-!
# Instructions delimit themselves

The callers of the decoders walk over code with `p += length(p)` and nothing else: no caller knows
where an instruction ends except from the length it is told.  That is sound exactly when a length
never depends on a byte it does not count.

* `Mode.delimited`: the streams a decoder accepts, with the lengths it reports, are `Delimited`.
* `decoder_selfDelimiting`: the reads stay inside the length, the answer depends on nothing else, and
  over a concatenation of complete instructions the sweep stops at the boundaries and only there.
-/

namespace UtilWin
namespace Disasm

open Probe

namespace Mode

/-- The decoder reaches an opcode and accepts it. -/
def Decodes (m : Mode) (b : ℕ → Byte) : Prop :=
  (∃ k, m.OpcodeAt b k) ∧ ¬ Invalid (m.decoder.run b)

/-- The length the decoder reports. -/
def length (m : Mode) (b : ℕ → Byte) : ℕ := (m.decoder.run b).1

/-- A byte string that is one complete valid instruction: decoded, its length is its own size. -/
def IsInstruction (m : Mode) (s : List Byte) : Prop := IsCode m.Decodes m.length s

variable {m : Mode} {b b' : ℕ → Byte} {k : ℕ}

/-- A decoder that accepts has looked at nothing past the length it reports, the opcode included. -/
theorem OpcodeAt.lt_length (h : m.OpcodeAt b k) (hv : ¬ Invalid (m.decoder.run b)) :
    k < m.length b ∧ ∀ i ∈ m.decoder.reads b, i < m.length b := by
  rw [length, h.run_eq_stage]
  rw [h.run_eq_stage] at hv
  obtain ⟨hk, hstage⟩ := m.covers_stage k (b k) b hv
  refine ⟨hk, fun i hi => ?_⟩
  rcases h.reads_le_or_mem i hi with hle | hmem
  · exact lt_of_le_of_lt hle hk
  · exact hstage i hmem

/-- A stream that agrees as far as the reported length has its opcode at the same place. -/
theorem OpcodeAt.congr (h : m.OpcodeAt b k) (hb : ∀ i ≤ k, b' i = b i) : m.OpcodeAt b' k where
  lt_limit := h.lt_limit
  isPrefix i hi := by
    rw [hb i (Nat.le_of_lt hi)]
    exact h.isPrefix i hi
  not_isPrefix := by
    rw [hb k le_rfl]
    exact h.not_isPrefix

/-- **Accepted instructions delimit themselves.** -/
theorem delimited (m : Mode) : Delimited m.Decodes m.length where
  agree := by
    rintro b b' ⟨⟨k, hop⟩, hv⟩ hagree
    obtain ⟨hk, hreads⟩ := hop.lt_length hv
    have hrun : m.decoder.run b' = m.decoder.run b :=
      m.decoder.run_congr fun i hi => hagree i (hreads i hi)
    refine ⟨⟨⟨k, hop.congr fun i hi => hagree i (lt_of_le_of_lt hi hk)⟩, ?_⟩, ?_⟩
    · rwa [hrun]
    · rw [length, hrun, length]

/-- Spelled out and followed by nothing in particular, a string that decodes to its own size is an
instruction. -/
theorem isInstruction_of_spell {s : List Byte} (rest : ℕ → Byte) (h : m.OpcodeAt (spell s rest) k)
    (hv : ¬ Invalid (m.decoder.run (spell s rest)))
    (hn : (m.decoder.run (spell s rest)).1 = s.length) : m.IsInstruction s :=
  ⟨spell s rest, startsWith_spell s rest, ⟨⟨k, h⟩, hv⟩, hn⟩

end Mode

/-- **Self-delimiting decoding.**  When a decoder reaches an opcode and accepts it, every byte it
read lies inside the length it returns, and every stream that agrees that far gets the same length
and the same flag word.  Hence over any concatenation of complete instructions, whatever follows, the
`k`-th stop of the sweep is the boundary behind the first `k` of them. -/
theorem decoder_selfDelimiting (m : Mode) :
    (∀ (b : ℕ → Byte) (k : ℕ), m.OpcodeAt b k → ¬ Invalid (m.decoder.run b) →
      (∀ i ∈ m.decoder.reads b, i < (m.decoder.run b).1) ∧
        ∀ b' : ℕ → Byte, (∀ i < (m.decoder.run b).1, b' i = b i) →
          m.decoder.run b' = m.decoder.run b) ∧
    ∀ (L : List (List Byte)) (suffix : ℕ → Byte), (∀ s ∈ L, m.IsInstruction s) →
      ∀ k ≤ L.length,
        sweep m.length (spell L.flatten suffix) k = (L.take k).flatten.length := by
  constructor
  · intro b k hop hv
    have hreads := (hop.lt_length hv).2
    exact ⟨hreads, fun b' hb' => m.decoder.run_congr fun i hi => hb' i (hreads i hi)⟩
  · intro L suffix hL
    exact m.delimited.sweep_eq_boundary hL (startsWith_spell _ _)

/-- On `66 90` the 64-bit decoder reads two bytes, and over three of the multi-byte no-operations its
sweep takes three steps to the end. -/
theorem sweep_nops :
    (∀ i ∈ Mode.amd64.decoder.reads (spell [0x66, 0x90] fun _ => 0), i < 2) ∧
    sweep Mode.amd64.length
      (spell [[0x90], [0x66, 0x90], [0x0F, 0x1F, 0x40, 0x00]].flatten fun _ => 0) 3 = 7 := by
  constructor
  · intro i hi
    have hlen : (Mode.amd64.decoder.run (spell [0x66, 0x90] fun _ => 0)).1 = 2 := by decide +kernel
    rw [← hlen]
    exact ((decoder_selfDelimiting .amd64).1 _ 1 ⟨by decide, by decide, by decide⟩
      (by decide +kernel)).1 i hi
  · refine (decoder_selfDelimiting .amd64).2 [[0x90], [0x66, 0x90], [0x0F, 0x1F, 0x40, 0x00]]
      (fun _ => 0) ?_ 3 le_rfl
    intro s hs
    simp only [List.mem_cons, List.not_mem_nil, or_false] at hs
    rcases hs with rfl | rfl | rfl
    · exact Mode.isInstruction_of_spell (k := 0) (fun _ => 0)
        ⟨by decide, by decide, by decide⟩ (by decide +kernel) (by decide +kernel)
    · exact Mode.isInstruction_of_spell (k := 1) (fun _ => 0)
        ⟨by decide, by decide, by decide⟩ (by decide +kernel) (by decide +kernel)
    · exact Mode.isInstruction_of_spell (k := 0) (fun _ => 0)
        ⟨by decide, by decide, by decide⟩ (by decide +kernel) (by decide +kernel)

end Disasm
end UtilWin
