import Mathlib.Algebra.Group.Nat.Defs
import UtilWin.Library.Utf16
import UtilWin.Readline.Delivery

/-!
# What is typed is what is read

`add_wch` gets one UTF-16 code unit at a time and keeps a high surrogate in `m_chtmp` until its low
half comes.  In a text each low surrogate does come right after its high one, and every character
starts afresh: whatever `m_chtmp` holds, the units of a character leave its UTF-8 bytes behind
(`addWchs_encode`), so a text leaves its bytes behind however it is cut into batches.

On the way from the records to the caller the bytes only move (`Inv.order`), so what `rl_getc` has
returned, with what is still in the two queues, is the encoding of what was typed.
-/

namespace UtilWin
namespace Console

/-! ## Feeding more than one unit -/

/-- Units given to `add_wch` one at a time. -/
def addWchs (t : Keys) (buf : List UInt8) (units : List UInt16) : Keys × List UInt8 :=
  units.foldl (fun p wch => addWch p.1 p.2 wch) (t, buf)

/-- Units given in batches, with `local_buf` cleared before each of them.  The bytes are all that
were appended. -/
def addBatches (t : Keys) : List (List UInt16) → Keys × List UInt8
  | [] => (t, [])
  | batch :: batches =>
    let p := addWchs t [] batch
    let q := addBatches p.1 batches
    (q.1, p.2 ++ q.2)

variable {t : Keys} {buf : List UInt8} {wch : UInt16}

theorem addWchs_cons (t : Keys) (buf : List UInt8) (wch : UInt16) (units : List UInt16) :
    addWchs t buf (wch :: units) = addWchs (addWch t buf wch).1 (addWch t buf wch).2 units := rfl

theorem addWchs_append (t : Keys) (buf : List UInt8) (units units' : List UInt16) :
    addWchs t buf (units ++ units') =
      addWchs (addWchs t buf units).1 (addWchs t buf units).2 units' := List.foldl_append

/-- What `add_wch` appends does not depend on what is there. -/
theorem addWch_frame (t : Keys) (buf : List UInt8) (wch : UInt16) :
    addWch t buf wch = ((addWch t [] wch).1, buf ++ (addWch t [] wch).2) := by
  unfold addWch
  split_ifs <;> simp only [List.append_nil, List.nil_append]

/-- Of the keys only `m_chtmp` matters. -/
theorem addWch_congr {t' : Keys} (ht : t.mChtmp = t'.mChtmp) (buf : List UInt8) (wch : UInt16) :
    (addWch t buf wch).1.mChtmp = (addWch t' buf wch).1.mChtmp ∧
      (addWch t buf wch).2 = (addWch t' buf wch).2 := by
  unfold addWch
  rw [ht]
  split_ifs <;> first | exact ⟨rfl, rfl⟩ | exact ⟨ht, rfl⟩

theorem addWchs_frame (t : Keys) (buf : List UInt8) (units : List UInt16) :
    addWchs t buf units = ((addWchs t [] units).1, buf ++ (addWchs t [] units).2) := by
  induction units generalizing t buf with
  | nil => rw [addWchs, addWchs, List.foldl_nil, List.foldl_nil, List.append_nil]
  | cons wch units ih =>
    rw [addWchs_cons, addWchs_cons, ih, ih (addWch t [] wch).1 (addWch t [] wch).2,
      addWch_frame t buf wch, List.append_assoc]

/-- Batches do not matter. -/
theorem addBatches_eq (t : Keys) (batches : List (List UInt16)) :
    addBatches t batches = addWchs t [] batches.flatten := by
  induction batches generalizing t with
  | nil => rfl
  | cons batch batches ih =>
    rw [addBatches, ih, List.flatten_cons, addWchs_append, addWchs_frame _ (addWchs t [] batch).2]

/-! ## The bytes of one unit -/

/-- Shifting an `int` that is not negative. -/
theorem toNat_sshiftRight {x : BitVec 32} (hx : x.toNat < 2 ^ 31) (k : ℕ) :
    (x.sshiftRight k).toNat = x.toNat / 2 ^ k := by
  have hmsb : x.msb = false := by
    rw [BitVec.msb_eq_false_iff_two_mul_lt]
    omega
  rw [BitVec.sshiftRight_eq_of_msb_false hmsb, BitVec.toNat_ushiftRight, Nat.shiftRight_eq_div_pow]

/-- A byte that leads: the marks above, the topmost bits of the value below. -/
theorem char_lead {x : BitVec 32} {a : ℕ} (m i : ℕ) (hx : x.toNat = a) (ha : a < 2 ^ i)
    (hm : 2 ^ i * m < 256) : char (BitVec.ofNat 32 (2 ^ i * m) ||| x) = UInt8.ofNat (a + 2 ^ i * m) := by
  have hlead : 2 ^ i * m < 2 ^ 32 := by omega
  have hor : (BitVec.ofNat 32 (2 ^ i * m) ||| x).toNat = 2 ^ i * m + a := by
    rw [BitVec.toNat_or, BitVec.toNat_ofNat, Nat.mod_eq_of_lt hlead, hx,
      Nat.two_pow_add_eq_or_of_lt ha]
  rw [← UInt8.toNat_inj, char, UInt8.toNat_ofNat', Nat.add_comm a, ← hor]
  exact BitVec.toNat_setWidth 8 _

/-- A byte that continues. -/
theorem char_cont {x : BitVec 32} {n : ℕ} (hx : x.toNat = n) :
    char (0x80 ||| (x &&& 0x3f)) = UInt8.ofNat (n % 0x40 + 0x80) := by
  refine char_lead 2 6 ?_ (Nat.mod_lt n (by decide)) (by decide)
  rw [BitVec.toNat_and, hx]
  exact Nat.and_two_pow_sub_one_eq_mod n 6

theorem toNat_int (u : UInt16) : (int u).toNat = u.toNat := by
  have hlt := u.toNat_lt
  rw [int, BitVec.toNat_setWidth]
  exact Nat.mod_eq_of_lt (by change u.toNat < _; omega)

/-- A unit that is no surrogate is encoded. -/
theorem addWch_unit (t : Keys) (buf : List UInt8) (hne : wch ≠ 0) (hhigh : ¬ Utf16.IsHigh wch)
    (hlow : ¬ Utf16.IsLow wch) :
    (addWch t buf wch).2 = buf ++ String.utf8EncodeChar (Utf16.unitChar wch) := by
  have hlt := wch.toNat_lt
  have hint := toNat_int wch
  have hchar : (Utf16.unitChar wch).val.toNat = wch.toNat := Utf16.toNat_unitChar hhigh hlow
  unfold addWch String.utf8EncodeChar
  rw [if_neg hne, hchar]
  by_cases h1 : wch ≤ 0x7f
  · have h1' : wch.toNat ≤ 0x7f := UInt16.le_iff_toNat_le.mp h1
    rw [if_pos h1, if_pos h1']
    have hbyte : char (int wch) = UInt8.ofNat wch.toNat := by
      rw [← UInt8.toNat_inj, char, UInt8.toNat_ofNat', ← hint]
      exact BitVec.toNat_setWidth 8 _
    rw [hbyte]
  have h1' : ¬ wch.toNat ≤ 0x7f := fun h => h1 (UInt16.le_iff_toNat_le.mpr h)
  rw [if_neg h1, if_neg h1']
  have hcont : ∀ k, char (0x80 ||| ((int wch).sshiftRight k &&& 0x3f)) =
      UInt8.ofNat (wch.toNat / 2 ^ k % 0x40 + 0x80) := fun k =>
    char_cont (by rw [toNat_sshiftRight (by omega), hint])
  by_cases h2 : wch ≤ 0x7ff
  · have h2' : wch.toNat ≤ 0x7ff := UInt16.le_iff_toNat_le.mp h2
    rw [if_pos h2, if_pos h2', char_cont hint]
    have hlead := char_lead 6 5 (toNat_sshiftRight (x := int wch) (by omega) 6)
      (by rw [hint]; omega) (by decide)
    rw [hint] at hlead
    have hmod : wch.toNat / 64 % 0x20 = wch.toNat / 64 := Nat.mod_eq_of_lt (by omega)
    rw [hmod]
    exact congrArg (fun b => buf ++ [b, _]) hlead
  have h2' : ¬ wch.toNat ≤ 0x7ff := fun h => h2 (UInt16.le_iff_toNat_le.mpr h)
  have h3' : wch.toNat ≤ 0xffff := by omega
  have hhigh' : ¬ (0xd800 ≤ wch ∧ wch < 0xdc00) := hhigh
  have hlow' : ¬ (0xdc00 ≤ wch ∧ wch ≤ 0xdfff) := hlow
  rw [if_neg h2, if_neg hhigh', if_neg hlow', if_neg h2', if_pos h3', char_cont hint, hcont 6]
  have hlead := char_lead 14 4 (toNat_sshiftRight (x := int wch) (by omega) 12)
    (by rw [hint]; omega) (by decide)
  rw [hint] at hlead
  have hmod : wch.toNat / 4096 % 0x10 = wch.toNat / 4096 := Nat.mod_eq_of_lt (by omega)
  rw [hmod]
  exact congrArg (fun b => buf ++ [b, _, _]) hlead

/-- Surrogates are past the first three branches. -/
theorem past_of_surrogate (hle : 0xd800 ≤ wch.toNat) :
    wch ≠ 0 ∧ ¬ wch ≤ 0x7f ∧ ¬ wch ≤ 0x7ff := by
  rw [UInt16.le_iff_toNat_le, UInt16.le_iff_toNat_le, Nat.not_le, Nat.not_le]
  refine ⟨?_, Nat.lt_of_lt_of_le (by decide) hle, Nat.lt_of_lt_of_le (by decide) hle⟩
  rintro rfl
  exact absurd hle (by decide)

/-- A high surrogate waits. -/
theorem addWch_high (t : Keys) (buf : List UInt8) (hhigh : Utf16.IsHigh wch) :
    addWch t buf wch = ({ t with mChtmp := wch }, buf) := by
  obtain ⟨hne, h1, h2⟩ := past_of_surrogate ((Utf16.isHigh_iff wch).mp hhigh).1
  have hhigh' : 0xd800 ≤ wch ∧ wch < 0xdc00 := hhigh
  unfold addWch
  rw [if_neg hne, if_neg h1, if_neg h2, if_pos hhigh']

/-- The value that a low surrogate is given. -/
def wch2 (mChtmp wch : UInt16) : BitVec 32 :=
  0x10000 + ((int mChtmp - 0xd800) <<< 10) + (int wch - 0xdc00)

/-- A low surrogate gives four bytes, whatever `m_chtmp` is. -/
theorem addWch_low (t : Keys) (buf : List UInt8) (hlow : Utf16.IsLow wch) :
    addWch t buf wch = ({ t with mChtmp := 0 },
      buf ++ [char (0xf0 ||| (wch2 t.mChtmp wch).sshiftRight 18),
        char (0x80 ||| ((wch2 t.mChtmp wch).sshiftRight 12 &&& 0x3f)),
        char (0x80 ||| ((wch2 t.mChtmp wch).sshiftRight 6 &&& 0x3f)),
        char (0x80 ||| (wch2 t.mChtmp wch &&& 0x3f))]) := by
  have hle := ((Utf16.isLow_iff wch).mp hlow).1
  obtain ⟨hne, h1, h2⟩ := past_of_surrogate (Nat.le_trans (by decide) hle)
  have hhigh' : ¬ (0xd800 ≤ wch ∧ wch < 0xdc00) := fun h =>
    Nat.not_lt_of_le hle (UInt16.lt_iff_toNat_lt.mp h.2)
  have hlow' : 0xdc00 ≤ wch ∧ wch ≤ 0xdfff := hlow
  unfold addWch
  rw [if_neg hne, if_neg h1, if_neg h2, if_neg hhigh', if_pos hlow']
  rfl

/-- The value that a pair has. -/
theorem toNat_wch2 {mChtmp : UInt16} (hhigh : Utf16.IsHigh mChtmp) (hlow : Utf16.IsLow wch) :
    (wch2 mChtmp wch).toNat =
      0x10000 + (mChtmp.toNat - 0xd800) * 0x400 + (wch.toNat - 0xdc00) := by
  rw [Utf16.isHigh_iff] at hhigh
  rw [Utf16.isLow_iff] at hlow
  have h1 : ((0x10000 : ℕ) : BitVec 32).toNat = 0x10000 := rfl
  have hd8 : (0xd800 : BitVec 32).toNat = 0xd800 := rfl
  have hdc : (0xdc00 : BitVec 32).toNat = 0xdc00 := rfl
  have hhead : (int mChtmp - 0xd800).toNat = mChtmp.toNat - 0xd800 := by
    rw [BitVec.toNat_sub, toNat_int, hd8]
    omega
  have htail : (int wch - 0xdc00).toNat = wch.toNat - 0xdc00 := by
    rw [BitVec.toNat_sub, toNat_int, hdc]
    omega
  have hshift : ((int mChtmp - 0xd800) <<< 10).toNat = (mChtmp.toNat - 0xd800) * 0x400 := by
    rw [BitVec.toNat_shiftLeft, hhead, Nat.shiftLeft_eq]
    omega
  have hfirst : (((0x10000 : ℕ) : BitVec 32) + ((int mChtmp - 0xd800) <<< 10)).toNat =
      0x10000 + (mChtmp.toNat - 0xd800) * 0x400 := by
    rw [BitVec.toNat_add_of_lt (by rw [h1, hshift]; omega), h1, hshift]
  unfold wch2
  rw [BitVec.toNat_add_of_lt (by rw [hfirst, htail]; omega), hfirst, htail]

/-- **A pair is encoded.** -/
theorem addWch_pair (buf : List UInt8) (hhigh : Utf16.IsHigh t.mChtmp) (hlow : Utf16.IsLow wch) :
    (addWch t buf wch).2 = buf ++ String.utf8EncodeChar (Utf16.pairChar t.mChtmp wch) := by
  obtain ⟨n, hn⟩ : ∃ n, n = (Utf16.pairChar t.mChtmp wch).val.toNat := ⟨_, rfl⟩
  have hchar : n = 0x10000 + (t.mChtmp.toNat - 0xd800) * 0x400 + (wch.toNat - 0xdc00) :=
    hn.trans (Utf16.toNat_pairChar hhigh hlow)
  have hwch2 : (wch2 t.mChtmp wch).toNat = n := (toNat_wch2 hhigh hlow).trans hchar.symm
  rw [addWch_low t buf hlow]
  rw [Utf16.isHigh_iff] at hhigh
  rw [Utf16.isLow_iff] at hlow
  have hle : 0x10000 ≤ n := by omega
  have hlt : n < 0x110000 := by omega
  have hcont : ∀ k, char (0x80 ||| ((wch2 t.mChtmp wch).sshiftRight k &&& 0x3f)) =
      UInt8.ofNat (n / 2 ^ k % 0x40 + 0x80) := fun k =>
    char_cont (by rw [toNat_sshiftRight (by omega), hwch2])
  have hlead := char_lead 30 3 (toNat_sshiftRight (x := wch2 t.mChtmp wch) (by omega) 18)
    (by rw [hwch2]; omega) (by decide)
  rw [hwch2] at hlead
  have hmod : n / 262144 % 0x08 = n / 262144 := Nat.mod_eq_of_lt (by omega)
  unfold String.utf8EncodeChar
  rw [← hn, if_neg (by omega), if_neg (by omega), if_neg (by omega), char_cont hwch2, hcont 6,
    hcont 12, hmod]
  exact congrArg (fun b => buf ++ [b, _, _, _]) hlead

/-! ## Texts -/

/-- **A character leaves its bytes behind**, whatever `m_chtmp` was. -/
theorem addWchs_encode (t : Keys) (buf : List UInt8) {c : Char} (hc : c ≠ '\x00') :
    (addWchs t buf (Utf16.encode c)).2 = buf ++ String.utf8EncodeChar c := by
  rcases Utf16.encode_spec c with ⟨u, henc, hhigh, hlow, huc⟩ | ⟨u, v, henc, hhigh, hlow, huv⟩
  · have hne : u ≠ 0 := by
      rintro rfl
      exact hc huc.symm
    have happ := addWch_unit t buf hne hhigh hlow
    rw [huc] at happ
    rw [henc]
    exact happ
  · have hpair := addWch_pair (t := { t with mChtmp := u }) buf hhigh hlow
    rw [huv] at hpair
    rw [henc, addWchs_cons, addWch_high t buf hhigh]
    exact hpair

/-- **A text leaves its bytes behind.** -/
theorem addWchs_text (t : Keys) (buf : List UInt8) {chars : List Char}
    (hnul : ∀ c ∈ chars, c ≠ '\x00') :
    (addWchs t buf (chars.flatMap Utf16.encode)).2 =
      buf ++ chars.flatMap String.utf8EncodeChar := by
  induction chars generalizing t buf with
  | nil => exact (List.append_nil buf).symm
  | cons c chars ih =>
    rw [List.flatMap_cons, List.flatMap_cons, addWchs_append,
      ih _ _ fun c' hc' => hnul c' (List.mem_cons_of_mem c hc'),
      addWchs_encode t buf (hnul c List.mem_cons_self), List.append_assoc]

/-! ## From the records on -/

/-- The unit that a record types.  A key that stands for no character comes with a zero. -/
def InputRecord.unit : InputRecord → Option UInt16
  | .keyEvent ker =>
    if ker.bKeyDown ∧ ker.wVirtualKeyCode ≠ vkControl ∧ ker.wVirtualKeyCode ≠ vkShift ∧
        ker.unicodeChar ≠ 0 then some ker.unicodeChar
    else none
  | _ => none

/-- The units that the records read so far type. -/
def typed (tr : List Label) : List UInt16 :=
  tr.flatMap fun
    | .read ir => ir.filterMap InputRecord.unit
    | _ => []

theorem typed_snoc (tr : List Label) (a : Label) : typed (tr ++ [a]) = typed tr ++ typed [a] :=
  List.flatMap_append

namespace State

variable (s : State)

/-- The records that the reader has still to look at. -/
def rest : List InputRecord :=
  match s.readerPc with
  | .translating rest _ => rest
  | .reading | .signalling => []

/-- What the reader has in `local_buf` for `m_buf`. -/
def localBuf : List UInt8 :=
  match s.readerPc with
  | .translating _ localBuf => localBuf
  | .reading | .signalling => []

end State

/-- A record does what its unit does. -/
theorem onKey_eq (t : Keys) (buf : List UInt8) (ker : KeyEventRecord) :
    (onKey t buf ker).1.mChtmp =
        (addWchs t buf (InputRecord.keyEvent ker).unit.toList).1.mChtmp ∧
      (onKey t buf ker).2 = (addWchs t buf (InputRecord.keyEvent ker).unit.toList).2 := by
  obtain ⟨down, vk, unicodeChar⟩ := ker
  unfold onKey InputRecord.unit
  cases down with
  | false =>
    have hnone : ¬ (false = true ∧ vk ≠ vkControl ∧ vk ≠ vkShift ∧ unicodeChar ≠ 0) :=
      fun h => by cases h.1
    simp only [if_neg hnone, Bool.not_false, if_true]
    split_ifs <;> exact ⟨rfl, rfl⟩
  | true =>
    simp only [Bool.not_true, Bool.false_eq_true, if_false, true_and]
    by_cases hcontrol : vk = vkControl
    · rw [if_pos hcontrol, if_neg fun h => h.1 hcontrol]
      exact ⟨rfl, rfl⟩
    by_cases hshift : vk = vkShift
    · rw [if_neg hcontrol, if_pos hshift, if_neg fun h => h.2.1 hshift]
      exact ⟨rfl, rfl⟩
    rw [if_neg hcontrol, if_neg hshift]
    by_cases hzero : unicodeChar = 0
    · rw [if_neg fun h => h.2.2 hzero, hzero]
      exact ⟨rfl, rfl⟩
    · rw [if_pos ⟨hcontrol, hshift, hzero⟩]
      exact ⟨rfl, rfl⟩

theorem addWchs_congr {t' : Keys} (ht : t.mChtmp = t'.mChtmp) (buf : List UInt8)
    (units : List UInt16) :
    (addWchs t buf units).1.mChtmp = (addWchs t' buf units).1.mChtmp ∧
      (addWchs t buf units).2 = (addWchs t' buf units).2 := by
  induction units generalizing t t' buf with
  | nil => exact ⟨ht, rfl⟩
  | cons wch units ih =>
    obtain ⟨hkeys, hbuf⟩ := addWch_congr ht buf wch
    rw [addWchs_cons, addWchs_cons, hbuf]
    exact ih hkeys _

/-- What holds after the trace `tr`: of the units typed, those in front of what the reader still has
in its hand have been given to `add_wch`, and it left what was appended and what is in
`local_buf`. -/
def Fed (mChtmp : UInt16) (tr : List Label) (s : State) : Prop :=
  ∃ fed, typed tr = fed ++ s.rest.filterMap InputRecord.unit ∧
    s.keys.mChtmp = (addWchs ⟨mChtmp, false, false⟩ [] fed).1.mChtmp ∧
    appended tr ++ s.localBuf = (addWchs ⟨mChtmp, false, false⟩ [] fed).2

variable {mChtmp : UInt16} {tr : List Label} {s s' : State} {a : Label}

/-- A step that reads and appends nothing and leaves the reader with what it has in its hand. -/
theorem Fed.of_same (h : Fed mChtmp tr s) (htyped : typed [a] = []) (happ : appended [a] = [])
    (hrest : s'.rest = s.rest) (hbuf : s'.localBuf = s.localBuf) (hkeys : s'.keys = s.keys) :
    Fed mChtmp (tr ++ [a]) s' := by
  obtain ⟨fed, hunits, hchtmp, hbytes⟩ := h
  refine ⟨fed, ?_, ?_, ?_⟩
  · rw [typed_snoc, htyped, List.append_nil, hunits, hrest]
  · rw [hkeys, hchtmp]
  · rw [appended_snoc, happ, List.append_nil, ← hbytes, hbuf]

/-- A step that leaves the reader where it is. -/
theorem Fed.of_frame (h : Fed mChtmp tr s) (htyped : typed [a] = []) (happ : appended [a] = [])
    (hpc : s'.readerPc = s.readerPc) (hkeys : s'.keys = s.keys) : Fed mChtmp (tr ++ [a]) s' := by
  refine h.of_same htyped happ ?_ ?_ hkeys
  · rw [State.rest, State.rest, hpc]
  · rw [State.localBuf, State.localBuf, hpc]

/-- One record of the loop over the records. -/
theorem Fed.onRecord {r : InputRecord} {rest : List InputRecord} {localBuf : List UInt8}
    (h : Fed mChtmp tr s) (hpc : s.readerPc = .translating (r :: rest) localBuf) :
    Fed mChtmp (tr ++ [.silent]) (s.onRecord rest localBuf r) := by
  obtain ⟨fed, hunits, hchtmp, hbytes⟩ := h
  rw [State.rest, hpc] at hunits
  rw [State.localBuf, hpc] at hbytes
  have hsilent : typed (tr ++ [.silent]) = typed tr := by
    rw [typed_snoc]
    exact List.append_nil _
  have hquiet : appended (tr ++ [.silent]) = appended tr := by
    rw [appended_snoc]
    exact List.append_nil _
  have hother : r.unit = none → (s.onRecord rest localBuf r).keys = s.keys →
      (s.onRecord rest localBuf r).readerPc = .translating rest localBuf →
      Fed mChtmp (tr ++ [.silent]) (s.onRecord rest localBuf r) := by
    intro hunit hkeys hpc'
    refine ⟨fed, ?_, by rw [hkeys, hchtmp], ?_⟩
    · rw [hsilent, State.rest, hpc', hunits]
      exact congrArg (fed ++ ·) (List.filterMap_cons_none hunit)
    · rw [hquiet, State.localBuf, hpc']
      exact hbytes
  cases r with
  | keyEvent ker =>
    obtain ⟨hkeys, hbuf⟩ := onKey_eq s.keys localBuf ker
    obtain ⟨hkeys', hbuf'⟩ :=
      addWchs_congr hchtmp (appended tr ++ localBuf) (InputRecord.keyEvent ker).unit.toList
    refine ⟨fed ++ (InputRecord.keyEvent ker).unit.toList, ?_, ?_, ?_⟩
    · rw [hsilent, hunits, List.append_assoc]
      refine congrArg (fed ++ ·) ?_
      show List.filterMap _ (InputRecord.keyEvent ker :: rest) = _
      cases hunit : (InputRecord.keyEvent ker).unit with
      | none => exact List.filterMap_cons_none hunit
      | some unit => exact List.filterMap_cons_some hunit
    · rw [addWchs_append, ← hbytes, ← hkeys', addWchs_frame _ (appended tr ++ localBuf)]
      show (onKey s.keys localBuf ker).1.mChtmp = _
      rw [hkeys, addWchs_frame]
    · rw [addWchs_append, ← hbytes, ← hbuf', addWchs_frame _ (appended tr ++ localBuf), hquiet]
      show appended tr ++ (onKey s.keys localBuf ker).2 = _
      rw [hbuf, addWchs_frame, List.append_assoc]
  | windowBufferSizeEvent => exact hother rfl rfl rfl
  | mouseEvent => exact hother rfl rfl rfl
  | menuEvent => exact hother rfl rfl rfl
  | focusEvent => exact hother rfl rfl rfl

/-- **One step.** -/
theorem Fed.step (h : Fed mChtmp tr s) (hstep : Step s a s') : Fed mChtmp (tr ++ [a]) s' := by
  cases hstep with
  | @readConsoleInput ir hpc _ =>
    obtain ⟨fed, hunits, hchtmp, hbytes⟩ := h
    rw [State.rest, hpc] at hunits
    rw [State.localBuf, hpc] at hbytes
    have htyped : typed [Label.read ir] = ir.filterMap InputRecord.unit := List.append_nil _
    have hquiet : appended [Label.read ir] = [] := rfl
    refine ⟨fed, ?_, hchtmp, ?_⟩
    · rw [typed_snoc, htyped, hunits, List.filterMap_nil, List.append_nil]
      rfl
    · rw [appended_snoc, hquiet, List.append_nil]
      exact hbytes
  | onRecord hpc => exact h.onRecord hpc
  | nothing hpc =>
    refine h.of_same rfl rfl ?_ ?_ rfl
    · rw [State.rest, State.rest, hpc]
    · rw [State.localBuf, State.localBuf, hpc]
  | @append localBuf hpc _ =>
    obtain ⟨fed, hunits, hchtmp, hbytes⟩ := h
    rw [State.rest, hpc] at hunits
    rw [State.localBuf, hpc] at hbytes
    have happ : appended [Label.append localBuf] = localBuf := List.append_nil _
    refine ⟨fed, ?_, hchtmp, ?_⟩
    · rw [typed_snoc]
      exact (List.append_nil _).trans hunits
    · rw [appended_snoc, happ, ← hbytes]
      exact List.append_nil _
  | setEvent hpc =>
    refine h.of_same rfl rfl ?_ ?_ rfl
    · rw [State.rest, State.rest, hpc]
    · rw [State.localBuf, State.localBuf, hpc]
  | call _ | isBroken _ _ | nonempty _ _ _ | empty _ _ _ | moved _ _ | movedNothing _ _
  | popFront _ _ | wait _ | signalled _ _ | timedOut _ | getStdinNb _ | alarm _ =>
    exact h.of_frame rfl rfl rfl rfl

/-- **What is typed is what is read.**  The units of a text without NUL, in batches of whatever sizes
and with whatever in `m_chtmp`, are turned into the UTF-8 bytes of the text.  So whenever the records
read so far hold a text and the reader is through with them, decoding what `rl_getc` has returned,
`m_pub_buf` and `m_buf` gives the text. -/
theorem typed_text_exact {chars : List Char} (hnul : ∀ c ∈ chars, c ≠ '\x00') :
    (∀ (t : Keys) (batches : List (List UInt16)),
        batches.flatten = chars.flatMap Utf16.encode →
          (addBatches t batches).2 = chars.flatMap String.utf8EncodeChar) ∧
      ∀ (mChtmp : UInt16) (nextStop : ℤ) (tr : List Label) (s : State),
        Run Step (.init mChtmp nextStop) tr s → typed tr = chars.flatMap Utf16.encode →
        s.rest = [] → s.localBuf = [] →
          (returned tr ++ s.mPubBuf ++ s.mBuf).toByteArray.utf8Decode? = some chars.toArray := by
  refine ⟨fun t batches hunits => ?_, fun mChtmp nextStop tr s hrun htext hrest hlocal => ?_⟩
  · rw [addBatches_eq, hunits, addWchs_text t [] hnul, List.nil_append]
  · have hinv : Inv tr s := hrun.invariant (.init mChtmp nextStop) fun h hstep => h.step hstep
    have hstart : Fed mChtmp [] (.init mChtmp nextStop) := ⟨[], rfl, rfl, rfl⟩
    have hfed : Fed mChtmp tr s := hrun.invariant hstart fun h hstep => h.step hstep
    obtain ⟨fed, hunits, -, hbytes⟩ := hfed
    rw [hrest, List.filterMap_nil, List.append_nil, htext] at hunits
    rw [hlocal, List.append_nil, ← hunits, addWchs_text _ [] hnul, List.nil_append] at hbytes
    rw [hinv.order, hbytes]
    exact List.utf8Decode?_utf8Encode

/-- An emoji comes as two key events, and `m_chtmp` holds a high surrogate from before. -/
theorem typed_text_exact_pair :
    (addBatches ⟨0xdbff, false, false⟩ [[0xd83d], [0xde00]]).2 = [0xf0, 0x9f, 0x98, 0x80] ∧
      ∃ tr s, Run Step (.init 0xdbff 0) tr s ∧
        typed tr = ['😀'].flatMap Utf16.encode ∧
        (returned tr ++ s.mPubBuf ++ s.mBuf).toByteArray.utf8Decode? = some #['😀'] := by
  have hnul : ∀ c ∈ ['😀'], c ≠ '\x00' := by
    intro c hc
    rw [List.mem_singleton.mp hc]
    decide
  obtain ⟨hbatches, hruns⟩ := typed_text_exact hnul
  refine ⟨hbatches _ [[0xd83d], [0xde00]] rfl, ?_⟩
  have hstart : Run Step (.init 0xdbff 0) [] (.init 0xdbff 0) := .nil
  have hread := hstart.snoc (@Step.readConsoleInput _
    [.keyEvent ⟨true, 0xe7, 0xd83d⟩, .keyEvent ⟨true, 0xe7, 0xde00⟩] rfl (by decide))
  have htranslated := (hread.snoc (Step.onRecord rfl)).snoc (Step.onRecord rfl)
  have happended := htranslated.snoc (Step.append rfl (List.cons_ne_nil _ _))
  exact ⟨_, _, happended, rfl, hruns _ _ _ _ happended rfl rfl rfl⟩

end Console
end UtilWin
