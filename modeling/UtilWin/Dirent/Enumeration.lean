import UtilWin.Dirent.Reclen
import UtilWin.Library.Enumeration
import Mathlib.Data.List.Forall2
import Mathlib.Order.Basic

/-!
# Enumeration loses and duplicates nothing

The position of a directory stream is spread over five places: the index into the batch, its length,
the pending-rewind flag, the records in the buffer, and the cursor the kernel keeps with the handle.
Four operations move different parts of it.

What holds them together is `Refines`.  With `k` entries handed out since the last rewinding, the
records from `ub_index` on are exactly the entries `L[k], L[k+1], …` up to the kernel's cursor
(`Pending`); while a rewinding is pending, `k` is `0` and the rest does not matter.  Every step keeps
it and is a step of the plain enumerator of `L` (`simulation`), so the stream inherits the
enumerator's one theorem, `Enumeration.delivered_eq_take`.

The contract says what is handed out without the code's own conversion: an entry `Describes` a file
of the directory.
-/

namespace UtilWin
namespace Directory

open ErrList

/-! ## What an entry says of a file -/

/-- The entry is what a caller may expect for the file. -/
structure Describes (fdi : FileInfo) (de : Dirent) : Prop where
  ino : de.dIno = fdi.fileId
  /-- The whole name, in UTF-8. -/
  name : de.dName = Utf16.toUtf8 fdi.fileName
  /-- Whatever is reached through a reparse point is a link, a directory as well. -/
  lnk : fdi.fileAttributes &&& fileAttributeReparsePoint ≠ 0 → de.dType = dtLnk
  dir : fdi.fileAttributes &&& fileAttributeReparsePoint = 0 →
    fdi.fileAttributes &&& fileAttributeDirectory ≠ 0 → de.dType = dtDir
  reg : fdi.fileAttributes &&& fileAttributeReparsePoint = 0 →
    fdi.fileAttributes &&& fileAttributeDirectory = 0 → de.dType = dtReg
  /-- The length is the first multiple of eight that has room for the name and its terminator. -/
  reclen_dvd : 8 ∣ de.dReclen.toNat
  le_reclen : offsetofDName + de.dName.length + 1 ≤ de.dReclen.toNat
  reclen_lt : de.dReclen.toNat < offsetofDName + de.dName.length + 1 + 8

/-- What `readdir` builds describes the record it is built from. -/
theorem describes_direntOf (fdi : FileInfo) : Describes fdi (direntOf fdi) where
  ino := rfl
  name := dName_direntOf fdi
  lnk h := if_pos h
  dir h h' := by rw [direntOf, if_neg (not_not.mpr h), if_pos h']
  reg h h' := by rw [direntOf, if_neg (not_not.mpr h), if_neg (not_not.mpr h')]
  reclen_dvd := by
    rw [dReclen_direntOf, alignUp]
    exact Nat.dvd_mul_left 8 _
  le_reclen := by
    rw [dReclen_direntOf, dName_direntOf]
    exact le_alignUp _
  reclen_lt := by
    rw [dReclen_direntOf, dName_direntOf, alignUp]
    omega

theorem forall₂_describes_map (l : List FileInfo) : List.Forall₂ Describes l (l.map direntOf) :=
  List.forall₂_map_right_iff.mpr (List.forall₂_same.mpr fun fdi _ => describes_direntOf fdi)

/-! ## Steps of a stream -/

/-- A stream in the world: the `DIR`, the cursor of its handle, and `errno`. -/
structure Stream where
  dir : Dir
  cursor : ℕ
  errno : Errno

/-- What the caller of `readdir` sees, from the entry or `NULL` and `errno`. -/
def readdirEvent : Option Dirent → Errno → Event Dirent Errno
  | some de, _ => .entry de
  | none, errno => if errno = 0 then .done else .failed errno

/-- What the caller of `readdir_r` sees, from the return value and `*result`. -/
def readdirREvent : Errno → Option (Option Dirent) → Event Dirent Errno
  | _, some (some de) => .entry de
  | _, some none => .done
  | ret, none => .failed ret

/-- One call on a stream over the directory with entries `L`. -/
inductive Step (rtlNtStatusToDosError : NtStatus → ℕ) (L : List FileInfo) :
    Stream → Event Dirent Errno → Stream → Prop where
  | readdir {s : Stream} {reply : Reply} {cursor : ℕ} {res : Option Dirent} {dir : Dir}
      {errno : Errno} : KernelTurn L s.dir s.cursor reply cursor →
      Directory.readdir rtlNtStatusToDosError s.dir s.errno reply = some (res, dir, errno) →
      Step rtlNtStatusToDosError L s (readdirEvent res errno) ⟨dir, cursor, errno⟩
  | readdirR {s : Stream} {reply : Reply} {cursor : ℕ} {ret : Errno}
      {result : Option (Option Dirent)} {dir : Dir} {errno : Errno} :
      KernelTurn L s.dir s.cursor reply cursor →
      Directory.readdirR rtlNtStatusToDosError s.dir s.errno reply = some (ret, result, dir, errno) →
      Step rtlNtStatusToDosError L s (readdirREvent ret result) ⟨dir, cursor, errno⟩
  | rewinddir {s : Stream} :
      Step rtlNtStatusToDosError L s .rewound ⟨Directory.rewinddir s.dir, s.cursor, s.errno⟩

/-- A stream that has just been opened: by `opendir`, whose handle is new, or by `fdopendir`, whose
handle may stand anywhere. -/
inductive Opened : Stream → Prop where
  | opendir {status : NtStatus} {calloc : Bool} {dir : Dir} {errno : Errno} :
      Directory.opendir status calloc = some dir → Opened ⟨dir, 0, errno⟩
  | fdopendir {isHandle : Bool} {attributes : Option (BitVec 32)} {calloc : Bool} {dir : Dir}
      {cursor : ℕ} {errno : Errno} :
      Directory.fdopendir isHandle attributes calloc = some dir → Opened ⟨dir, cursor, errno⟩

/-! ## The records still to be handed out -/

/-- In a batch of size `len`, the chain from index `i` on holds exactly these entries. -/
inductive Pending (len : ℕ) (buffer : ℕ → Option Record) : ℕ → List FileInfo → Prop where
  | nil {i : ℕ} : len ≤ i → Pending len buffer i []
  | cons {i : ℕ} {r : Record} {l : List FileInfo} : i < len → buffer i = some r →
      Pending len buffer (indexAfter len i r) l → Pending len buffer i (r.info :: l)

theorem batchSize_cons {p : FileInfo × ℕ} {batch : List (FileInfo × ℕ)} :
    batchSize (p :: batch) = p.2 + batchSize batch := by
  rw [batchSize, List.map_cons, List.sum_cons, batchSize]

/-- **A batch is the chain of its entries.**  The induction is on the batch, with the buffer known
from the offset of its first record on. -/
theorem pending_pack {len : ℕ} {buffer : ℕ → Option Record} (hle : len ≤ sizeofUniBuffer) :
    ∀ (batch : List (FileInfo × ℕ)) (off : ℕ), batch ≠ [] → (∀ p ∈ batch, 0 < p.2) →
      len = off + batchSize batch → (∀ i, off ≤ i → buffer i = pack off batch i) →
      Pending len buffer off (batch.map Prod.fst) := by
  intro batch
  induction batch with
  | nil => intro off hne; exact absurd rfl hne
  | cons p batch ih =>
    intro off _ hpos hlen hbuf
    obtain ⟨e, size⟩ := p
    have hsize : 0 < size := hpos (e, size) (List.mem_cons_self ..)
    rw [batchSize_cons] at hlen
    cases batch with
    | nil =>
      have hr : buffer off = some ⟨e, 0⟩ := by
        rw [hbuf off (Nat.le_refl _), pack, if_pos rfl]
      refine .cons (by dsimp only at hlen; omega) hr (.nil ?_)
      exact Nat.le_of_eq (if_pos rfl : indexAfter len off ⟨e, 0⟩ = len).symm
    | cons q batch =>
      have hr : buffer off = some ⟨e, size⟩ := by
        rw [hbuf off (Nat.le_refl _), pack, if_pos rfl]
      have hq : 0 < q.2 := hpos q (List.mem_cons_of_mem _ (List.mem_cons_self ..))
      have hlen' : len = off + (size + (q.2 + batchSize batch)) := by
        rw [hlen, batchSize_cons]
      have hbound : len ≤ 4096 := hle
      have hafter : indexAfter len off ⟨e, size⟩ = off + size := by
        rw [indexAfter, if_neg (by dsimp only; omega), Nat.mod_eq_of_lt (by dsimp only; omega)]
      refine .cons (by omega) hr ?_
      rw [hafter]
      refine ih (off + size) (by simp) (fun x hx => hpos x (List.mem_cons_of_mem _ hx)) ?_
        fun i hi => ?_
      · rw [batchSize_cons]
        omega
      · rw [hbuf i (by omega), pack, if_neg (by omega)]

/-! ## The invariant -/

/-- The stream over `L` has handed out `k` entries since the last rewinding. -/
structure Refines (L : List FileInfo) (s : Stream) (k : ℕ) : Prop where
  /-- A pending rewinding: nothing has been handed out since. -/
  rewound : s.dir.restart_ = true → k = 0
  /-- No pending rewinding: the chain holds what lies between the position and the cursor. -/
  pending : s.dir.restart_ = false →
    ∃ l, Pending s.dir.ubLen s.dir.uniBuffer s.dir.ubIndex l ∧ l <+: L.drop k ∧
      s.cursor = k + l.length

variable {L : List FileInfo} {s : Stream} {k : ℕ}

theorem Refines.of_opened (h : Opened s) : Refines L s 0 := by
  cases h with
  | @opendir status calloc dir errno hopen =>
    have hdir : dir = callocDir := by
      rw [Directory.opendir] at hopen
      split_ifs at hopen
      exact (Option.some.inj hopen).symm
    rw [hdir]
    exact ⟨fun h => absurd h Bool.false_ne_true, fun _ => ⟨[], .nil (Nat.le_refl _), List.nil_prefix, rfl⟩⟩
  | @fdopendir isHandle attributes calloc dir cursor errno hopen =>
    have hdir : dir = { callocDir with restart_ := true } := by
      cases attributes with
      | none => simp [Directory.fdopendir] at hopen
      | some a =>
        simp only [Directory.fdopendir] at hopen
        split_ifs at hopen
        exact (Option.some.inj hopen).symm
    rw [hdir]
    exact ⟨fun _ => rfl, fun h => absurd h (by simp)⟩

/-- Where a query starts: at the position. -/
theorem Refines.start_eq (h : Refines L s k) (hq : s.dir.NeedsQuery) :
    (if s.dir.restart_ then 0 else s.cursor) = k := by
  cases hr : s.dir.restart_ with
  | true => exact (h.rewound hr).symm
  | false =>
    obtain ⟨l, hl, -, hcur⟩ := h.pending hr
    have hend : s.dir.ubLen ≤ s.dir.ubIndex :=
      hq.resolve_right (by rw [hr]; exact Bool.false_ne_true)
    cases hl with
    | nil _ => exact hcur
    | cons hlt _ _ => omega

/-- **Handing out a record.**  With a chain that starts at the position, `next` succeeds, gives the
entry at the position, and leaves the chain of the rest. -/
theorem next_of_pending (dir : Dir) (errno : Errno) {cursor : ℕ} {l : List FileInfo}
    (hl : Pending dir.ubLen dir.uniBuffer dir.ubIndex l) (hne : l ≠ []) (hpre : l <+: L.drop k)
    (hcur : cursor = k + l.length) (hrestart : dir.restart_ = false) :
    ∃ de dir', dir.next = some (de, dir') ∧ (L.map direntOf)[k]? = some de ∧
      Refines L ⟨dir', cursor, errno⟩ (k + 1) := by
  cases hl with
  | nil _ => exact absurd rfl hne
  | @cons _ r l hi hr hrest =>
    obtain ⟨t, ht⟩ := hpre
    have hget : L[k]? = some r.info := by
      have h0 := congrArg (·[0]?) ht
      simp only [List.cons_append, List.getElem?_cons_zero, List.getElem?_drop, Nat.add_zero] at h0
      exact h0.symm
    have hdrop : l <+: L.drop (k + 1) := by
      refine ⟨t, ?_⟩
      have h1 := congrArg (List.drop 1) ht
      rwa [List.cons_append, List.drop_one, List.tail_cons, List.drop_drop] at h1
    refine ⟨direntOf r.info, { dir with ubIndex := indexAfter dir.ubLen dir.ubIndex r },
      ?_, ?_, ?_⟩
    · rw [Dir.next, hr, Option.map_some]
    · rw [List.getElem?_map, hget, Option.map_some]
    · refine ⟨fun h => absurd h (by simp [hrestart]), fun _ => ⟨l, ?_, hdrop, ?_⟩⟩
      · exact hrest
      · show cursor = k + 1 + l.length
        rw [hcur, List.length_cons]
        omega

/-! ## One step -/

variable {rtlNtStatusToDosError : NtStatus → ℕ}

/-- What a call of `readdir` comes to, whatever the kernel answers: the entry at the position, or the
end and the position is at the end, or a failure that leaves the position alone. -/
theorem Refines.readdir (rtlNtStatusToDosError : NtStatus → ℕ) (h : Refines L s k)
    {reply : Reply} {cursor : ℕ} (hk : KernelTurn L s.dir s.cursor reply cursor)
    (errno : Errno) :
    ∃ res dir errno', Directory.readdir rtlNtStatusToDosError s.dir errno reply =
        some (res, dir, errno') ∧
      ((∃ de, res = some de ∧ errno' = errno ∧ (L.map direntOf)[k]? = some de ∧
          ∀ e, Refines L ⟨dir, cursor, e⟩ (k + 1)) ∨
        (res = none ∧ errno' = 0 ∧ L.length ≤ k ∧ ∀ e, Refines L ⟨dir, cursor, e⟩ k) ∨
        (res = none ∧ errno' ≠ 0 ∧ dir.restart_ = s.dir.restart_ ∧
          ∀ e, Refines L ⟨dir, cursor, e⟩ k)) := by
  by_cases hq : s.dir.NeedsQuery
  · rw [KernelTurn, if_pos hq] at hk
    -- a call that hands nothing out only overwrites the buffer, which is used up or stale
    have hsame : ∀ e, (s.dir.restart_ = false → cursor = k) →
        Refines L ⟨{ s.dir with uniBuffer := reply.buffer }, cursor, e⟩ k := by
      intro e hcur
      refine ⟨h.rewound, fun hr => ⟨[], .nil ?_, List.nil_prefix, hcur hr⟩⟩
      exact hq.resolve_right (by rw [hr]; exact Bool.false_ne_true)
    rw [Directory.readdir, if_pos hq]
    cases hk with
    | @batch start batch hstart hne hpre hsize hle =>
      rw [h.start_eq hq] at hstart
      subst hstart
      have hlen : batchSize batch % 2 ^ 16 = batchSize batch := by
        have : batchSize batch ≤ 4096 := hle
        exact Nat.mod_eq_of_lt (by omega)
      have hchain : Pending (batchSize batch) (pack 0 batch) 0 (batch.map Prod.fst) :=
        pending_pack hle batch 0 hne
          (fun p hp => Nat.lt_of_lt_of_le (Nat.add_pos_left (by decide) _) (hsize p hp))
          (Nat.zero_add _).symm fun i _ => rfl
      obtain ⟨de, dir', hnext, hde, href⟩ :=
        next_of_pending ⟨false, 0, batchSize batch, pack 0 batch⟩ errno hchain (by simpa using hne)
          hpre rfl rfl
      rw [List.length_map] at href
      refine ⟨some de, dir', errno, ?_, Or.inl ⟨de, rfl, rfl, hde, fun e => ⟨href.1, href.2⟩⟩⟩
      have h1 : ¬ statusSuccess = statusNoMoreFiles := by decide
      have h2 : failed statusSuccess = false := by decide
      simp only [if_neg h1, h2, Bool.false_eq_true, if_false, hlen, hnext, Option.map_some]
    | @noMoreFiles start information buffer hstart hend =>
      rw [h.start_eq hq] at hstart
      subst hstart
      exact ⟨none, _, 0, if_pos rfl, Or.inr (Or.inl ⟨rfl, rfl, hend, fun e => hsame e fun _ => rfl⟩)⟩
    | @failure status information buffer hfailed hnomore =>
      refine ⟨none, { s.dir with uniBuffer := buffer }, _, ?_, Or.inr (Or.inr ⟨rfl,
        seterrnoFromNtStatus_ne_zero rtlNtStatusToDosError status, rfl,
        fun e => hsame e fun hr => ?_⟩)⟩
      · simp only [if_neg hnomore, hfailed, if_true]
      · have hstart := h.start_eq hq
        rwa [hr] at hstart
  · rw [KernelTurn, if_neg hq] at hk
    subst hk
    have hr : s.dir.restart_ = false := by
      cases hrestart : s.dir.restart_ with
      | true => exact absurd (Or.inr hrestart) hq
      | false => rfl
    have hlt : ¬ s.dir.ubLen ≤ s.dir.ubIndex := fun hle => hq (Or.inl hle)
    obtain ⟨l, hl, hpre, hcur⟩ := h.pending hr
    have hne : l ≠ [] := by
      rintro rfl
      cases hl with
      | nil hle => exact hlt hle
    obtain ⟨de, dir', hnext, hde, href⟩ := next_of_pending s.dir errno hl hne hpre hcur hr
    refine ⟨some de, dir', errno, ?_, Or.inl ⟨de, rfl, rfl, hde, fun e => ⟨href.1, href.2⟩⟩⟩
    rw [Directory.readdir, if_neg hq, hnext, Option.map_some]

/-- **One step.**  It is a step of the enumerator from the position, and a failure also keeps a
pending rewinding pending. -/
theorem Refines.step (h : Refines L s k) {t : Stream} {a : Event Dirent Errno}
    (hstep : Step rtlNtStatusToDosError L s a t) :
    ∃ k', Enumeration.Step (L.map direntOf) k a k' ∧ Refines L t k' ∧
      ∀ e, a = .failed e → e ≠ 0 ∧ t.dir.restart_ = s.dir.restart_ := by
  cases hstep with
  | @readdir reply cursor res dir errno hk hres =>
    obtain ⟨res', dir', errno', hres', hcases⟩ :=
      h.readdir rtlNtStatusToDosError hk s.errno
    rw [hres] at hres'
    cases hres'
    rcases hcases with ⟨de, rfl, -, hde, href⟩ | ⟨rfl, rfl, hend, href⟩ | ⟨rfl, hne, hrestart, href⟩
    · exact ⟨k + 1, .entry hde, href _, by rintro e ⟨⟩⟩
    · exact ⟨k, .done (by rwa [List.length_map]), href _, by rintro e ⟨⟩⟩
    · rw [readdirEvent, if_neg hne]
      exact ⟨k, .failed, href _, by rintro e ⟨⟩; exact ⟨hne, hrestart⟩⟩
  | @readdirR reply cursor ret result dir errno hk hres =>
    obtain ⟨res', dir', errno', hres', hcases⟩ :=
      h.readdir rtlNtStatusToDosError hk 0
    rw [Directory.readdirR, hres', Option.map_some] at hres
    have hres := Option.some.inj hres
    rcases hcases with ⟨de, rfl, rfl, hde, href⟩ | ⟨rfl, rfl, hend, href⟩ | ⟨rfl, hne, hrestart, href⟩
    · rw [if_neg (not_not.mpr rfl)] at hres
      cases hres
      exact ⟨k + 1, .entry hde, href _, by rintro e ⟨⟩⟩
    · rw [if_neg (not_not.mpr rfl)] at hres
      cases hres
      exact ⟨k, .done (by rwa [List.length_map]), href _, by rintro e ⟨⟩⟩
    · rw [if_pos hne] at hres
      cases hres
      exact ⟨k, .failed, href _, by rintro e ⟨⟩; exact ⟨hne, hrestart⟩⟩
  | rewinddir =>
    refine ⟨0, .rewound, ⟨fun _ => rfl, fun hr => ?_⟩, by rintro e ⟨⟩⟩
    exact absurd hr (by simp [Directory.rewinddir])

/-- **The stream is an enumerator of its directory.** -/
theorem simulation (rtlNtStatusToDosError : NtStatus → ℕ) (L : List FileInfo) :
    Simulation (Step rtlNtStatusToDosError L) (Enumeration.Step (L.map direntOf)) (Refines L) where
  forth := by
    intro s t a k h hstep
    obtain ⟨k', hk', ht, -⟩ := h.step hstep
    exact ⟨k', hk', ht⟩

/-! ## The contract -/

open Enumeration

/-- **Enumeration loses and duplicates nothing.**  In every run of a stream that was just opened,
what has been handed out since the last rewinding describes, one by one, the files of a prefix of the
directory.  Of the next call: whatever the kernel may answer, `readdir` and `readdir_r` find a record
where they look for one; an entry describes the file right behind that prefix; the end is reported
only when the prefix is everything; and a failure reports an `errno`, hands nothing out and leaves a
pending rewinding pending. -/
theorem enumeration_exact (rtlNtStatusToDosError : NtStatus → ℕ) (L : List FileInfo)
    {s₀ s : Stream} {tr : List (Event Dirent Errno)} (hopen : Opened s₀)
    (hrun : Run (Step rtlNtStatusToDosError L) s₀ tr s) :
    (∃ handed, handed <+: L ∧ List.Forall₂ Describes handed (delivered tr)) ∧
      (∀ reply cursor, KernelTurn L s.dir s.cursor reply cursor →
        (readdir rtlNtStatusToDosError s.dir s.errno reply).isSome ∧
          (readdirR rtlNtStatusToDosError s.dir s.errno reply).isSome) ∧
      ∀ a t, Step rtlNtStatusToDosError L s a t →
        (∀ de, a = .entry de →
          ∃ fdi, L[(delivered tr).length]? = some fdi ∧ Describes fdi de) ∧
        (a = .done → List.Forall₂ Describes L (delivered tr)) ∧
        (∀ e, a = .failed e → e ≠ 0 ∧ delivered (tr ++ [a]) = delivered tr ∧
          t.dir.restart_ = s.dir.restart_) := by
  obtain ⟨k, hrun', href⟩ := (simulation rtlNtStatusToDosError L).run (.of_opened hopen) hrun
  obtain ⟨hk, hdel⟩ := delivered_eq_take hrun'
  have hlen : (delivered tr).length = k := by
    rw [hdel, List.length_take]
    exact Nat.min_eq_left hk
  rw [List.length_map] at hk
  have hdescribes : List.Forall₂ Describes (L.take k) (delivered tr) := by
    rw [hdel, ← List.map_take]
    exact forall₂_describes_map _
  refine ⟨⟨L.take k, List.take_prefix _ _, hdescribes⟩, fun reply cursor hturn => ?_,
    fun a t hstep => ?_⟩
  · obtain ⟨_, _, _, hread, -⟩ :=
      href.readdir rtlNtStatusToDosError hturn s.errno
    obtain ⟨_, _, _, hread', -⟩ :=
      href.readdir rtlNtStatusToDosError hturn 0
    rw [readdirR, hread, hread']
    exact ⟨rfl, rfl⟩
  · obtain ⟨k', hstep', -, hfailed⟩ := href.step hstep
    refine ⟨?_, ?_, ?_⟩
    · rintro de rfl
      cases hstep' with
      | entry hde =>
        rw [List.getElem?_map, Option.map_eq_some_iff] at hde
        obtain ⟨fdi, hget, rfl⟩ := hde
        exact ⟨fdi, by rw [hlen, hget], describes_direntOf fdi⟩
    · rintro rfl
      cases hstep' with
      | done hend =>
        rw [List.length_map] at hend
        rwa [List.take_of_length_le hend] at hdescribes
    · rintro e rfl
      obtain ⟨hne, hrestart⟩ := hfailed e rfl
      exact ⟨hne, by rw [delivered_snoc]; rfl, hrestart⟩

/-- A file whose name is one letter. -/
def letterFile (c : UInt16) : FileInfo where
  fileId := 7
  fileAttributes := 0x20
  fileName := [c]
  fileName_ne := List.cons_ne_nil _ _
  fileName_le := Nat.le_add_left 1 254

/-- A stream of `fdopendir` on a handle that was left at the end of a directory with two files. -/
def leftAtEnd (errno : Errno) : Stream := ⟨{ callocDir with restart_ := true }, 2, errno⟩

/-- The stream once the first of the two files was handed out, from a batch of its own. -/
def afterFirst (errno : Errno) : Stream :=
  ⟨⟨false, 112, 112, pack 0 [(letterFile 97, 112)]⟩, 1, errno⟩

/-- The entry of the file `a`: a regular file in sixteen bytes. -/
def entryA : Dirent := ⟨7, 16, 8, [97]⟩

/-- A query that fails while the rewinding of `fdopendir` is pending, the first file, a rewinding, and
the first file again. -/
theorem enumeration_exact_fdopendir :
    ∃ handed, handed <+: [letterFile 97, letterFile 98] ∧ List.Forall₂ Describes handed
      (delivered [.failed EACCES, .entry entryA, .rewound, .entry entryA]) := by
  have hfail : Step (fun _ => 5) [letterFile 97, letterFile 98] (leftAtEnd 0) (.failed EACCES)
      (leftAtEnd EACCES) := by
    have hturn : KernelTurn [letterFile 97, letterFile 98] (leftAtEnd 0).dir 2
        ⟨0xc0000022, 0, fun _ => none⟩ 2 := by
      rw [KernelTurn, if_pos (Dir.needsQuery_of_restart rfl)]
      exact .failure rfl (by decide)
    exact .readdir hturn (show _ = some (none, (leftAtEnd EACCES).dir, EACCES) from rfl)
  have hfirst : ∀ dir cursor errno, dir.restart_ = true →
      Step (fun _ => 5) [letterFile 97, letterFile 98] ⟨dir, cursor, errno⟩
        (.entry entryA) (afterFirst errno) := by
    intro dir cursor errno hr
    have hturn : KernelTurn [letterFile 97, letterFile 98] dir cursor
        ⟨statusSuccess, 112, pack 0 [(letterFile 97, 112)]⟩ 1 := by
      rw [KernelTurn, if_pos (Dir.needsQuery_of_restart hr), hr]
      show NtQueryDirectoryFile _ _ _ ⟨_, batchSize [(letterFile 97, 112)], _⟩ (0 + 1)
      exact .batch rfl (List.cons_ne_nil _ _) ⟨[letterFile 98], rfl⟩
        (by simp [recordHeader, letterFile]) (by decide)
    have hentry : direntOf (letterFile 97) = entryA := by decide
    have hread : readdir (fun _ => 5) dir errno ⟨statusSuccess, 112, pack 0 [(letterFile 97, 112)]⟩ =
        some (some entryA, (afterFirst errno).dir, errno) := by
      rw [readdir, if_pos (Dir.needsQuery_of_restart hr), ← hentry]
      rfl
    exact Step.readdir (s := ⟨dir, cursor, errno⟩) hturn hread
  have hrun := (((Run.nil.snoc hfail).snoc (hfirst _ _ _ rfl)).snoc Step.rewinddir).snoc
    (hfirst _ _ _ rfl)
  have hopen : Opened (leftAtEnd 0) :=
    .fdopendir (show fdopendir true (some 0x10) true = some (leftAtEnd 0).dir from rfl)
  exact (enumeration_exact _ _ hopen hrun).1

end Directory
end UtilWin
