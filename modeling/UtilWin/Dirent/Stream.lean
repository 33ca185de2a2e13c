import UtilWin.Library.Utf16
import UtilWin.Misc.ErrList
import Mathlib.Algebra.GroupWithZero.Nat

/-!
# Directory streams

A `DIR` reads a directory a batch at a time.  `NtQueryDirectoryFile` fills `uni_buffer` with a chain
of records, each naming the offset of the next, and `readdir` walks the chain, turning one record
into a `struct dirent` per call; when the chain is used up, or a rewinding is pending, it asks for
another batch.

Each of `readdir`, `readdir_r` and `rewinddir` is one step here, because the last two run under the
lock of the stream and `readdir` is for callers that have it to themselves.  What the kernel answers
is a parameter of the step (`Reply`); what it may answer is the relation `NtQueryDirectoryFile`, a
cursor over a fixed list of entries.

`uni_buffer` is kept as the records it holds by their offsets.  A walk that left the chain would find
no record; `readdir` is undefined there, and that it never happens is part of what is proved.
-/

namespace UtilWin
namespace Directory

open ErrList

/-! ## Entries and records -/

/-- What `readdir` looks at in a `FILE_ID_BOTH_DIR_INFORMATION`.  A file name has between 1 and 255
code units. -/
structure FileInfo where
  fileId : BitVec 64
  fileAttributes : BitVec 32
  fileName : List UInt16
  fileName_ne : fileName ≠ []
  fileName_le : fileName.length ≤ 255

/-- A record in the buffer: an entry and the offset of the next record, counted from this one. -/
structure Record where
  info : FileInfo
  nextEntryOffset : ℕ

/-- `struct dirent`, with the name up to its terminator. -/
structure Dirent where
  dIno : BitVec 64
  dReclen : BitVec 16
  dType : BitVec 8
  dName : List UInt8
  deriving DecidableEq

/-- `offsetof(struct dirent, d_name)`: behind eight bytes of `d_ino`, two of `d_reclen` and one of
`d_type`. -/
def offsetofDName : ℕ := 8 + 2 + 1

/-- `sizeof d_name`. -/
def sizeofDName : ℕ := 256 + 5

/-- `sizeof(struct dirent)`, which the alignment of `d_ino` does not enlarge. -/
def sizeofDirent : ℕ := offsetofDName + sizeofDName

/-- `sizeof dir->abuf`, where the stream builds its entry. -/
def sizeofAbuf : ℕ := 1024

/-- `sizeof dir->uni_buffer`. -/
def sizeofUniBuffer : ℕ := 4096

def fileAttributeDirectory : BitVec 32 := 0x10
def fileAttributeReparsePoint : BitVec 32 := 0x400

def dtDir : BitVec 8 := 4
def dtReg : BitVec 8 := 8
def dtLnk : BitVec 8 := 10

/-- `WideCharToMultiByte(CP_UTF8, ..)` into a buffer of `size` bytes: the number of bytes written and
the bytes, or `0` when the buffer is too small. -/
def wideCharToMultiByte (s : List UInt16) (size : ℕ) : ℕ × List UInt8 :=
  if (Utf16.toUtf8 s).length ≤ size then ((Utf16.toUtf8 s).length, Utf16.toUtf8 s) else (0, [])

/-- `(n + 7) & ~7`. -/
def alignUp (n : ℕ) : ℕ := (n + 7) / 8 * 8

/-- The size of the buffer that `readdir` offers for a name. -/
def nameRoom : ℕ := sizeofAbuf - 1 - offsetofDName

/-- The entry that `readdir` builds in `abuf`. -/
def direntOf (fdi : FileInfo) : Dirent :=
  let dType := if fdi.fileAttributes &&& fileAttributeDirectory ≠ 0 then dtDir else dtReg
  let dType := if fdi.fileAttributes &&& fileAttributeReparsePoint ≠ 0 then dtLnk else dType
  let q := wideCharToMultiByte fdi.fileName nameRoom
  let dReclen := BitVec.ofNat 16 (sizeofDirent - sizeofDName + q.1 + 1)
  { dIno := fdi.fileId
    dReclen := BitVec.ofNat 16 (alignUp dReclen.toNat)
    dType := dType
    dName := q.2 }

/-! ## The stream -/

/-- `struct __dirstream`, less the handle, whose cursor is the kernel's, and the lock. -/
structure Dir where
  restart_ : Bool
  ubIndex : ℕ
  ubLen : ℕ
  uniBuffer : ℕ → Option Record

/-- What `calloc` makes of a `Dir`. -/
def callocDir : Dir where
  restart_ := false
  ubIndex := 0
  ubLen := 0
  uniBuffer _ := none

/-- `opendir`, from the status of `NtCreateFile` and whether `calloc` succeeds. -/
def opendir (status : NtStatus) (calloc : Bool) : Option Dir :=
  if failed status then none
  else if calloc then some callocDir
  else none

/-- `fdopendir`, from whether the handle is one, the attributes that `GetFileInformationByHandle`
reports for it, and whether `calloc` succeeds.  The handle may have been read from before, so the
first query starts over. -/
def fdopendir (isHandle : Bool) (attributes : Option (BitVec 32)) (calloc : Bool) : Option Dir :=
  if !isHandle then none
  else
    match attributes with
    | none => none
    | some a =>
      if a = 0xffffffff ∨ a &&& fileAttributeDirectory = 0 then none
      else if calloc then some { callocDir with restart_ := true }
      else none

/-- The kernel's answer to a query: the status, `Information`, and the records now in the buffer. -/
structure Reply where
  status : NtStatus
  information : ℕ
  buffer : ℕ → Option Record

def statusSuccess : NtStatus := 0
def statusNoMoreFiles : NtStatus := 0x80000006

/-- Where the record behind `r`, which stands at `i` in a batch of size `len`, starts: at the next of
the chain, or at the end of the batch. -/
def indexAfter (len i : ℕ) (r : Record) : ℕ :=
  if r.nextEntryOffset = 0 then len else (i + r.nextEntryOffset) % 2 ^ 16

namespace Dir

variable (dir : Dir)

/-- `readdir` has to ask for a batch. -/
def NeedsQuery : Prop := dir.ubLen ≤ dir.ubIndex ∨ dir.restart_ = true

instance : Decidable dir.NeedsQuery := by unfold NeedsQuery; infer_instance

theorem needsQuery_of_restart {dir : Dir} (h : dir.restart_ = true) : dir.NeedsQuery := Or.inr h

/-- The second half of `readdir`: hand out the record at `ub_index`. -/
def next : Option (Dirent × Dir) :=
  (dir.uniBuffer dir.ubIndex).map fun r =>
    (direntOf r.info, { dir with ubIndex := indexAfter dir.ubLen dir.ubIndex r })

end Dir

section

variable (rtlNtStatusToDosError : NtStatus → ℕ)

/-- `readdir`: the entry or `NULL`, the stream afterwards and `errno`.  The reply is looked at only
when a query is made. -/
def readdir (dir : Dir) (errno : Errno) (reply : Reply) : Option (Option Dirent × Dir × Errno) :=
  if dir.NeedsQuery then
    let dir := { dir with uniBuffer := reply.buffer }
    if reply.status = statusNoMoreFiles then some (none, dir, 0)
    else if failed reply.status then
      some (none, dir, seterrnoFromNtStatus rtlNtStatusToDosError reply.status)
    else
      let dir := { dir with restart_ := false, ubLen := reply.information % 2 ^ 16, ubIndex := 0 }
      dir.next.map fun p => (some p.1, p.2, errno)
  else dir.next.map fun p => (some p.1, p.2, errno)

/-- `readdir_r`: the return value, what `*result` was set to if it was, the stream afterwards and
`errno`. -/
def readdirR (dir : Dir) (errno : Errno) (reply : Reply) :
    Option (Errno × Option (Option Dirent) × Dir × Errno) :=
  let errnoSave := errno
  (readdir rtlNtStatusToDosError dir 0 reply).map fun p =>
    let ret := p.2.2
    if ret ≠ 0 then (ret, none, p.2.1, ret)
    else (0, some p.1, p.2.1, errnoSave)

/-- `rewinddir`. -/
def rewinddir (dir : Dir) : Dir := { dir with restart_ := true, ubIndex := 0 }

end

/-! ## The kernel -/

/-- The fixed part of a record; the name follows it. -/
def recordHeader : ℕ := 104

/-- The records of a batch in a buffer, from offset `off` on: each entry with the size of its record,
which is the offset of the next one, the last with offset `0`. -/
def pack : ℕ → List (FileInfo × ℕ) → ℕ → Option Record
  | _, [], _ => none
  | off, [(e, _)], i => if i = off then some ⟨e, 0⟩ else none
  | off, (e, size) :: p :: batch, i =>
    if i = off then some ⟨e, size⟩ else pack (off + size) (p :: batch) i

/-- The size of a batch in the buffer. -/
def batchSize (batch : List (FileInfo × ℕ)) : ℕ := (batch.map Prod.snd).sum

/-- **What a query may do** when the cursor of the handle over the entries `L` stands at `cursor`:
answer with a batch of the next entries, report that there are none, or fail and leave the cursor
alone.  `RestartScan` moves the cursor to the start first. -/
inductive NtQueryDirectoryFile (L : List FileInfo) (cursor : ℕ) (restartScan : Bool) :
    Reply → ℕ → Prop where
  | batch {start : ℕ} {batch : List (FileInfo × ℕ)} :
      start = (if restartScan then 0 else cursor) → batch ≠ [] →
      batch.map Prod.fst <+: L.drop start →
      (∀ p ∈ batch, recordHeader + 2 * p.1.fileName.length ≤ p.2) →
      batchSize batch ≤ sizeofUniBuffer →
      NtQueryDirectoryFile L cursor restartScan
        ⟨statusSuccess, batchSize batch, pack 0 batch⟩ (start + batch.length)
  | noMoreFiles {start information : ℕ} {buffer : ℕ → Option Record} :
      start = (if restartScan then 0 else cursor) → L.length ≤ start →
      NtQueryDirectoryFile L cursor restartScan
        ⟨statusNoMoreFiles, information, buffer⟩ start
  | failure {status : NtStatus} {information : ℕ} {buffer : ℕ → Option Record} :
      failed status = true → status ≠ statusNoMoreFiles →
      NtQueryDirectoryFile L cursor restartScan ⟨status, information, buffer⟩ cursor

/-- The kernel's turn in a call that may query: without a query it has none. -/
def KernelTurn (L : List FileInfo) (dir : Dir) (cursor : ℕ) (reply : Reply) (cursor' : ℕ) : Prop :=
  if dir.NeedsQuery then NtQueryDirectoryFile L cursor dir.restart_ reply cursor'
  else cursor' = cursor

end Directory
end UtilWin
