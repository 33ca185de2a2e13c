import UtilWin.Dirent.Stream

/-!
# What `opendir` promises

`opendir` opens the name as a file or a directory, whichever it is, and neither looks at what it has
opened nor writes `errno`; only `calloc` does when it fails.  So the promise of `opendir`, a stream for
a directory and otherwise an `errno` that tells the cause, is kept exactly where a directory is opened
(`keepsContract_iff`).
-/

namespace UtilWin
namespace Directory

open ErrList

/-- `opendir` with the `errno` it leaves behind. -/
def opendirErrno (status : NtStatus) (calloc : Bool) (errno : Errno) : Option Dir × Errno :=
  (opendir status calloc, if failed status then errno else if calloc then errno else ENOMEM)

/-- The promise of `opendir` for a name that is a directory or not, and the answers of `NtCreateFile`
and `calloc`: only a directory is opened, and a failure has a cause that is written to `errno`,
whatever was there before. -/
structure KeepsContract (isDirectory : Bool) (status : NtStatus) (calloc : Bool) : Prop where
  opened : (opendir status calloc).isSome = true → isDirectory = true
  cause : opendir status calloc = none → ∃ cause ≠ 0,
    (failed status = false → isDirectory = false → cause = ENOTDIR) ∧
      ∀ errno, (opendirErrno status calloc errno).2 = cause

/-- **When `opendir` keeps its promise.** -/
theorem keepsContract_iff (isDirectory : Bool) (status : NtStatus) (calloc : Bool) :
    KeepsContract isDirectory status calloc ↔ failed status = false ∧ isDirectory = true := by
  cases hfailed : failed status with
  | true =>
    refine ⟨fun h => ?_, fun h => absurd h.1 (by decide)⟩
    have hnone : opendir status calloc = none := by rw [opendir, hfailed, if_pos rfl]
    obtain ⟨cause, hne, -, hcause⟩ := h.cause hnone
    -- whatever was in `errno` is still there
    have hzero := hcause 0
    rw [opendirErrno, hfailed, if_pos rfl] at hzero
    exact absurd hzero.symm hne
  | false =>
    refine ⟨fun h => ⟨rfl, ?_⟩, fun h => ⟨fun _ => h.2, fun hnone => ?_⟩⟩
    · cases calloc with
      | true => exact h.opened (by rw [opendir, hfailed]; rfl)
      | false =>
        obtain ⟨cause, -, hnotdir, hcause⟩ := h.cause (by rw [opendir, hfailed]; rfl)
        have hnomem := hcause 0
        rw [opendirErrno, hfailed] at hnomem
        by_contra hdir
        rw [hnotdir hfailed (Bool.eq_false_iff.mpr hdir)] at hnomem
        cases hnomem
    · cases calloc with
      | true =>
        rw [opendir, hfailed] at hnone
        cases hnone
      | false =>
        refine ⟨ENOMEM, by decide, fun _ hdir => absurd (hdir.symm.trans h.2) (by decide), ?_⟩
        intro errno
        rw [opendirErrno, hfailed]
        rfl

end Directory
end UtilWin
