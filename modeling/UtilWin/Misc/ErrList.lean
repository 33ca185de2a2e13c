import Mathlib.Data.List.Basic

/-!
# Error numbers

`misc/errlist.c` turns the status of a failed system call into an `errno`: the system maps the status
to an error code, and a table maps the code to an `errno`, with `EACCES` for a code the table does not
have.  The one thing callers rely on is that the result is never `0`, because they tell the end of a
directory from a failure by it (`seterrnoFromNtStatus_ne_zero`).
-/

namespace UtilWin
namespace ErrList

/-- `errno`, an `int` that is `0` when nothing went wrong. -/
abbrev Errno := ℕ

/-- `NTSTATUS`. -/
abbrev NtStatus := BitVec 32

/-- `FAILED`: the status is negative. -/
def failed (status : NtStatus) : Bool := status.msb

def EPERM : Errno := 1
def ENOENT : Errno := 2
def ESRCH : Errno := 3
def EINTR : Errno := 4
def EIO : Errno := 5
def ENXIO : Errno := 6
def ENOEXEC : Errno := 8
def EBADF : Errno := 9
def ECHILD : Errno := 10
def EAGAIN : Errno := 11
def ENOMEM : Errno := 12
def EACCES : Errno := 13
def EFAULT : Errno := 14
def EBUSY : Errno := 16
def EEXIST : Errno := 17
def EXDEV : Errno := 18
def ENODEV : Errno := 19
def ENOTDIR : Errno := 20
def EINVAL : Errno := 22
def ENFILE : Errno := 23
def EMFILE : Errno := 24
def EFBIG : Errno := 27
def ENOSPC : Errno := 28
def EROFS : Errno := 30
def EMLINK : Errno := 31
def EPIPE : Errno := 32
def EDEADLK : Errno := 36
def ENAMETOOLONG : Errno := 38
def ENOLCK : Errno := 39
def ENOSYS : Errno := 40
def ENOTEMPTY : Errno := 41
def EBADMSG : Errno := 104
def ECONNREFUSED : Errno := 107
def EMSGSIZE : Errno := 115
def ENODATA : Errno := 120
def ENOLINK : Errno := 121
def ENOTSUP : Errno := 129

/-- `errmap`: error codes of the system and the `errno` for each, in the order of the source. -/
def errmap : List (ℕ × Errno) :=
  [(5, EACCES), (2402, EAGAIN), (183, EEXIST), (1200, ENODEV), (193, ENOEXEC), (53, ENOENT),
    (67, ENOENT), (58, ENOSYS), (161, ENOENT), (230, EINVAL), (20, ENODEV), (2202, EINVAL),
    (1102, EIO), (109, EPIPE), (170, EBUSY), (1111, EIO), (120, ENOSYS), (1223, EINTR),
    (82, EPERM), (129, EBUSY), (1455, EAGAIN), (1225, ECONNREFUSED), (23, EIO), (1166, EIO),
    (2404, EAGAIN), (1165, EIO), (55, ENOENT), (267, ENOTDIR), (145, ENOTEMPTY), (1393, EIO),
    (112, ENOSPC), (8341, EIO), (52, EBADMSG), (275, ENOSPC), (282, ENOTSUP), (255, EINVAL),
    (277, ENOSPC), (1100, ENOSPC), (1129, EIO), (216, ENOEXEC), (192, ENOEXEC), (1101, EIO),
    (206, ENAMETOOLONG), (1392, EEXIST), (80, EEXIST), (1006, ENXIO), (2, ENOENT), (39, ENOSPC),
    (38, ENODATA), (487, EINVAL), (104, EINTR), (1106, EIO), (13, EINVAL), (15, ENODEV),
    (254, EINVAL), (191, ENOEXEC), (1, ENOTSUP), (6, EBADF), (123, ENOENT), (87, EINVAL),
    (209, EINVAL), (197, ENOEXEC), (1117, EIO), (996, EAGAIN), (997, EAGAIN), (33, EBUSY),
    (164, EAGAIN), (208, EINVAL), (126, ENOENT), (234, EMSGSIZE), (131, EINVAL), (64, ENOENT),
    (998, EFAULT), (1332, EINVAL), (1451, EAGAIN), (2250, ENOLINK), (8, ENOMEM), (1816, EIO),
    (288, EPERM), (21, ENFILE), (17, EXDEV), (50, ENOSYS), (232, EPIPE), (1104, EIO),
    (1112, ENFILE), (18, ENOENT), (259, ENOENT), (113, ENOENT), (89, EAGAIN), (205, EIO),
    (1450, EFBIG), (1008, EINVAL), (110, EIO), (2401, EAGAIN), (14, ENOMEM), (1452, EAGAIN),
    (1454, EAGAIN), (3, ENOENT), (231, EBUSY), (535, EBUSY), (536, EPIPE), (233, EPIPE),
    (1131, EDEADLK), (1314, EPERM), (1067, EFAULT), (127, ESRCH), (51, ENOENT), (27, EINVAL),
    (25, EINVAL), (1053, EBUSY), (1103, EIO), (36, ENOLCK), (32, EBUSY), (162, EBUSY), (156, EIO),
    (14001, ENOTSUP), (210, EINVAL), (1460, EBUSY), (1142, EMLINK), (4, EMFILE), (59, EIO),
    (128, ECHILD), (1453, EAGAIN), (19, EROFS)]

/-- `geterrno_from_win_error`: the first entry with the code decides. -/
def geterrnoFromWinError (code : ℕ) (deferrno : Errno) : Errno :=
  match errmap.find? fun p => p.1 = code with
  | some p => p.2
  | none => deferrno

/-- `__seterrno_from_nt_status`, with `RtlNtStatusToDosError` as a parameter: the new `errno`. -/
def seterrnoFromNtStatus (rtlNtStatusToDosError : NtStatus → ℕ) (status : NtStatus) : Errno :=
  geterrnoFromWinError (rtlNtStatusToDosError status) EACCES

/-- No entry of the table is `0`. -/
theorem errmap_ne_zero : ∀ p ∈ errmap, p.2 ≠ 0 := by decide +kernel

/-- A failure always sets an `errno`. -/
theorem seterrnoFromNtStatus_ne_zero (rtlNtStatusToDosError : NtStatus → ℕ) (status : NtStatus) :
    seterrnoFromNtStatus rtlNtStatusToDosError status ≠ 0 := by
  rw [seterrnoFromNtStatus, geterrnoFromWinError]
  split
  · exact errmap_ne_zero _ (List.mem_of_find?_eq_some (by assumption))
  · decide

end ErrList
end UtilWin
