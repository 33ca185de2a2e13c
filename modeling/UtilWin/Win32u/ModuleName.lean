import UtilWin.Library.Utf16
import UtilWin.Win32u.ConvBuf

/-!
# Names of modules in UTF-8

`GetModuleFileNameU` and `GetModuleFileNameExU` ask the system for the name of a module in 400 wide
characters, convert it in a conversion buffer on the stack, and copy the bytes to the caller's buffer with
`strlcpy`, which is `cb_strlcpy`.

The caller's buffer is a memory.  As with conversion buffers, what would be undefined makes the
computation `none`: here, reading behind the end of a block, or following a null pointer.
-/

namespace UtilWin
namespace ModuleName

open ConvBuf

/-- `GetModuleFileNameW` and `GetModuleFileNameExW`, for a module with the given path: the return value,
and the buffer, in which it terminates what it copies. -/
def getModuleFileNameW (path wfn : List UInt16) : ℕ × List UInt16 :=
  if path = [] then (0, wfn)
  else if path.length < wfn.length then (path.length, path ++ 0 :: wfn.drop (path.length + 1))
  else (wfn.length, path.take (wfn.length - 1) ++ [0])

/-- `strlen`, of the bytes from a pointer to the end of its block. -/
def strlen (s : List UInt8) : Option ℕ :=
  if 0 ∈ s then some (s.takeWhile (· ≠ 0)).length else none

/-- The loop of `cb_strlcpy`, with what of `src` is still to come, and its end. -/
def copyLoop (dsize : ℕ) (ncp : ℕ) (src : List UInt8) (dst : ℕ → UInt8) :
    Option (ℕ × (ℕ → UInt8)) :=
  if ncp < dsize then
    match src with
    | [] => none
    | c :: src =>
      let dst := Function.update dst ncp c
      if c = 0 then some (ncp, dst) else copyLoop dsize (ncp + 1) src dst
  else some (dsize - 1, Function.update dst (dsize - 1) 0)

/-- `cb_strlcpy`. -/
def cbStrlcpy (dst : ℕ → UInt8) (src : Option (List UInt8)) (dsize : ℕ) :
    Option (ℕ × (ℕ → UInt8)) :=
  if dsize = 0 then some (0, dst)
  else
    match src with
    | none => some (0, Function.update dst 0 0)
    | some src => copyLoop dsize 0 src dst

/-- What the two functions share: the result, the caller's buffer and the memory afterwards.  The
conversion buffer is at `p`, and `wfn` is the array on the stack. -/
def moduleFileName (malloc : ℕ → Addr × Block) (p : Addr) (wfn path : List UInt16)
    (lpFilename : ℕ → UInt8) (nSize : ℕ) (w : World) : Option (ℕ × (ℕ → UInt8) × World) :=
  let (xx, wfn) := getModuleFileNameW path wfn
  if xx = 0 then some (0, lpFilename, w)
  else do
    let w ← convbufInit p w
    let (newfn, w) ← convbufW2a Utf16.toUtf8 malloc p (some wfn) (-1) w
    let a ← newfn
    let block ← w.heap a
    let (_, lpFilename) ← cbStrlcpy lpFilename (some block.buf) nSize
    let r1 ← strlen block.buf
    let w ← convbufClear p w
    some (if r1 < nSize then r1 else nSize, lpFilename, w)

/-- The length of `wfn`. -/
def wfnLength : ℕ := 400

/-- An array of this length on the stack, with what happens to be in it. -/
abbrev Wfn := { wfn : List UInt16 // wfn.length = wfnLength }

/-- `GetModuleFileNameU`. -/
def getModuleFileNameU (malloc : ℕ → Addr × Block) (p : Addr) (wfn : Wfn) (path : List UInt16)
    (lpFilename : ℕ → UInt8) (nSize : ℕ) (w : World) : Option (ℕ × (ℕ → UInt8) × World) :=
  moduleFileName malloc p (wfn.1.set 0 0) path lpFilename nSize w

/-- `GetModuleFileNameExU`. -/
def getModuleFileNameExU (malloc : ℕ → Addr × Block) (p : Addr) (wfn : Wfn) (path : List UInt16)
    (lpFilename : ℕ → UInt8) (nSize : ℕ) (w : World) : Option (ℕ × (ℕ → UInt8) × World) :=
  moduleFileName malloc p wfn.1 path lpFilename nSize w

end ModuleName
end UtilWin
