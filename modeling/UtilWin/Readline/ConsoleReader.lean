import Mathlib.Data.Int.Notation
import Mathlib.Data.List.Basic

/-!
# The console reader

`CConsoleReader` has a thread of its own.  It reads input records from the console, turns them into
UTF-8, appends what it has to `m_buf` and sets `m_Event`.  The other side is one thread that calls
`rl_getc`, which hands out the bytes of `m_pub_buf`, refills it from `m_buf`, and waits for `m_Event`
when both are empty; in between it may ask how much there is (`get_stdin_nb`).

The two threads are one step relation.  A section under `m_lock` is one step, and so is everything
else that only one thread can see; the places where a thread can be in between are `ReaderPc` and
`ConsumerPc`.
-/

namespace UtilWin
namespace Console

/-! ## From input records to bytes -/

/-- What `on` looks at in a `KEY_EVENT_RECORD`. -/
structure KeyEventRecord where
  bKeyDown : Bool
  wVirtualKeyCode : UInt16
  unicodeChar : UInt16

/-- An `INPUT_RECORD`, with what is looked at of it. -/
inductive InputRecord where
  | keyEvent (ker : KeyEventRecord)
  | windowBufferSizeEvent
  | mouseEvent
  | menuEvent
  | focusEvent

def vkShift : UInt16 := 0x10
def vkControl : UInt16 := 0x11

/-- The members of `CConsoleReader` that only its own thread uses. -/
structure Keys where
  mChtmp : UInt16
  ctrlDown : Bool
  shiftDown : Bool

/-- An `int` from a `uint16_t`. -/
def int (u : UInt16) : BitVec 32 := u.toBitVec.setWidth 32

/-- `(char)`. -/
def char (n : BitVec 32) : UInt8 := ⟨n.setWidth 8⟩

/-- `add_wch`. -/
def addWch (t : Keys) (buf : List UInt8) (wch : UInt16) : Keys × List UInt8 :=
  let w := int wch
  if wch = 0 then (t, buf)
  else if wch ≤ 0x7f then (t, buf ++ [char w])
  else if wch ≤ 0x7ff then
    ({ t with mChtmp := 0 },
      buf ++ [char (0xc0 ||| w.sshiftRight 6), char (0x80 ||| (w &&& 0x3f))])
  else if 0xd800 ≤ wch ∧ wch < 0xdc00 then ({ t with mChtmp := wch }, buf)
  else if 0xdc00 ≤ wch ∧ wch ≤ 0xdfff then
    let wch2 := 0x10000 + ((int t.mChtmp - 0xd800) <<< 10) + (w - 0xdc00)
    ({ t with mChtmp := 0 },
      buf ++ [char (0xf0 ||| wch2.sshiftRight 18), char (0x80 ||| (wch2.sshiftRight 12 &&& 0x3f)),
        char (0x80 ||| (wch2.sshiftRight 6 &&& 0x3f)), char (0x80 ||| (wch2 &&& 0x3f))])
  else
    ({ t with mChtmp := 0 },
      buf ++ [char (0xe0 ||| w.sshiftRight 12), char (0x80 ||| (w.sshiftRight 6 &&& 0x3f)),
        char (0x80 ||| (w &&& 0x3f))])

/-- `on`, for a key. -/
def onKey (t : Keys) (buf : List UInt8) (ker : KeyEventRecord) : Keys × List UInt8 :=
  if !ker.bKeyDown then
    if ker.wVirtualKeyCode = vkControl then ({ t with ctrlDown := false }, buf)
    else if ker.wVirtualKeyCode = vkShift then ({ t with shiftDown := false }, buf)
    else (t, buf)
  else if ker.wVirtualKeyCode = vkControl then ({ t with ctrlDown := true }, buf)
  else if ker.wVirtualKeyCode = vkShift then ({ t with shiftDown := true }, buf)
  else addWch t buf ker.unicodeChar

/-! ## The two threads -/

/-- Where the reader thread is: before `ReadConsoleInputW`, in its loop over the records with these
still to come and this in `local_buf`, or between the section that appends and `SetEvent`. -/
inductive ReaderPc where
  | reading
  | translating (rest : List InputRecord) (localBuf : List UInt8)
  | signalling

/-- Where the consumer is: outside `rl_getc`, at the head of its loop, before `move_data`, before
`pop_front`, before the timeout is determined, or in `WaitForSingleObject`, with the timeout in
milliseconds or `none` for `INFINITE`. -/
inductive ConsumerPc where
  | outside
  | testing
  | moving
  | taking
  | timing
  | waiting (timeout : Option ℤ)

/-- A `CConsoleReader`, `next_stop`, and where the threads are. -/
structure State where
  mEvent : Bool
  mPubBuf : List UInt8
  mBuf : List UInt8
  keys : Keys
  broken_ : Bool
  winszChanged_ : Bool
  nextStop : ℤ
  readerPc : ReaderPc
  consumerPc : ConsumerPc

inductive Signal where
  | sigint
  | sigwinch
  | sigalrm

/-- What is seen of a step. -/
inductive Label where
  /-- `ReadConsoleInputW` returned these records. -/
  | read (ir : List InputRecord)
  /-- These bytes were appended to `m_buf`. -/
  | append (localBuf : List UInt8)
  /-- `rl_getc` returned a byte, after these signals. -/
  | getc (c : UInt8) (signals : List Signal)
  /-- `rl_getc` returned `EOF`. -/
  | eof
  /-- `get_stdin_nb` returned this. -/
  | stdinNb (n : ℕ)
  /-- A signal was handled. -/
  | signal (sig : Signal)
  /-- Nothing. -/
  | silent

namespace State

variable (s : State)

/-- The loop over the records, for one of them. -/
def onRecord (rest : List InputRecord) (localBuf : List UInt8) : InputRecord → State
  | .keyEvent ker =>
    let p := onKey s.keys localBuf ker
    { s with keys := p.1, readerPc := .translating rest p.2 }
  | .windowBufferSizeEvent =>
    { s with winszChanged_ := true, readerPc := .translating rest localBuf }
  | .mouseEvent | .menuEvent | .focusEvent => { s with readerPc := .translating rest localBuf }

/-- `move_data`: everything goes to the end of `m_pub_buf`, whose size is returned. -/
def moveData : ℕ × State :=
  ((s.mPubBuf ++ s.mBuf).length, { s with mPubBuf := s.mPubBuf ++ s.mBuf, mBuf := [] })

/-- The timeout for `WaitForSingleObject`, at the time `now`. -/
def timeout (now : ℤ) : Option ℤ :=
  if s.nextStop ≠ 0 then
    let to1 := s.nextStop - now
    if to1 ≤ 0 then some 0
    else if to1 > 2147483647 then none
    else some to1
  else none

/-- The signals that `rl_getc` handles before it returns `c`. -/
def signals (c : UInt8) : List Signal :=
  (if c = 3 then [.sigint] else []) ++ if s.winszChanged_ then [.sigwinch] else []

end State

/-- One step of one of the threads. -/
inductive Step : State → Label → State → Prop where
  -- `run_thread`
  | readConsoleInput {s : State} {ir : List InputRecord} : s.readerPc = .reading →
      ir.length ≤ 100 → Step s (.read ir) { s with readerPc := .translating ir [] }
  | onRecord {s : State} {r : InputRecord} {rest : List InputRecord} {localBuf : List UInt8} :
      s.readerPc = .translating (r :: rest) localBuf →
      Step s .silent (s.onRecord rest localBuf r)
  | nothing {s : State} : s.readerPc = .translating [] [] →
      Step s .silent { s with readerPc := .reading }
  | append {s : State} {localBuf : List UInt8} : s.readerPc = .translating [] localBuf →
      localBuf ≠ [] →
      Step s (.append localBuf) { s with mBuf := s.mBuf ++ localBuf, readerPc := .signalling }
  | setEvent {s : State} : s.readerPc = .signalling →
      Step s .silent { s with mEvent := true, readerPc := .reading }
  -- `rl_getc`
  | call {s : State} : s.consumerPc = .outside → Step s .silent { s with consumerPc := .testing }
  | isBroken {s : State} : s.consumerPc = .testing → s.broken_ = true →
      Step s .eof { s with consumerPc := .outside }
  | nonempty {s : State} : s.consumerPc = .testing → s.broken_ = false → s.mPubBuf ≠ [] →
      Step s .silent { s with consumerPc := .taking }
  | empty {s : State} : s.consumerPc = .testing → s.broken_ = false → s.mPubBuf = [] →
      Step s .silent { s with consumerPc := .moving }
  | moved {s : State} : s.consumerPc = .moving → s.moveData.1 ≠ 0 →
      Step s .silent { s.moveData.2 with consumerPc := .taking }
  | movedNothing {s : State} : s.consumerPc = .moving → s.moveData.1 = 0 →
      Step s .silent { s.moveData.2 with consumerPc := .timing }
  | popFront {s : State} {c : UInt8} {rest : List UInt8} : s.consumerPc = .taking →
      s.mPubBuf = c :: rest →
      Step s (.getc c (s.signals c))
        { s with mPubBuf := rest, winszChanged_ := false, consumerPc := .outside }
  | wait {s : State} {now : ℤ} : s.consumerPc = .timing →
      Step s .silent { s with consumerPc := .waiting (s.timeout now) }
  | signalled {s : State} {timeout : Option ℤ} : s.consumerPc = .waiting timeout →
      s.mEvent = true → Step s .silent { s with mEvent := false, consumerPc := .testing }
  | timedOut {s : State} {timeout : ℤ} : s.consumerPc = .waiting (some timeout) →
      Step s (.signal .sigalrm) { s with nextStop := 0, consumerPc := .testing }
  -- `get_stdin_nb`, from outside or from a handler of `SIGALRM`
  | getStdinNb {s : State} : s.consumerPc = .outside ∨ s.consumerPc = .testing →
      Step s (.stdinNb s.moveData.1) s.moveData.2
  -- `wrl_alarm`, likewise
  | alarm {s : State} {nextStop : ℤ} : s.consumerPc = .outside ∨ s.consumerPc = .testing →
      Step s .silent { s with nextStop := nextStop }

/-- What the constructor leaves, with the thread about to start and the first `rl_getc` going on.
The constructor does not set `m_chtmp`. -/
def State.init (mChtmp : UInt16) (nextStop : ℤ) : State where
  mEvent := false
  mPubBuf := []
  mBuf := []
  keys := ⟨mChtmp, false, false⟩
  broken_ := false
  winszChanged_ := false
  nextStop := nextStop
  readerPc := .reading
  consumerPc := .testing

end Console
end UtilWin
