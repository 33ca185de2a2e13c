import UtilWin.Library.Loopback

/-!
# A pair of sockets

`socketpair` opens a `listener`, finds out its port and connects a `connector` to it.  How the other
end comes about is decided by the protocol: for a stream the listener accepts the connection, and
otherwise the listener itself becomes the other end, `acceptor`.  After a check that the connection
is its own, the function hands out `connector` and `acceptor`; on any failure it goes to a common
clean-up that closes whatever the three variables hold.

The function is a chain of stages on a frame of its local variables.  A stage falls through or leaves
by one of the `goto`s.  What the kernel answers is given call by call (`Answers`).
-/

namespace UtilWin
namespace SocketPair

open Loopback

/-! ## What the kernel answers -/

/-- The calls that may fail for lack of resources, by their place in the function. -/
inductive Call where
  | socketListener
  | bind
  | listen
  | socketConnector
  | getsocknameListener
  | connect
  | accept
  | getsocknameConnector
  | getsocknameCheck
  deriving DecidableEq

/-- The sockets that the function opens. -/
inductive Role where
  | listener
  | connector
  | acceptor
  deriving DecidableEq

/-- The call that opens a socket. -/
def Role.opener : Role → Call
  | .listener => .socketListener
  | .connector => .socketConnector
  | .acceptor => .accept

/-- The kernel's part: which calls fail for lack of resources, the handles of new sockets, and the
ports of the listener and of the connector. -/
structure Answers (w : ℕ) where
  fails : Call → Bool
  handle : Role → SOCKET w
  listenPort : BitVec 16
  connectPort : BitVec 16

/-- A kernel gives a new socket a handle that is valid and not in use, and a socket without a port
one that no other socket of its type has. -/
structure Kernel {w : ℕ} (n : Net w) (type : ℤ) extends Answers w where
  opens_valid : invalidSocket ∉ n.opens
  handle_valid : ∀ r, fails r.opener = false → handle r ≠ invalidSocket
  handle_free : ∀ r, fails r.opener = false → handle r ∉ n.opens
  handle_inj : ∀ r r', fails r.opener = false → fails r'.opener = false →
    handle r = handle r' → r = r'
  listenPort_ne : fails .bind = false → listenPort ≠ 0
  listenPort_free : fails .bind = false →
    ∀ s ∈ n.opens, (n.sock s).type = type → (n.sock s).name.sinPort ≠ listenPort
  connectPort_ne : fails .connect = false → connectPort ≠ 0
  connectPort_free : fails .connect = false →
    ∀ s ∈ n.opens, (n.sock s).type = type → (n.sock s).name.sinPort ≠ connectPort
  ports_ne : fails .bind = false → fails .connect = false → listenPort ≠ connectPort

/-! ## The stages -/

/-- The local variables, and the network. -/
structure Frame (w : ℕ) where
  listener : SOCKET w
  connector : SOCKET w
  acceptor : SOCKET w
  listenAddr : SockAddrIn
  connectAddr : SockAddrIn
  size : ℤ
  net : Net w

/-- How a stage leaves: `return -1`, or one of the labels. -/
inductive Goto where
  | returnFail
  | tidyUpAndFail
  | abortTidyUpAndFail
  deriving DecidableEq

/-- A stage leaves, or falls through, with the frame it has made. -/
abbrev Stage (w : ℕ) := Except (Goto × Frame w) (Frame w)

variable {w : ℕ} (a : Answers w)

/-- No handle passes for negative. -/
theorem not_lt_zero (s : SOCKET w) : ¬ s < 0 := BitVec.not_lt_zero

/-- The first `socket`. -/
def openListener (type : ℤ) (f : Frame w) : Stage w :=
  let r := f.net.call (a.fails .socketListener) (Net.socket type (a.handle .listener))
  let f := { f with listener := r.1.getD invalidSocket, net := r.2 }
  if f.listener < 0 then .error (.returnFail, f) else .ok f

/-- `bind` to the loopback address, with a port for the kernel to choose. -/
def bindListener (f : Frame w) : Stage w :=
  let f := { f with listenAddr := ⟨afInet, htonl inaddrLoopback, 0⟩ }
  let r := f.net.call (a.fails .bind) (Net.bind f.listener f.listenAddr a.listenPort)
  let f := { f with net := r.2 }
  if r.1.isNone then .error (.tidyUpAndFail, f) else .ok f

/-- `if (protocol == SOCK_STREAM && listen(listener, 1) == -1)`. -/
def listenListener (protocol : ℤ) (f : Frame w) : Stage w :=
  if protocol = sockStream then
    let r := f.net.call (a.fails .listen) (Net.listen f.listener 1)
    let f := { f with net := r.2 }
    if r.1.isNone then .error (.tidyUpAndFail, f) else .ok f
  else .ok f

/-- The second `socket`. -/
def openConnector (type : ℤ) (f : Frame w) : Stage w :=
  let r := f.net.call (a.fails .socketConnector) (Net.socket type (a.handle .connector))
  let f := { f with connector := r.1.getD invalidSocket, net := r.2 }
  if f.connector < 0 then .error (.tidyUpAndFail, f) else .ok f

/-- The port to connect to, by `getsockname` on the listener. -/
def findPort (f : Frame w) : Stage w :=
  let f := { f with connectAddr := SockAddrIn.zero, size := sizeofSockAddrIn }
  let r := f.net.call (a.fails .getsocknameListener) (Net.getsockname f.listener)
  let f := { f with net := r.2 }
  match r.1 with
  | none => .error (.tidyUpAndFail, f)
  | some (name, size) =>
    let f := { f with connectAddr := name, size := size }
    if f.size ≠ sizeofSockAddrIn then .error (.abortTidyUpAndFail, f) else .ok f

/-- `connect` to the address just found. -/
def connectConnector (f : Frame w) : Stage w :=
  let r := f.net.call (a.fails .connect) (Net.connect f.connector f.connectAddr a.connectPort)
  let f := { f with net := r.2 }
  if r.1.isNone then .error (.tidyUpAndFail, f) else .ok f

/-- `acceptor = accept(listener, &listen_addr, &size)`. -/
def acceptConnector (f : Frame w) : Frame w :=
  let r := f.net.call (a.fails .accept) (Net.accept f.listener (a.handle .acceptor))
  match r.1 with
  | none => { f with acceptor := invalidSocket, net := r.2 }
  | some (s, name, size) =>
    { f with acceptor := s, listenAddr := name, size := size, net := r.2 }

/-- The listener becomes the acceptor, and the connector's address is asked for in its place.  Whether
that `getsockname` succeeds is not looked at. -/
def moveListener (f : Frame w) : Frame w :=
  let f := { f with acceptor := f.listener, listener := invalidSocket }
  let r := f.net.call (a.fails .getsocknameConnector) (Net.getsockname f.connector)
  match r.1 with
  | none => { f with net := r.2 }
  | some (name, size) => { f with listenAddr := name, size := size, net := r.2 }

/-- The other end: `if (protocol == SOCK_STREAM)` an accepted connection, else the listener. -/
def takeAcceptor (protocol : ℤ) (f : Frame w) : Stage w :=
  let f := { f with size := sizeofSockAddrIn }
  let f := if protocol = sockStream then acceptConnector a f else moveListener a f
  if f.acceptor < 0 then .error (.tidyUpAndFail, f)
  else if f.size ≠ sizeofSockAddrIn then .error (.abortTidyUpAndFail, f)
  else .ok f

/-- "Now check we are talking to ourself by matching port and host on the two sockets." -/
def checkSelf (f : Frame w) : Stage w :=
  let r := f.net.call (a.fails .getsocknameCheck) (Net.getsockname f.connector)
  let f := { f with net := r.2 }
  match r.1 with
  | none => .error (.tidyUpAndFail, f)
  | some (name, size) =>
    let f := { f with connectAddr := name, size := size }
    if f.size ≠ sizeofSockAddrIn ∨ f.listenAddr.sinFamily ≠ f.connectAddr.sinFamily ∨
        f.listenAddr.sAddr ≠ f.connectAddr.sAddr ∨ f.listenAddr.sinPort ≠ f.connectAddr.sinPort then
      .error (.abortTidyUpAndFail, f)
    else .ok f

/-- The stages between the checks of the arguments and the end. -/
def handshake (type protocol : ℤ) (f : Frame w) : Stage w := do
  let f ← openListener a type f
  let f ← bindListener a f
  let f ← listenListener a protocol f
  let f ← openConnector a type f
  let f ← findPort a f
  let f ← connectConnector a f
  let f ← takeAcceptor a protocol f
  checkSelf a f

/-! ## The function -/

/-- `if (x != -1) closesocket(x);` -/
def closeUnlessInvalid (x : SOCKET w) (n : Net w) : Net w :=
  if x ≠ -1 then n.closesocket x else n

/-- What is behind the labels: `saved_errno`, the clean-up, and `WSASetLastError`. -/
def tidyUp : Goto × Frame w → Net w
  | (.returnFail, f) => f.net
  | (.tidyUpAndFail, f) => clean f f.net.lastError
  | (.abortTidyUpAndFail, f) => clean f wsaeConnAborted
where
  clean (f : Frame w) (savedErrno : ℤ) : Net w :=
    { closeUnlessInvalid f.acceptor
        (closeUnlessInvalid f.connector (closeUnlessInvalid f.listener f.net)) with
      lastError := savedErrno }

/-- The return value, what `fd` points to afterwards, and the network. -/
structure Result (w : ℕ) where
  ret : ℤ
  fd : Option (SOCKET w × SOCKET w)
  net : Net w

/-- The frame at the first call. -/
def Frame.init (n : Net w) : Frame w :=
  { listener := -1
    connector := -1
    acceptor := -1
    listenAddr := SockAddrIn.zero
    connectAddr := SockAddrIn.zero
    size := 0
    net := n }

/-- `socketpair`.  A null pointer for `fd` is `none`. -/
def socketpair (family type protocol : ℤ) (fd : Option (SOCKET w × SOCKET w)) (n : Net w) :
    Result w :=
  if protocol ≠ 0 ∨ family ≠ afInet then ⟨-1, fd, { n with lastError := wsaeAfNoSupport }⟩
  else if fd = none then ⟨-1, fd, { n with lastError := wsaeInval }⟩
  else match handshake a type protocol (Frame.init n) with
    | .error e => ⟨-1, fd, tidyUp e⟩
    | .ok f => ⟨0, some (f.connector, f.acceptor), f.net.closesocket f.listener⟩

end SocketPair
end UtilWin
