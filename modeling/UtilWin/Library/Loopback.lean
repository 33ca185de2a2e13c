import Mathlib.Data.List.Perm.Subperm
import Mathlib.Logic.Function.Basic
import Mathlib.Data.Int.Notation

/-!
# A loopback network

Sockets of one process on the loopback interface: stream and datagram sockets of the internet family,
told apart by their local address and by the address they are connected to.  A `connect` on a stream
socket needs a listening socket at the address it names; on a datagram socket it only records the
address.  A `send` needs a connected socket, and the message goes to the sockets of the same type
that are bound where it is sent and are not connected elsewhere.

Every operation is a function from the network to an error code or a result with the new network, and
is issued through `Net.call`, which lets the kernel refuse it for lack of resources.  What the kernel
chooses (the handle of a new socket, the port of one that has none) is an argument.

The network keeps three records that no operation reads: the sockets opened, the handles given to
`closesocket`, and how many calls were refused for lack of resources.
-/

namespace UtilWin
namespace Loopback

/-! ## Names and errors -/

/-- `SOCKET`, an unsigned integer of the width of a pointer. -/
abbrev SOCKET (w : ℕ) := BitVec w

/-- `INVALID_SOCKET`, `(SOCKET)(~0)`. -/
def invalidSocket {w : ℕ} : SOCKET w := BitVec.allOnes w

/-- The `-1` that an `int` initialises or is compared with a `SOCKET` by is `INVALID_SOCKET`. -/
@[simp] theorem neg_one_eq {w : ℕ} : (-1 : SOCKET w) = invalidSocket := BitVec.neg_one_eq_allOnes

def afInet : ℤ := 2
def sockStream : ℤ := 1
def sockDgram : ℤ := 2

def wsaeInval : ℤ := 10022
def wsaeNotSock : ℤ := 10038
def wsaeAfNoSupport : ℤ := 10047
def wsaeConnAborted : ℤ := 10053
def wsaeNoBufs : ℤ := 10055
def wsaeNotConn : ℤ := 10057
def wsaeConnRefused : ℤ := 10061
def wsaeWouldBlock : ℤ := 10035

/-- `struct sockaddr_in`. -/
structure SockAddrIn where
  sinFamily : ℤ
  sAddr : BitVec 32
  sinPort : BitVec 16
  deriving DecidableEq

/-- `sizeof(struct sockaddr_in)`. -/
def sizeofSockAddrIn : ℤ := 16

/-- `struct sockaddr_in` after `memset` with zeros. -/
def SockAddrIn.zero : SockAddrIn := ⟨0, 0, 0⟩

/-- The bytes of a word the other way round. -/
def htonl (x : BitVec 32) : BitVec 32 :=
  x.extractLsb' 0 8 ++ x.extractLsb' 8 8 ++ x.extractLsb' 16 8 ++ x.extractLsb' 24 8

def inaddrLoopback : BitVec 32 := 0x7f000001

/-- A port of the loopback interface. -/
def SockAddrIn.loopback (port : BitVec 16) : SockAddrIn := ⟨afInet, htonl inaddrLoopback, port⟩

/-! ## The network -/

/-- A message: what one `send` is given. -/
abbrev Msg := List UInt8

/-- A socket.  It is bound when its port is not zero, and listens when it has a backlog: how many may
wait, and the addresses that do. -/
structure Sock where
  type : ℤ
  name : SockAddrIn
  backlog : Option (ℕ × List SockAddrIn)
  peer : Option SockAddrIn
  inbox : List Msg

/-- A socket as `socket` makes it. -/
def Sock.fresh (type : ℤ) : Sock := ⟨type, SockAddrIn.zero, none, none, []⟩

/-- A stream socket that listens at an address and has room for one more. -/
def Sock.Admits (k : Sock) (name : SockAddrIn) : Prop :=
  k.type = sockStream ∧ k.name = name ∧ ∃ b ∈ k.backlog, b.2.length < b.1

instance (k : Sock) (name : SockAddrIn) : Decidable (k.Admits name) :=
  inferInstanceAs (Decidable (_ ∧ _ ∧ ∃ b ∈ k.backlog, b.2.length < b.1))

theorem Sock.not_admits {k : Sock} (h : k.backlog = none) (name : SockAddrIn) :
    ¬ k.Admits name := by
  rintro ⟨-, -, b, hb, -⟩
  rw [h] at hb
  cases hb

/-- Whether `k` receives what the socket `s` sends to the address `dst`. -/
def Sock.Hears (k s : Sock) (dst : SockAddrIn) : Prop :=
  k.type = s.type ∧ k.name = dst ∧ k.backlog = none ∧
    (k.peer = some s.name ∨ k.peer = none ∧ k.type = sockDgram)

instance (k s : Sock) (dst : SockAddrIn) : Decidable (k.Hears s dst) :=
  inferInstanceAs (Decidable (_ ∧ _ ∧ _ ∧ _))

/-- The sockets of a process, by handle, the last error of the thread, and the records. -/
structure Net (w : ℕ) where
  opens : List (SOCKET w)
  sock : SOCKET w → Sock
  lastError : ℤ
  opened : List (SOCKET w)
  closed : List (SOCKET w)
  lacked : ℕ

namespace Net

variable {w : ℕ} {α : Type} (n : Net w)

/-- The network with the records cleared. -/
def watch : Net w := { n with opened := [], closed := [], lacked := 0 }

/-- The socket behind a handle. -/
def at? (s : SOCKET w) : Except ℤ Sock := if s ∈ n.opens then .ok (n.sock s) else .error wsaeNotSock

/-- Change a socket. -/
def set (s : SOCKET w) (k : Sock) : Net w := { n with sock := Function.update n.sock s k }

/-- Open a socket. -/
def add (s : SOCKET w) (k : Sock) : Net w :=
  { n.set s k with opens := s :: n.opens, opened := n.opened ++ [s] }

/-- Issue an operation, which the kernel may refuse for lack of resources. -/
def call (lacking : Bool) (op : Net w → Except ℤ (α × Net w)) : Option α × Net w :=
  if lacking then (none, { n with lastError := wsaeNoBufs, lacked := n.lacked + 1 })
  else match op n with
    | .ok (a, n') => (some a, n')
    | .error e => (none, { n with lastError := e })

/-- `socket(AF_INET, type, 0)`, with the handle it gets. -/
def socket (type : ℤ) (s : SOCKET w) (n : Net w) : Except ℤ (SOCKET w × Net w) :=
  .ok (s, n.add s (Sock.fresh type))

/-- `bind`, with the port that the kernel chooses when none is asked for. -/
def bind (s : SOCKET w) (name : SockAddrIn) (port : BitVec 16) (n : Net w) :
    Except ℤ (Unit × Net w) := do
  let k ← n.at? s
  if k.name.sinPort ≠ 0 then .error wsaeInval
  else .ok ((), n.set s { k with
    name := { name with sinPort := if name.sinPort = 0 then port else name.sinPort } })

/-- `listen`. -/
def listen (s : SOCKET w) (limit : ℕ) (n : Net w) : Except ℤ (Unit × Net w) := do
  let k ← n.at? s
  if k.name.sinPort = 0 then .error wsaeInval
  else .ok ((), n.set s { k with backlog := some (limit, []) })

/-- `getsockname`: the local address and its size. -/
def getsockname (s : SOCKET w) (n : Net w) : Except ℤ ((SockAddrIn × ℤ) × Net w) := do
  let k ← n.at? s
  if k.name.sinPort = 0 then .error wsaeInval else .ok ((k.name, sizeofSockAddrIn), n)

/-- The socket with a local address: its own, or the port that the kernel chooses. -/
def autobind (k : Sock) (port : BitVec 16) : Sock :=
  if k.name.sinPort = 0 then { k with name := SockAddrIn.loopback port } else k

/-- `connect`. -/
def connect (s : SOCKET w) (dst : SockAddrIn) (port : BitVec 16) (n : Net w) :
    Except ℤ (Unit × Net w) := do
  let k ← n.at? s
  let k := autobind k port
  if k.type = sockStream then
    match n.opens.find? fun t => (n.sock t).Admits dst with
    | none => .error wsaeConnRefused
    | some t =>
      let l := n.sock t
      let n := n.set t { l with backlog := l.backlog.map fun b => (b.1, b.2 ++ [k.name]) }
      .ok ((), n.set s { k with peer := some dst })
  else .ok ((), n.set s { k with peer := some dst })

/-- `accept`, with the handle that the new socket gets: the handle, and the address that connected
and its size.  With nobody waiting it would block, which the network answers by an error. -/
def accept (s t : SOCKET w) (n : Net w) :
    Except ℤ ((SOCKET w × SockAddrIn × ℤ) × Net w) := do
  let k ← n.at? s
  match k.backlog with
  | none => .error wsaeInval
  | some (_, []) => .error wsaeWouldBlock
  | some (limit, a :: rest) =>
    let n := n.set s { k with backlog := some (limit, rest) }
    let n := n.add t { Sock.fresh k.type with name := k.name, peer := some a }
    .ok ((t, a, sizeofSockAddrIn), n)

/-- `closesocket`. -/
def closesocket (s : SOCKET w) (n : Net w) : Net w :=
  { n with
    opens := n.opens.erase s
    lastError := if s ∈ n.opens then n.lastError else wsaeNotSock
    closed := n.closed ++ [s] }

/-- `send`, to the address the socket is connected to. -/
def send (s : SOCKET w) (m : Msg) (n : Net w) : Except ℤ (Unit × Net w) := do
  let k ← n.at? s
  match k.peer with
  | none => .error wsaeNotConn
  | some dst =>
    .ok ((), { n with
      sock := fun t =>
        if t ∈ n.opens ∧ (n.sock t).Hears k dst then
          { n.sock t with inbox := (n.sock t).inbox ++ [m] }
        else n.sock t })

/-- What `recv` would hand out at a socket, oldest first. -/
def receivable (s : SOCKET w) : List Msg := (n.sock s).inbox

/-- Sends one after the other, each on a socket of its own choice; one that fails changes nothing. -/
def sendAll : List (SOCKET w × Msg) → Net w → Net w
  | [], n => n
  | (s, m) :: rest, n => sendAll rest (n.call false (send s m)).2

variable {n} {n' : Net w} {op : Net w → Except ℤ (α × Net w)} {s : SOCKET w}

@[simp] theorem set_sock_self (k : Sock) : (n.set s k).sock s = k := Function.update_self _ _ _

theorem set_sock_of_ne {t : SOCKET w} (k : Sock) (h : t ≠ s) : (n.set s k).sock t = n.sock t :=
  Function.update_of_ne h _ _

@[simp] theorem add_sock_self (k : Sock) : (n.add s k).sock s = k := Function.update_self _ _ _

theorem add_sock_of_ne {t : SOCKET w} (k : Sock) (h : t ≠ s) : (n.add s k).sock t = n.sock t :=
  Function.update_of_ne h _ _

/-! ## Calls -/

theorem call_lacking : n.call true op =
    (none, { n with lastError := wsaeNoBufs, lacked := n.lacked + 1 }) := rfl

theorem call_ok {x : α} (h : op n = .ok (x, n')) : n.call false op = (some x, n') := by
  rw [call, if_neg Bool.false_ne_true, h]

theorem call_error {e : ℤ} (h : op n = .error e) :
    n.call false op = (none, { n with lastError := e }) := by
  rw [call, if_neg Bool.false_ne_true, h]

/-- What fails of itself fails, refused or not. -/
theorem call_fst_of_error {e : ℤ} (h : op n = .error e) (lacking : Bool) :
    (n.call lacking op).1 = none := by
  cases lacking with
  | true => rw [call_lacking]
  | false => rw [call_error h]

theorem lacked_le_call_of_error {e : ℤ} (h : op n = .error e) (lacking : Bool) :
    n.lacked ≤ (n.call lacking op).2.lacked := by
  cases lacking with
  | true => exact Nat.le_succ _
  | false => exact Nat.le_of_eq (congrArg (fun r => r.2.lacked) (call_error h)).symm

theorem at?_bind_of_mem {β : Type} {g : Sock → Except ℤ β} (h : s ∈ n.opens) :
    (n.at? s >>= g) = g (n.sock s) := by
  rw [at?, if_pos h]
  rfl

theorem at?_bind_of_not_mem {β : Type} {g : Sock → Except ℤ β} (h : s ∉ n.opens) :
    (n.at? s >>= g) = .error wsaeNotSock := by
  rw [at?, if_neg h]
  rfl

theorem at?_bind_eq_ok {β : Type} {g : Sock → Except ℤ β} {r : β} :
    (n.at? s >>= g) = .ok r ↔ s ∈ n.opens ∧ g (n.sock s) = .ok r := by
  by_cases h : s ∈ n.opens
  · rw [at?_bind_of_mem h, and_iff_right h]
  · rw [at?_bind_of_not_mem h]
    simp only [h, false_and, reduceCtorEq]

/-! ## The records -/

/-- The two networks have opened and closed the same sockets. -/
def SameBooks (n n' : Net w) : Prop := n'.opened = n.opened ∧ n'.closed = n.closed

theorem SameBooks.refl (n : Net w) : n.SameBooks n := ⟨rfl, rfl⟩

/-- An operation that opens and closes nothing. -/
def KeepsBooks (op : Net w → Except ℤ (α × Net w)) : Prop :=
  ∀ n x n', op n = .ok (x, n') → n.SameBooks n'

theorem KeepsBooks.call (h : KeepsBooks op) (n : Net w) (lacking : Bool) :
    n.SameBooks (n.call lacking op).2 := by
  cases lacking with
  | true => exact ⟨rfl, rfl⟩
  | false =>
    rcases hop : op n with e | ⟨x, n'⟩
    · rw [call_error hop]
      exact ⟨rfl, rfl⟩
    · rw [call_ok hop]
      exact h n x n' hop

theorem keepsBooks_bind (s : SOCKET w) (name : SockAddrIn) (port : BitVec 16) :
    KeepsBooks (Net.bind s name port) := by
  intro n x n' h
  obtain ⟨-, h⟩ := at?_bind_eq_ok.1 h
  split at h <;> cases h
  exact ⟨rfl, rfl⟩

theorem keepsBooks_listen (s : SOCKET w) (limit : ℕ) : KeepsBooks (Net.listen s limit) := by
  intro n x n' h
  obtain ⟨-, h⟩ := at?_bind_eq_ok.1 h
  split at h <;> cases h
  exact ⟨rfl, rfl⟩

theorem keepsBooks_getsockname (s : SOCKET w) : KeepsBooks (Net.getsockname s) := by
  intro n x n' h
  obtain ⟨-, h⟩ := at?_bind_eq_ok.1 h
  split at h <;> cases h
  exact ⟨rfl, rfl⟩

theorem keepsBooks_connect (s : SOCKET w) (dst : SockAddrIn) (port : BitVec 16) :
    KeepsBooks (Net.connect s dst port) := by
  intro n x n' h
  obtain ⟨-, h⟩ := at?_bind_eq_ok.1 h
  dsimp only at h
  split at h
  · split at h <;> cases h
    exact ⟨rfl, rfl⟩
  · cases h
    exact ⟨rfl, rfl⟩

/-- An operation that opens one socket, with the handle `s`, and returns that. -/
def OpensOne (ret : α → SOCKET w) (s : SOCKET w) (op : Net w → Except ℤ (α × Net w)) : Prop :=
  ∀ n x n', op n = .ok (x, n') → ret x = s ∧ n'.opened = n.opened ++ [s] ∧ n'.closed = n.closed

theorem opensOne_socket (type : ℤ) (s : SOCKET w) : OpensOne id s (Net.socket type s) := by
  intro n x n' h
  cases h
  exact ⟨rfl, rfl, rfl⟩

theorem opensOne_accept (s t : SOCKET w) : OpensOne Prod.fst t (Net.accept s t) := by
  intro n x n' h
  obtain ⟨-, h⟩ := at?_bind_eq_ok.1 h
  dsimp only at h
  split at h <;> cases h
  exact ⟨rfl, rfl, rfl⟩

theorem getsockname_of_bound (hs : s ∈ n.opens) (hport : (n.sock s).name.sinPort ≠ 0) :
    Net.getsockname s n = .ok (((n.sock s).name, sizeofSockAddrIn), n) := by
  rw [Net.getsockname, at?_bind_of_mem hs, if_neg hport]

/-! ## Messages -/

theorem send_of_peer {dst : SockAddrIn} (hs : s ∈ n.opens) (hpeer : (n.sock s).peer = some dst)
    (m : Msg) : Net.send s m n = .ok ((), { n with
      sock := fun t =>
        if t ∈ n.opens ∧ (n.sock t).Hears (n.sock s) dst then
          { n.sock t with inbox := (n.sock t).inbox ++ [m] }
        else n.sock t }) := by
  rw [Net.send, at?_bind_of_mem hs]
  dsimp only
  rw [hpeer]

theorem send_of_no_peer (hs : s ∈ n.opens) (hpeer : (n.sock s).peer = none) (m : Msg) :
    Net.send s m n = .error wsaeNotConn := by
  rw [Net.send, at?_bind_of_mem hs]
  dsimp only
  rw [hpeer]

/-- A send opens and closes nothing, and does nothing to a socket but add to its inbox. -/
theorem call_send (s : SOCKET w) (m : Msg) (n : Net w) :
    (n.call false (Net.send s m)).2.opens = n.opens ∧
      ∀ t, ∃ more, (n.call false (Net.send s m)).2.sock t =
        { n.sock t with inbox := (n.sock t).inbox ++ more } := by
  have hsame : ∀ t, ∃ more, n.sock t = { n.sock t with inbox := (n.sock t).inbox ++ more } :=
    fun t => ⟨[], by rw [List.append_nil]⟩
  by_cases hs : s ∈ n.opens
  · cases hpeer : (n.sock s).peer with
    | none =>
      rw [call_error (send_of_no_peer hs hpeer m)]
      exact ⟨rfl, hsame⟩
    | some dst =>
      rw [call_ok (send_of_peer hs hpeer m)]
      refine ⟨rfl, fun t => ?_⟩
      by_cases ht : t ∈ n.opens ∧ (n.sock t).Hears (n.sock s) dst
      · exact ⟨[m], if_pos ht⟩
      · obtain ⟨more, hmore⟩ := hsame t
        exact ⟨more, (if_neg ht).trans hmore⟩
  · rw [call_error (at?_bind_of_not_mem hs)]
    exact ⟨rfl, hsame⟩

/-- What `s` sends is for `t`. -/
structure Linked (n : Net w) (s t : SOCKET w) : Prop where
  sender : s ∈ n.opens
  receiver : t ∈ n.opens
  heard : ∃ dst, (n.sock s).peer = some dst ∧ (n.sock t).Hears (n.sock s) dst

/-- A link outlasts what anybody sends. -/
theorem Linked.call_send {t : SOCKET w} (h : Linked n s t) (u : SOCKET w) (m : Msg) :
    Linked (n.call false (Net.send u m)).2 s t := by
  obtain ⟨hopens, hsock⟩ := Net.call_send u m n
  obtain ⟨dst, hpeer, hheard⟩ := h.heard
  obtain ⟨_, hs⟩ := hsock s
  obtain ⟨_, ht⟩ := hsock t
  refine ⟨hopens ▸ h.sender, hopens ▸ h.receiver, dst, ?_, ?_⟩
  · rw [hs]
    exact hpeer
  · rw [hs, ht]
    exact hheard

theorem Linked.receivable_call_send {t : SOCKET w} (h : Linked n s t) (m : Msg) :
    (n.call false (Net.send s m)).2.receivable t = n.receivable t ++ [m] := by
  obtain ⟨dst, hpeer, hheard⟩ := h.heard
  rw [call_ok (send_of_peer h.sender hpeer m), receivable]
  dsimp only
  rw [if_pos ⟨h.receiver, hheard⟩]
  rfl

/-- What a sequence of sends gives to one socket. -/
def sentOn (s : SOCKET w) (msgs : List (SOCKET w × Msg)) : List Msg :=
  (msgs.filter fun m => m.1 == s).map Prod.snd

theorem sentOn_cons_self (s : SOCKET w) (m : Msg) (msgs : List (SOCKET w × Msg)) :
    sentOn s ((s, m) :: msgs) = m :: sentOn s msgs := by
  simp only [sentOn, List.filter_cons, beq_self_eq_true, if_true, List.map_cons]

theorem sentOn_cons_of_ne {t : SOCKET w} (h : t ≠ s) (m : Msg) (msgs : List (SOCKET w × Msg)) :
    sentOn s ((t, m) :: msgs) = sentOn s msgs := by
  simp only [sentOn, List.filter_cons, beq_eq_false_iff_ne.2 h, Bool.false_eq_true, if_false]

/-- **What is sent over a link arrives**, in order, among whatever else is sent. -/
theorem Linked.sendAll {t : SOCKET w} (msgs : List (SOCKET w × Msg)) (h : Linked n s t) :
    (n.receivable t ++ sentOn s msgs).Sublist ((Net.sendAll msgs n).receivable t) := by
  induction msgs generalizing n with
  | nil =>
    rw [sentOn, List.filter_nil, List.map_nil, List.append_nil]
    exact List.Sublist.refl _
  | cons m msgs ih =>
    obtain ⟨u, m⟩ := m
    rw [Net.sendAll]
    refine List.Sublist.trans ?_ (ih (h.call_send u m))
    by_cases hu : u = s
    · subst hu
      rw [h.receivable_call_send, sentOn_cons_self, List.append_assoc, List.singleton_append]
    · rw [sentOn_cons_of_ne hu]
      obtain ⟨more, hmore⟩ := (Net.call_send u m n).2 t
      refine List.Sublist.append ?_ (List.Sublist.refl _)
      rw [receivable, receivable, hmore]
      exact List.sublist_append_left _ _

end Net
end Loopback
end UtilWin
