import UtilWin.Process.Handshake

/-!
# A pair, or nothing

`socketpair` is to hand out two connected sockets, or to leave nothing behind.  Failing, it leaves
nothing behind; but when no call fails it never hands out a pair that works.  The branches for a
stream ask the protocol, which is zero, where they should ask the type: taken, they would lead to a
pair that works (`handshake_accept`, `works_accepted`).  Of a pair of datagram sockets only the
connector is connected, so messages go one way.
-/

namespace UtilWin
namespace SocketPair

open Loopback

variable {w : ℕ} {n : Net w} {type : ℤ} {k : Kernel n type} {f : Frame w}

/-! ## The contract -/

/-- An end of a pair: `fd[0]` is `false`. -/
def endOf (fd : SOCKET w × SOCKET w) : Bool → SOCKET w
  | false => fd.1
  | true => fd.2

/-- The sends on the ends of a pair, as sends on sockets. -/
def sendsOn (fd : SOCKET w × SOCKET w) (msgs : List (Bool × Msg)) : List (SOCKET w × Msg) :=
  msgs.map fun m => (endOf fd m.1, m.2)

/-- The pair works: after any sequence of sends on its ends, what was sent on each is receivable on
the other. -/
def Works (n : Net w) (fd : SOCKET w × SOCKET w) : Prop :=
  ∀ (msgs : List (Bool × Msg)) (i : Bool), (Net.sentOn (endOf fd i) (sendsOn fd msgs)).Subperm
    ((Net.sendAll (sendsOn fd msgs) n).receivable (endOf fd !i))

/-- Two sockets that are linked both ways are a pair that works. -/
theorem works_of_linked {fd : SOCKET w × SOCKET w} (h : n.Linked fd.1 fd.2)
    (h' : n.Linked fd.2 fd.1) : Works n fd := by
  intro msgs i
  have hlinked : n.Linked (endOf fd i) (endOf fd !i) := by
    cases i with
    | false => exact h
    | true => exact h'
  exact (List.sublist_append_right _ _).subperm.trans (hlinked.sendAll (sendsOn fd msgs)).subperm

/-- What `socketpair` is to do with `fd`, told by its result. -/
structure PairOrNothing (fd : SOCKET w × SOCKET w) (r : Result w) : Prop where
  /-- When no call is refused for lack of resources, there is a pair, and it works. -/
  pair : r.net.lacked = 0 → r.ret = 0 ∧ ∃ p, r.fd = some p ∧ Works r.net p
  /-- When one is, there is nothing, and no socket is left over or closed again. -/
  nothing : r.net.lacked ≠ 0 → r.ret = -1 ∧ r.fd = some fd ∧
    ∀ s ∈ r.net.opened, r.net.closed.count s = 1

theorem socketpair_of_error {fd : SOCKET w × SOCKET w} {e : Goto × Frame w}
    (h : handshake k.toAnswers type 0 (Frame.init n.watch) = .error e) :
    socketpair k.toAnswers afInet type 0 (some fd) n.watch = ⟨-1, some fd, tidyUp e⟩ := by
  rw [socketpair, if_neg (by simp), if_neg (by simp), h]

theorem socketpair_of_ok {fd : SOCKET w × SOCKET w}
    (h : handshake k.toAnswers type 0 (Frame.init n.watch) = .ok f) :
    socketpair k.toAnswers afInet type 0 (some fd) n.watch =
      ⟨0, some (f.connector, f.acceptor), f.net.closesocket f.listener⟩ := by
  rw [socketpair, if_neg (by simp), if_neg (by simp), h]

/-- A refusal is answered as it should be. -/
theorem pairOrNothing_of_refused {fd : SOCKET w × SOCKET w}
    (h : Refused (handshake k.toAnswers type 0 (Frame.init n.watch))) :
    PairOrNothing fd (socketpair k.toAnswers afInet type 0 (some fd) n.watch) := by
  obtain ⟨e, he, hlacked⟩ := h
  rw [socketpair_of_error he]
  rw [← tidyUp_lacked] at hlacked
  exact ⟨fun h => absurd h hlacked, fun _ => ⟨rfl, rfl, closed_once_of_error he⟩⟩

/-- The end that was the listener is connected to nothing, and cannot send. -/
theorem not_works_moved (hl : k.fails .socketListener = false)
    (hc : k.fails .socketConnector = false) :
    ¬ Works ((moved k).net.closesocket (moved k).listener)
      ((moved k).connector, (moved k).acceptor) := by
  intro hworks
  have hne := connector_ne_listener hl hc
  have hmem : k.handle .listener ∈ ((moved k).net.closesocket (moved k).listener).opens :=
    (List.mem_erase_of_ne (k.handle_valid .listener hl)).2
      (List.mem_cons_of_mem _ List.mem_cons_self)
  have hsock : ((moved k).net.closesocket (moved k).listener).sock (k.handle .listener) =
      { Sock.fresh type with name := SockAddrIn.loopback k.listenPort } :=
    (Net.set_sock_of_ne _ hne.symm).trans (portFound_sock_listener hl hc)
  have hsend : Net.send (k.handle .listener) [0] ((moved k).net.closesocket (moved k).listener) =
      .error wsaeNotConn := by
    rw [Net.send, Net.at?_bind_of_mem hmem, hsock]
    rfl
  have hinbox : ((moved k).net.sock (k.handle .connector)).inbox = [] :=
    congrArg Sock.inbox connected_sock_connector
  have hsent : Net.sentOn (k.handle .listener) [(k.handle .listener, [0])] = [[0]] :=
    Net.sentOn_cons_self _ _ _
  have h : List.Subperm (Net.sentOn (k.handle .listener) [(k.handle .listener, [0])])
      ((Net.sendAll [(k.handle .listener, [0])] _).receivable (k.handle .connector)) :=
    hworks [(true, [0])] true
  rw [Net.sendAll, Net.call_error hsend, hsent] at h
  have hmessage : [0] ∈ ((moved k).net.sock (k.handle .connector)).inbox :=
    h.subset List.mem_cons_self
  rw [hinbox] at hmessage
  cases hmessage

/-- **A pair of streams works, once it is accepted.** -/
theorem works_accepted {k : Kernel n sockStream} (h : ∀ c, k.fails c = false) :
    Works ((accepted k).net.closesocket (accepted k).listener)
      ((accepted k).connector, (accepted k).acceptor) := by
  have hconnector : ((accepted k).net.closesocket (accepted k).listener).sock
      (accepted k).connector = connectedSock k := accepted_sock_connector (h _) (h _) (h .accept)
  have hacceptor : ((accepted k).net.closesocket (accepted k).listener).sock
      (accepted k).acceptor = acceptedSock k := Net.add_sock_self _
  have hcl : k.handle .connector ≠ k.handle .listener := handle_ne (h _) (h _) (by decide)
  have hal : k.handle .acceptor ≠ k.handle .listener := handle_ne (h _) (h _) (by decide)
  have hcopen : (accepted k).connector ∈
      ((accepted k).net.closesocket (accepted k).listener).opens :=
    (List.mem_erase_of_ne hcl).2 (List.mem_cons_of_mem _ List.mem_cons_self)
  have haopen : (accepted k).acceptor ∈
      ((accepted k).net.closesocket (accepted k).listener).opens :=
    (List.mem_erase_of_ne hal).2 List.mem_cons_self
  refine works_of_linked ⟨hcopen, haopen, ?_⟩ ⟨haopen, hcopen, ?_⟩
  · rw [hconnector, hacceptor]
    exact ⟨_, rfl, rfl, rfl, rfl, Or.inl rfl⟩
  · rw [hconnector, hacceptor]
    exact ⟨_, rfl, rfl, rfl, rfl, Or.inl rfl⟩

/-- **`socketpair` keeps its contract only where it may fail.**  It does what it is to do exactly when
one of the calls it makes is refused for lack of resources; when none is, a stream finds nobody
listening, and of a pair of datagram sockets one end is not connected. -/
theorem pairOrNothing_iff (n : Net w) (type : ℤ) (ht : type = sockStream ∨ type = sockDgram)
    (k : Kernel n type) (fd : SOCKET w × SOCKET w) :
    PairOrNothing fd (socketpair k.toAnswers afInet type 0 (some fd) n.watch) ↔
      ∃ c ∈ callsMade type, k.fails c = true := by
  refine ⟨fun h => ?_, fun h => pairOrNothing_of_refused (handshake_refused ht h)⟩
  by_contra hnone
  have hfails : ∀ c ∈ callsMade type, k.fails c = false := fun c hc =>
    Bool.eq_false_iff.2 fun hc' => hnone ⟨c, hc, hc'⟩
  obtain ⟨hl, hb, hc, hg, hcn⟩ := early_answered hfails
  rcases ht with rfl | rfl
  · rw [socketpair_of_error (handshake_stream rfl hl hb hc hg hcn)] at h
    have hret : (-1 : ℤ) = 0 := (h.pair (tidyUp_lacked _)).1
    cases hret
  · have hgc := hfails .getsocknameConnector (by decide)
    have hck := hfails .getsocknameCheck (by decide)
    rw [socketpair_of_ok (handshake_dgram (by decide) hl hb hc hg hcn hgc hck)] at h
    obtain ⟨-, p, hp, hworks⟩ := h.pair rfl
    cases hp
    exact not_works_moved hl hc hworks

/-- A network without sockets. -/
def emptyNet : Net 64 where
  opens := []
  sock _ := Sock.fresh 0
  lastError := 0
  opened := []
  closed := []
  lacked := 0

/-- A kernel that refuses nothing. -/
def willing (type : ℤ) : Kernel emptyNet type where
  fails _ := false
  handle
    | .listener => 0x100
    | .connector => 0x104
    | .acceptor => 0x108
  listenPort := 49152
  connectPort := 49153
  opens_valid := List.not_mem_nil
  handle_valid r _ := by
    cases r <;> decide
  handle_free _ _ := List.not_mem_nil
  handle_inj r r' _ _ h := by
    revert h
    cases r <;> cases r' <;> decide
  listenPort_ne _ := by decide
  listenPort_free _ _ h := nomatch h
  connectPort_ne _ := by decide
  connectPort_free _ _ h := nomatch h
  ports_ne _ _ := by decide

theorem pairOrNothing_iff_willing :
    PairOrNothing (0, 0)
        (socketpair (willing sockDgram).toAnswers afInet sockDgram 0 (some (0, 0)) emptyNet.watch) ↔
      ∃ c ∈ callsMade sockDgram, (willing sockDgram).fails c = true :=
  pairOrNothing_iff emptyNet sockDgram (Or.inr rfl) (willing sockDgram) (0, 0)

/-- With a kernel that refuses nothing there is no pair of streams, and a pair of datagram sockets
that does not work. -/
theorem willing_not_pairOrNothing :
    ¬ PairOrNothing (0, 0) (socketpair (willing sockStream).toAnswers afInet sockStream 0
        (some (0, 0)) emptyNet.watch) ∧
      ¬ PairOrNothing (0, 0) (socketpair (willing sockDgram).toAnswers afInet sockDgram 0
        (some (0, 0)) emptyNet.watch) := by
  constructor
  · intro h
    rw [socketpair_of_error (handshake_stream rfl rfl rfl rfl rfl rfl)] at h
    have hret : (-1 : ℤ) = 0 := (h.pair (tidyUp_lacked _)).1
    cases hret
  · intro h
    rw [socketpair_of_ok (handshake_dgram (by decide) rfl rfl rfl rfl rfl rfl rfl)] at h
    obtain ⟨-, p, hp, hworks⟩ := h.pair rfl
    cases hp
    exact not_works_moved rfl rfl hworks

end SocketPair
end UtilWin
