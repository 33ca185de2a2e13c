import UtilWin.Process.SocketBooks

/-!
# Runs of the handshake

Each stage does one of a few things, told here by the answer of its call.  From that follow the runs:
a call that is made and refused makes the handshake leave; when none is, a stream is turned away at
`connect`, because only a protocol that the function does not admit would have made the listener
listen, and datagram sockets get to the end.
-/

namespace UtilWin
namespace SocketPair

open Loopback

variable {w : ℕ} {n : Net w} {type protocol : ℤ} {k : Kernel n type} {f : Frame w}

/-! ## The run without a refusal -/

/-- The frame when the listener is bound. -/
def bound (k : Kernel n type) : Frame w :=
  { Frame.init n.watch with
    listener := k.handle .listener
    listenAddr := SockAddrIn.loopback 0
    net := (n.watch.add (k.handle .listener) (Sock.fresh type)).set (k.handle .listener)
      { Sock.fresh type with name := SockAddrIn.loopback k.listenPort } }

/-- The frame when both sockets are open and the port of the listener is known. -/
def portFound (k : Kernel n type) : Frame w :=
  { bound k with
    connector := k.handle .connector
    connectAddr := SockAddrIn.loopback k.listenPort
    size := sizeofSockAddrIn
    net := (bound k).net.add (k.handle .connector) (Sock.fresh type) }

theorem openListener_init (h : k.fails .socketListener = false) :
    openListener k.toAnswers type (Frame.init n.watch) =
      .ok { Frame.init n.watch with
        listener := k.handle .listener
        net := n.watch.add (k.handle .listener) (Sock.fresh type) } := by
  rw [openListener, h]
  exact if_neg (not_lt_zero _)

theorem bindListener_eq (hs : f.listener ∈ f.net.opens)
    (hsock : f.net.sock f.listener = Sock.fresh type) (h : k.fails .bind = false) :
    bindListener k.toAnswers f = .ok { f with
      listenAddr := SockAddrIn.loopback 0
      net := f.net.set f.listener
        { Sock.fresh type with name := SockAddrIn.loopback k.listenPort } } := by
  have hop : Net.bind f.listener ⟨afInet, htonl inaddrLoopback, 0⟩ k.listenPort f.net =
      .ok ((), f.net.set f.listener
        { Sock.fresh type with name := SockAddrIn.loopback k.listenPort }) := by
    rw [Net.bind, Net.at?_bind_of_mem hs, hsock]
    rfl
  simp only [bindListener, h, Net.call_ok hop]
  rfl

theorem listenListener_of_ne (hp : protocol ≠ sockStream) :
    listenListener k.toAnswers protocol f = .ok f := if_neg hp

theorem openConnector_eq (h : k.fails .socketConnector = false) :
    openConnector k.toAnswers type f = .ok { f with
      connector := k.handle .connector
      net := f.net.add (k.handle .connector) (Sock.fresh type) } := by
  rw [openConnector, h]
  exact if_neg (not_lt_zero _)

theorem findPort_eq (hs : f.listener ∈ f.net.opens)
    (hport : (f.net.sock f.listener).name.sinPort ≠ 0)
    (h : k.fails .getsocknameListener = false) :
    findPort k.toAnswers f = .ok { f with
      connectAddr := (f.net.sock f.listener).name
      size := sizeofSockAddrIn } := by
  simp only [findPort, h]
  rw [Net.call_ok (Net.getsockname_of_bound hs hport)]
  rfl

theorem connectConnector_of_ok {n' : Net w} (h : k.fails .connect = false)
    (hop : Net.connect f.connector f.connectAddr k.connectPort f.net = .ok ((), n')) :
    connectConnector k.toAnswers f = .ok { f with net := n' } := by
  simp only [connectConnector, h, Net.call_ok hop]
  rfl

theorem connectConnector_of_error {e : ℤ} (h : k.fails .connect = false)
    (hop : Net.connect f.connector f.connectAddr k.connectPort f.net = .error e) :
    connectConnector k.toAnswers f =
      .error (.tidyUpAndFail, { f with net := { f.net with lastError := e } }) := by
  simp only [connectConnector, h, Net.call_error hop]
  rfl

theorem takeAcceptor_of_ne (hp : protocol ≠ sockStream) (hf : f.size = sizeofSockAddrIn)
    (hsize : (moveListener k.toAnswers f).size = sizeofSockAddrIn) :
    takeAcceptor k.toAnswers protocol f = .ok (moveListener k.toAnswers f) := by
  have hf' : { f with size := sizeofSockAddrIn } = f := by rw [← hf]
  rw [takeAcceptor, hf', if_neg hp]
  exact (if_neg (not_lt_zero _)).trans (if_neg (not_not_intro hsize))

theorem takeAcceptor_of_eq (hf : f.size = sizeofSockAddrIn)
    (hsize : (acceptConnector k.toAnswers f).size = sizeofSockAddrIn) :
    takeAcceptor k.toAnswers sockStream f = .ok (acceptConnector k.toAnswers f) := by
  have hf' : { f with size := sizeofSockAddrIn } = f := by rw [← hf]
  rw [takeAcceptor, hf', if_pos rfl]
  exact (if_neg (not_lt_zero _)).trans (if_neg (not_not_intro hsize))

theorem moveListener_of_ok {name : SockAddrIn} {size : ℤ}
    (h : k.fails .getsocknameConnector = false)
    (hop : Net.getsockname f.connector f.net = .ok ((name, size), f.net)) :
    moveListener k.toAnswers f = { f with
      acceptor := f.listener
      listener := invalidSocket
      listenAddr := name
      size := size } := by
  simp only [moveListener, h, Net.call_ok hop]

/-- An answer that nobody looks at. -/
theorem moveListener_of_lacking (h : k.fails .getsocknameConnector = true) :
    moveListener k.toAnswers f = { f with
      acceptor := f.listener
      listener := invalidSocket
      net := { f.net with lastError := wsaeNoBufs, lacked := f.net.lacked + 1 } } := by
  simp only [moveListener, h, Net.call_lacking]

theorem checkSelf_of_eq (h : k.fails .getsocknameCheck = false)
    (hop : Net.getsockname f.connector f.net = .ok ((f.listenAddr, sizeofSockAddrIn), f.net)) :
    checkSelf k.toAnswers f = .ok { f with
      connectAddr := f.listenAddr
      size := sizeofSockAddrIn } := by
  simp only [checkSelf, h, Net.call_ok hop, ne_eq, not_true_eq_false, or_self, if_false]

theorem checkSelf_of_port_ne {name : SockAddrIn} (h : k.fails .getsocknameCheck = false)
    (hop : Net.getsockname f.connector f.net = .ok ((name, sizeofSockAddrIn), f.net))
    (hport : f.listenAddr.sinPort ≠ name.sinPort) :
    checkSelf k.toAnswers f = .error (.abortTidyUpAndFail, { f with
      connectAddr := name
      size := sizeofSockAddrIn }) := by
  simp only [checkSelf, h, Net.call_ok hop]
  exact if_pos (Or.inr (Or.inr (Or.inr hport)))

/-! ## Refusals -/

/-- The stage leaves, and a call has been refused for lack of resources. -/
def Refused (x : Stage w) : Prop := ∃ e, x = .error e ∧ e.2.net.lacked ≠ 0

theorem Refused.bind {x : Stage w} (h : Refused x) (g : Frame w → Stage w) : Refused (x >>= g) := by
  obtain ⟨e, rfl, he⟩ := h
  exact ⟨e, rfl, he⟩

theorem bindListener_refused (h : k.fails .bind = true) : Refused (bindListener k.toAnswers f) := by
  rw [bindListener, h]
  exact ⟨_, rfl, Nat.succ_ne_zero _⟩

theorem bindListener_not_open (hs : f.listener ∉ f.net.opens) (hlacked : f.net.lacked ≠ 0) :
    Refused (bindListener k.toAnswers f) := by
  have hop : Net.bind f.listener (SockAddrIn.loopback 0) k.listenPort f.net = .error wsaeNotSock :=
    Net.at?_bind_of_not_mem hs
  have hle := Net.lacked_le_call_of_error hop (k.fails .bind)
  refine ⟨(.tidyUpAndFail, _), if_pos ?_, fun h => hlacked (Nat.le_zero.1 (h ▸ hle))⟩
  exact congrArg Option.isNone (Net.call_fst_of_error hop _)

theorem findPort_refused (h : k.fails .getsocknameListener = true) :
    Refused (findPort k.toAnswers f) := by
  rw [findPort, h]
  exact ⟨_, rfl, Nat.succ_ne_zero _⟩

theorem connectConnector_refused (h : k.fails .connect = true) :
    Refused (connectConnector k.toAnswers f) := by
  rw [connectConnector, h]
  exact ⟨_, rfl, Nat.succ_ne_zero _⟩

theorem connectConnector_not_open (hs : f.connector ∉ f.net.opens) (hlacked : f.net.lacked ≠ 0) :
    Refused (connectConnector k.toAnswers f) := by
  have hop : Net.connect f.connector f.connectAddr k.connectPort f.net = .error wsaeNotSock :=
    Net.at?_bind_of_not_mem hs
  have hle := Net.lacked_le_call_of_error hop (k.fails .connect)
  refine ⟨(.tidyUpAndFail, _), if_pos ?_, fun h => hlacked (Nat.le_zero.1 (h ▸ hle))⟩
  exact congrArg Option.isNone (Net.call_fst_of_error hop _)

theorem checkSelf_refused (h : k.fails .getsocknameCheck = true) :
    Refused (checkSelf k.toAnswers f) := by
  rw [checkSelf, h]
  exact ⟨_, rfl, Nat.succ_ne_zero _⟩

/-! ## The handshake -/

theorem ok_bind (f : Frame w) (g : Frame w → Stage w) : ((.ok f : Stage w) >>= g) = g f := rfl

theorem zero_ne_sockStream : (0 : ℤ) ≠ sockStream := by decide

theorem connector_ne_listener (hl : k.fails .socketListener = false)
    (hc : k.fails .socketConnector = false) : k.handle .connector ≠ k.handle .listener := by
  intro h
  cases k.handle_inj .connector .listener hc hl h

theorem bound_sock_listener : (bound k).net.sock (k.handle .listener) =
    { Sock.fresh type with name := SockAddrIn.loopback k.listenPort } := Net.set_sock_self _

theorem portFound_sock_listener (hl : k.fails .socketListener = false)
    (hc : k.fails .socketConnector = false) :
    (portFound k).net.sock (k.handle .listener) =
      { Sock.fresh type with name := SockAddrIn.loopback k.listenPort } :=
  (Net.add_sock_of_ne _ (connector_ne_listener hl hc).symm).trans bound_sock_listener

theorem portFound_sock_connector :
    (portFound k).net.sock (k.handle .connector) = Sock.fresh type := Net.add_sock_self _

/-- The stages from `listen` on. -/
theorem handshake_of_bound (hl : k.fails .socketListener = false) (hb : k.fails .bind = false)
    (protocol : ℤ) : handshake k.toAnswers type protocol (Frame.init n.watch) =
      (listenListener k.toAnswers protocol (bound k) >>= fun f =>
        openConnector k.toAnswers type f >>= fun f => findPort k.toAnswers f >>= fun f =>
          connectConnector k.toAnswers f >>= fun f => takeAcceptor k.toAnswers protocol f >>=
            checkSelf k.toAnswers) := by
  rw [handshake, openListener_init hl, ok_bind,
    bindListener_eq List.mem_cons_self (Net.add_sock_self _) hb, ok_bind]
  rfl

/-- The stages from `connect` on. -/
theorem handshake_of_portFound (hl : k.fails .socketListener = false) (hb : k.fails .bind = false)
    (hc : k.fails .socketConnector = false) (hg : k.fails .getsocknameListener = false) :
    handshake k.toAnswers type 0 (Frame.init n.watch) =
      (connectConnector k.toAnswers (portFound k) >>= fun f =>
        takeAcceptor k.toAnswers 0 f >>= checkSelf k.toAnswers) := by
  have hsock := portFound_sock_listener hl hc
  have hport : ((portFound k).net.sock (k.handle .listener)).name.sinPort ≠ 0 := by
    rw [hsock]
    exact k.listenPort_ne hb
  have hmem : k.handle .listener ∈ (portFound k).net.opens :=
    List.mem_cons_of_mem _ List.mem_cons_self
  have hfind : findPort k.toAnswers
      { portFound k with connectAddr := SockAddrIn.zero, size := 0 } = .ok (portFound k) := by
    refine (findPort_eq hmem hport hg).trans ?_
    exact congrArg (fun x => Except.ok { portFound k with connectAddr := Sock.name x }) hsock
  rw [handshake_of_bound hl hb, listenListener_of_ne zero_ne_sockStream, ok_bind,
    openConnector_eq hc, ok_bind]
  exact congrArg (· >>= fun f => connectConnector k.toAnswers f >>= fun f =>
    takeAcceptor k.toAnswers 0 f >>= checkSelf k.toAnswers) hfind

/-! ### A stream -/

/-- Nothing listens where the connector goes. -/
theorem not_admits (ht : type = sockStream) (hl : k.fails .socketListener = false)
    (hb : k.fails .bind = false) (hc : k.fails .socketConnector = false) (s : SOCKET w)
    (hs : s ∈ (portFound k).net.opens) :
    ¬ ((portFound k).net.sock s).Admits (SockAddrIn.loopback k.listenPort) := by
  rcases List.mem_cons.1 hs with rfl | hs
  · rw [portFound_sock_connector]
    exact Sock.not_admits rfl _
  rcases List.mem_cons.1 hs with rfl | hs
  · rw [portFound_sock_listener hl hc]
    exact Sock.not_admits rfl _
  -- a socket of the process from before does not have the port
  have hsl : s ≠ k.handle .listener := fun h => k.handle_free .listener hl (h ▸ hs)
  have hsc : s ≠ k.handle .connector := fun h => k.handle_free .connector hc (h ▸ hs)
  have hsock : (portFound k).net.sock s = n.sock s := by
    refine (Net.add_sock_of_ne _ hsc).trans ?_
    exact (Net.set_sock_of_ne _ hsl).trans (Net.add_sock_of_ne _ hsl)
  rw [hsock]
  rintro ⟨hstream, hname, -⟩
  exact k.listenPort_free hb s hs (hstream.trans ht.symm) (congrArg SockAddrIn.sinPort hname)

/-- The listener of a stream does not listen, and the connector is refused. -/
theorem handshake_stream (ht : type = sockStream) (hl : k.fails .socketListener = false)
    (hb : k.fails .bind = false) (hc : k.fails .socketConnector = false)
    (hg : k.fails .getsocknameListener = false) (hcn : k.fails .connect = false) :
    handshake k.toAnswers type 0 (Frame.init n.watch) = .error (.tidyUpAndFail,
      { portFound k with net := { (portFound k).net with lastError := wsaeConnRefused } }) := by
  have hop : Net.connect (k.handle .connector) (SockAddrIn.loopback k.listenPort) k.connectPort
      (portFound k).net = .error wsaeConnRefused := by
    have hfind : (portFound k).net.opens.find? (fun t =>
        ((portFound k).net.sock t).Admits (SockAddrIn.loopback k.listenPort)) = none :=
      List.find?_eq_none.2 fun s hs => by
        rw [decide_eq_true_iff]
        exact not_admits ht hl hb hc s hs
    rw [Net.connect, Net.at?_bind_of_mem List.mem_cons_self, hfind, portFound_sock_connector]
    exact if_pos ht
  rw [handshake_of_portFound hl hb hc hg, connectConnector_of_error hcn hop]
  rfl

/-! ### Datagrams -/

/-- The frame when the connector is connected to a listener that does not listen. -/
def connected (k : Kernel n type) : Frame w :=
  { portFound k with
    net := (portFound k).net.set (k.handle .connector) { Sock.fresh type with
      name := SockAddrIn.loopback k.connectPort
      peer := some (SockAddrIn.loopback k.listenPort) } }

theorem connectConnector_dgram (ht : type ≠ sockStream) (hcn : k.fails .connect = false) :
    connectConnector k.toAnswers (portFound k) = .ok (connected k) := by
  refine connectConnector_of_ok hcn ?_
  show Net.connect (k.handle .connector) (SockAddrIn.loopback k.listenPort) k.connectPort
    (portFound k).net = _
  rw [Net.connect, Net.at?_bind_of_mem List.mem_cons_self, portFound_sock_connector]
  exact if_neg ht

theorem connected_sock_connector : (connected k).net.sock (k.handle .connector) =
    { Sock.fresh type with
      name := SockAddrIn.loopback k.connectPort
      peer := some (SockAddrIn.loopback k.listenPort) } := Net.set_sock_self _

theorem getsockname_connector (hcn : k.fails .connect = false) (n' : Net w)
    (hopens : n'.opens = (connected k).net.opens) (hsock : n'.sock = (connected k).net.sock) :
    Net.getsockname (k.handle .connector) n' =
      .ok ((SockAddrIn.loopback k.connectPort, sizeofSockAddrIn), n') := by
  have hmem : k.handle .connector ∈ n'.opens := hopens ▸ List.mem_cons_self
  have hname : n'.sock (k.handle .connector) = _ :=
    (congrFun hsock _).trans connected_sock_connector
  have hport : (n'.sock (k.handle .connector)).name.sinPort ≠ 0 := by
    rw [hname]
    exact k.connectPort_ne hcn
  rw [Net.getsockname_of_bound hmem hport, hname]

/-- The frame that the handshake for datagrams ends in. -/
def moved (k : Kernel n type) : Frame w :=
  { connected k with
    acceptor := k.handle .listener
    listener := invalidSocket
    listenAddr := SockAddrIn.loopback k.connectPort
    connectAddr := SockAddrIn.loopback k.connectPort }

theorem handshake_dgram (ht : type ≠ sockStream) (hl : k.fails .socketListener = false)
    (hb : k.fails .bind = false) (hc : k.fails .socketConnector = false)
    (hg : k.fails .getsocknameListener = false) (hcn : k.fails .connect = false)
    (hgc : k.fails .getsocknameConnector = false) (hck : k.fails .getsocknameCheck = false) :
    handshake k.toAnswers type 0 (Frame.init n.watch) = .ok (moved k) := by
  have hname := getsockname_connector hcn (connected k).net rfl rfl
  have hmove := moveListener_of_ok (f := connected k) hgc hname
  rw [handshake_of_portFound hl hb hc hg, connectConnector_dgram ht hcn, ok_bind,
    takeAcceptor_of_ne zero_ne_sockStream rfl (by rw [hmove]), hmove, ok_bind]
  exact checkSelf_of_eq (f := { connected k with
    acceptor := k.handle .listener
    listener := invalidSocket
    listenAddr := SockAddrIn.loopback k.connectPort }) hck hname

/-- The ignored failure is found out: the listener's address has no port yet. -/
theorem handshake_dgram_lacking (ht : type ≠ sockStream) (hl : k.fails .socketListener = false)
    (hb : k.fails .bind = false) (hc : k.fails .socketConnector = false)
    (hg : k.fails .getsocknameListener = false) (hcn : k.fails .connect = false)
    (hgc : k.fails .getsocknameConnector = true) :
    Refused (handshake k.toAnswers type 0 (Frame.init n.watch)) := by
  have hmove := moveListener_of_lacking (f := connected k) hgc
  rw [handshake_of_portFound hl hb hc hg, connectConnector_dgram ht hcn, ok_bind,
    takeAcceptor_of_ne zero_ne_sockStream rfl (by rw [hmove]; rfl), hmove, ok_bind]
  cases hck : k.fails .getsocknameCheck with
  | true => exact checkSelf_refused hck
  | false =>
    have hop := getsockname_connector hcn { (connected k).net with
      lastError := wsaeNoBufs, lacked := (connected k).net.lacked + 1 } rfl rfl
    refine ⟨_, checkSelf_of_port_ne hck hop ?_, Nat.succ_ne_zero _⟩
    exact (k.connectPort_ne hcn).symm

/-! ## The calls that count -/

/-- The calls that `socketpair` makes, in their order, when none is refused. -/
def callsMade (type : ℤ) : List Call :=
  [.socketListener, .bind, .socketConnector, .getsocknameListener, .connect] ++
    if type = sockDgram then [.getsocknameConnector, .getsocknameCheck] else []

theorem refused_socketListener (h : k.fails .socketListener = true) :
    Refused (handshake k.toAnswers type 0 (Frame.init n.watch)) := by
  have hopen : openListener k.toAnswers type (Frame.init n.watch) =
      .ok { Frame.init n.watch with
        listener := invalidSocket
        net := { n.watch with lastError := wsaeNoBufs, lacked := 1 } } := by
    rw [openListener, h]
    exact if_neg (not_lt_zero _)
  rw [handshake, hopen, ok_bind]
  exact (bindListener_not_open k.opens_valid Nat.one_ne_zero).bind _

theorem refused_bind (hl : k.fails .socketListener = false) (h : k.fails .bind = true) :
    Refused (handshake k.toAnswers type 0 (Frame.init n.watch)) := by
  rw [handshake, openListener_init hl, ok_bind]
  exact (bindListener_refused h).bind _

/-- The frame when the connector is refused. -/
def connectorLacking (k : Kernel n type) : Frame w :=
  { bound k with
    connector := invalidSocket
    net := { (bound k).net with lastError := wsaeNoBufs, lacked := 1 } }

theorem refused_socketConnector (hl : k.fails .socketListener = false)
    (hb : k.fails .bind = false) (h : k.fails .socketConnector = true) :
    Refused (handshake k.toAnswers type 0 (Frame.init n.watch)) := by
  have hopen : openConnector k.toAnswers type (bound k) = .ok (connectorLacking k) := by
    rw [openConnector, h]
    exact if_neg (not_lt_zero _)
  have hport : ((connectorLacking k).net.sock (k.handle .listener)).name.sinPort ≠ 0 := by
    rw [show (connectorLacking k).net.sock (k.handle .listener) = _ from bound_sock_listener]
    exact k.listenPort_ne hb
  have hinvalid : invalidSocket ∉ k.handle .listener :: n.opens :=
    List.not_mem_cons_of_ne_of_not_mem (k.handle_valid .listener hl).symm k.opens_valid
  rw [handshake_of_bound hl hb, listenListener_of_ne zero_ne_sockStream, ok_bind, hopen, ok_bind]
  cases hg : k.fails .getsocknameListener with
  | true => exact (findPort_refused hg).bind _
  | false =>
    -- the port is found, and then there is no socket to connect
    rw [findPort_eq (f := connectorLacking k) List.mem_cons_self hport hg, ok_bind]
    exact (connectConnector_not_open hinvalid Nat.one_ne_zero).bind _

theorem early_answered (h : ∀ c ∈ callsMade type, k.fails c = false) :
    k.fails .socketListener = false ∧ k.fails .bind = false ∧ k.fails .socketConnector = false ∧
      k.fails .getsocknameListener = false ∧ k.fails .connect = false := by
  refine ⟨h _ ?_, h _ ?_, h _ ?_, h _ ?_, h _ ?_⟩ <;>
    exact List.mem_append_left _ (by decide)

/-- **A call that is made and refused makes `socketpair` fail.** -/
theorem handshake_refused (ht : type = sockStream ∨ type = sockDgram)
    (h : ∃ c ∈ callsMade type, k.fails c = true) :
    Refused (handshake k.toAnswers type 0 (Frame.init n.watch)) := by
  cases hl : k.fails .socketListener with
  | true => exact refused_socketListener hl
  | false =>
  cases hb : k.fails .bind with
  | true => exact refused_bind hl hb
  | false =>
  cases hc : k.fails .socketConnector with
  | true => exact refused_socketConnector hl hb hc
  | false =>
  cases hg : k.fails .getsocknameListener with
  | true =>
    rw [handshake_of_bound hl hb, listenListener_of_ne zero_ne_sockStream, ok_bind,
    openConnector_eq hc, ok_bind]
    exact (findPort_refused hg).bind _
  | false =>
  cases hcn : k.fails .connect with
  | true =>
    rw [handshake_of_portFound hl hb hc hg]
    exact (connectConnector_refused hcn).bind _
  | false =>
  obtain ⟨c, hmem, hfails⟩ := h
  have hearly : ∀ c ∈ [Call.socketListener, .bind, .socketConnector, .getsocknameListener,
      .connect], k.fails c = false := by
    simp only [List.forall_mem_cons, List.not_mem_nil, false_imp_iff, implies_true, and_true]
    exact ⟨hl, hb, hc, hg, hcn⟩
  have hlate : type = sockDgram ∧ (c = .getsocknameConnector ∨ c = .getsocknameCheck) := by
    rcases List.mem_append.1 hmem with hmem | hmem
    · rw [hearly c hmem] at hfails
      cases hfails
    · split at hmem
      · simp only [List.mem_cons, List.not_mem_nil, or_false] at hmem
        exact ⟨‹_›, hmem⟩
      · cases hmem
  obtain ⟨rfl, hlate⟩ := hlate
  have htn : sockDgram ≠ sockStream := by decide
  cases hgc : k.fails .getsocknameConnector with
  | true => exact handshake_dgram_lacking htn hl hb hc hg hcn hgc
  | false =>
    rcases hlate with rfl | rfl
    · rw [hgc] at hfails
      cases hfails
    · rw [handshake_of_portFound hl hb hc hg, connectConnector_dgram htn hcn, ok_bind,
        takeAcceptor_of_ne zero_ne_sockStream rfl]
      · exact checkSelf_refused hfails
      · rw [moveListener_of_ok (f := connected k) hgc (getsockname_connector hcn _ rfl rfl)]

/-! ## The branch that is not taken

Were `protocol` to say `SOCK_STREAM`, the listener would listen and accept the connector. -/

section Accept

variable {k : Kernel n sockStream}

/-- The listener, with the addresses that wait. -/
def listeningSock (k : Kernel n sockStream) (waiting : List SockAddrIn) : Sock :=
  { Sock.fresh sockStream with
    name := SockAddrIn.loopback k.listenPort
    backlog := some (1, waiting) }

/-- The connector, connected. -/
def connectedSock (k : Kernel n sockStream) : Sock :=
  { Sock.fresh sockStream with
    name := SockAddrIn.loopback k.connectPort
    peer := some (SockAddrIn.loopback k.listenPort) }

/-- The other end. -/
def acceptedSock (k : Kernel n sockStream) : Sock :=
  { Sock.fresh sockStream with
    name := SockAddrIn.loopback k.listenPort
    peer := some (SockAddrIn.loopback k.connectPort) }

/-- The frame when the listener listens. -/
def listening (k : Kernel n sockStream) : Frame w :=
  { bound k with net := (bound k).net.set (k.handle .listener) (listeningSock k []) }

/-- The frame when the port of the listening listener is known. -/
def listeningFound (k : Kernel n sockStream) : Frame w :=
  { listening k with
    connector := k.handle .connector
    connectAddr := SockAddrIn.loopback k.listenPort
    size := sizeofSockAddrIn
    net := (listening k).net.add (k.handle .connector) (Sock.fresh sockStream) }

/-- The frame when the connector waits to be accepted. -/
def queued (k : Kernel n sockStream) : Frame w :=
  { listeningFound k with
    net := ((listeningFound k).net.set (k.handle .listener)
      (listeningSock k [SockAddrIn.loopback k.connectPort])).set (k.handle .connector)
        (connectedSock k) }

/-- The frame that the handshake ends in. -/
def accepted (k : Kernel n sockStream) : Frame w :=
  { queued k with
    acceptor := k.handle .acceptor
    listenAddr := SockAddrIn.loopback k.connectPort
    connectAddr := SockAddrIn.loopback k.connectPort
    net := ((queued k).net.set (k.handle .listener) (listeningSock k [])).add (k.handle .acceptor)
      (acceptedSock k) }

theorem handle_ne {r r' : Role} (hr : k.fails r.opener = false) (hr' : k.fails r'.opener = false)
    (h : r ≠ r') : k.handle r ≠ k.handle r' := fun heq => h (k.handle_inj r r' hr hr' heq)

theorem listenListener_bound (hb : k.fails .bind = false) (hls : k.fails .listen = false) :
    listenListener k.toAnswers sockStream (bound k) = .ok (listening k) := by
  have hop : Net.listen (k.handle .listener) 1 (bound k).net = .ok ((), (listening k).net) := by
    rw [Net.listen, Net.at?_bind_of_mem List.mem_cons_self, bound_sock_listener]
    exact if_neg (k.listenPort_ne hb)
  rw [listenListener, if_pos rfl, hls,
    show (bound k).listener = k.handle .listener from rfl, Net.call_ok hop]
  rfl

theorem listeningFound_sock_listener (hl : k.fails .socketListener = false)
    (hc : k.fails .socketConnector = false) :
    (listeningFound k).net.sock (k.handle .listener) = listeningSock k [] :=
  (Net.add_sock_of_ne _ (connector_ne_listener hl hc).symm).trans (Net.set_sock_self _)

theorem connect_listening (hl : k.fails .socketListener = false)
    (hc : k.fails .socketConnector = false) :
    Net.connect (k.handle .connector) (SockAddrIn.loopback k.listenPort) k.connectPort
      (listeningFound k).net = .ok ((), (queued k).net) := by
  have hsock := listeningFound_sock_listener hl hc
  have hadmits : (listeningSock k []).Admits (SockAddrIn.loopback k.listenPort) :=
    ⟨rfl, rfl, _, rfl, Nat.zero_lt_one⟩
  have hfind : (listeningFound k).net.opens.find? (fun t =>
      ((listeningFound k).net.sock t).Admits (SockAddrIn.loopback k.listenPort)) =
        some (k.handle .listener) := by
    show List.find? _ (k.handle .connector :: k.handle .listener :: n.opens) = _
    rw [List.find?_cons_of_neg, List.find?_cons_of_pos]
    · rw [hsock]
      exact decide_eq_true hadmits
    · rw [show (listeningFound k).net.sock (k.handle .connector) = _ from Net.add_sock_self _,
        decide_eq_true_iff]
      exact Sock.not_admits rfl _
  rw [Net.connect, Net.at?_bind_of_mem List.mem_cons_self, hfind]
  dsimp only
  rw [hsock, show (listeningFound k).net.sock (k.handle .connector) = _ from Net.add_sock_self _]
  rfl

theorem queued_sock_listener (hl : k.fails .socketListener = false)
    (hc : k.fails .socketConnector = false) : (queued k).net.sock (k.handle .listener) =
      listeningSock k [SockAddrIn.loopback k.connectPort] :=
  (Net.set_sock_of_ne _ (connector_ne_listener hl hc).symm).trans (Net.set_sock_self _)

theorem acceptConnector_queued (hl : k.fails .socketListener = false)
    (hc : k.fails .socketConnector = false) (ha : k.fails .accept = false) :
    acceptConnector k.toAnswers (queued k) = { accepted k with
      connectAddr := SockAddrIn.loopback k.listenPort } := by
  have hmem : k.handle .listener ∈ (queued k).net.opens :=
    List.mem_cons_of_mem _ List.mem_cons_self
  have hop : Net.accept (k.handle .listener) (k.handle .acceptor) (queued k).net =
      .ok ((k.handle .acceptor, SockAddrIn.loopback k.connectPort, sizeofSockAddrIn),
        (accepted k).net) := by
    rw [Net.accept, Net.at?_bind_of_mem hmem, queued_sock_listener hl hc]
    rfl
  simp only [acceptConnector, ha]
  rw [show (queued k).listener = k.handle .listener from rfl, Net.call_ok hop]
  rfl

theorem accepted_sock_connector (hl : k.fails .socketListener = false)
    (hc : k.fails .socketConnector = false) (ha : k.fails .accept = false) :
    (accepted k).net.sock (k.handle .connector) = connectedSock k := by
  have hca : k.handle .connector ≠ k.handle .acceptor := handle_ne hc ha (by decide)
  refine (Net.add_sock_of_ne _ hca).trans ?_
  exact (Net.set_sock_of_ne _ (connector_ne_listener hl hc)).trans (Net.set_sock_self _)

/-- **With the protocol for the type, a stream gets to the end.** -/
theorem handshake_accept (h : ∀ c, k.fails c = false) :
    handshake k.toAnswers sockStream sockStream (Frame.init n.watch) = .ok (accepted k) := by
  have hl := h .socketListener
  have hc := h .socketConnector
  have hport : ((listeningFound k).net.sock (k.handle .listener)).name.sinPort ≠ 0 := by
    rw [listeningFound_sock_listener hl hc]
    exact k.listenPort_ne (h .bind)
  have hfind : findPort k.toAnswers
      { listeningFound k with connectAddr := SockAddrIn.zero, size := 0 } =
        .ok (listeningFound k) := by
    refine (findPort_eq (List.mem_cons_of_mem _ List.mem_cons_self) hport (h _)).trans ?_
    exact congrArg (fun x => Except.ok { listeningFound k with connectAddr := Sock.name x })
      (listeningFound_sock_listener hl hc)
  have hconnect : connectConnector k.toAnswers (listeningFound k) = .ok (queued k) :=
    connectConnector_of_ok (h _) (connect_listening hl hc)
  have htake : takeAcceptor k.toAnswers sockStream (queued k) =
      .ok { accepted k with connectAddr := SockAddrIn.loopback k.listenPort } := by
    have haccept := acceptConnector_queued hl hc (h .accept)
    rw [takeAcceptor_of_eq rfl (congrArg Frame.size haccept), haccept]
  have hcheck : checkSelf k.toAnswers
      { accepted k with connectAddr := SockAddrIn.loopback k.listenPort } = .ok (accepted k) := by
    have hsock := accepted_sock_connector hl hc (h .accept)
    have hport : ((accepted k).net.sock (k.handle .connector)).name.sinPort ≠ 0 := by
      rw [hsock]
      exact k.connectPort_ne (h _)
    refine checkSelf_of_eq (h _) ?_
    refine (Net.getsockname_of_bound (List.mem_cons_of_mem _ List.mem_cons_self) hport).trans ?_
    exact congrArg (fun x => Except.ok ((Sock.name x, sizeofSockAddrIn), (accepted k).net)) hsock
  rw [handshake_of_bound hl (h _), listenListener_bound (h _) (h _), ok_bind,
    openConnector_eq (h _), ok_bind]
  refine (congrArg (· >>= _) hfind).trans ?_
  rw [ok_bind, hconnect, ok_bind, htake, ok_bind, hcheck]

end Accept

end SocketPair
end UtilWin
