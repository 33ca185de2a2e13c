import Mathlib.Data.List.Nodup
import UtilWin.Process.SocketPair

/-!
# The books of `socketpair`

What is opened is accounted for: at every point of `socketpair` the sockets opened so far are, as a
multiset, what the three variables hold (`Accounted`), also while the listener moves to the acceptor.
The clean-up closes what they hold, so each socket once.
-/

namespace UtilWin
namespace SocketPair

open Loopback

variable {w : ℕ} {n : Net w} {type protocol : ℤ} {k : Kernel n type} {f : Frame w}

/-! ## What the variables hold -/

/-- What a variable holds, if that is a socket. -/
def keep (s : SOCKET w) : List (SOCKET w) := if s = invalidSocket then [] else [s]

@[simp] theorem keep_invalid : keep (invalidSocket : SOCKET w) = [] := if_pos rfl

theorem keep_valid {s : SOCKET w} (h : s ≠ invalidSocket) : keep s = [s] := if_neg h

/-- The variable for a role. -/
def Frame.var (f : Frame w) : Role → SOCKET w
  | .listener => f.listener
  | .connector => f.connector
  | .acceptor => f.acceptor

/-- The sockets in the three variables. -/
def held (v : Role → SOCKET w) : List (SOCKET w) :=
  keep (v .listener) ++ keep (v .connector) ++ keep (v .acceptor)

theorem held_update {v : Role → SOCKET w} {r : Role} {s : SOCKET w} (hs : s ≠ invalidSocket)
    (hr : v r = invalidSocket) : (held (Function.update v r s)).Perm (s :: held v) := by
  cases r with
  | listener =>
    simp only [held, Function.update_self, Function.update_of_ne, ne_eq, reduceCtorEq,
      not_false_eq_true, keep_valid hs, hr, keep_invalid]
    exact List.Perm.refl _
  | connector =>
    simp only [held, Function.update_self, Function.update_of_ne, ne_eq, reduceCtorEq,
      not_false_eq_true, keep_valid hs, hr, keep_invalid, List.append_assoc, List.nil_append]
    exact List.perm_middle
  | acceptor =>
    simp only [held, Function.update_self, Function.update_of_ne, ne_eq, reduceCtorEq,
      not_false_eq_true, keep_valid hs, hr, keep_invalid, List.append_nil]
    exact List.perm_append_singleton _ _

/-- The books are in order. -/
structure Balanced (f : Frame w) : Prop where
  ledger : f.net.opened.Perm (held f.var)
  nodup : f.net.opened.Nodup
  closed : f.net.closed = []

/-- The books are in order, and only the sockets for the roles in `done` have been asked for. -/
structure Accounted (k : Kernel n type) (done : List Role) (f : Frame w) : Prop
    extends Balanced f where
  used : ∀ s ∈ f.net.opened, ∃ r ∈ done, k.fails r.opener = false ∧ k.handle r = s
  unset : ∀ r ∉ done, f.var r = invalidSocket

theorem Accounted.init : Accounted k [] (Frame.init n.watch) where
  ledger := by
    simp only [held, Frame.var, Frame.init, neg_one_eq, keep_invalid, List.append_nil]
    exact List.Perm.refl _
  nodup := List.nodup_nil
  closed := rfl
  used s hs := nomatch hs
  unset r _ := by
    cases r <;> exact neg_one_eq

/-- What opens and closes nothing and leaves the variables alone keeps the books. -/
theorem Accounted.of_sameBooks {done : List Role} {f' : Frame w} (h : Accounted k done f)
    (hvar : f'.var = f.var) (hbooks : f.net.SameBooks f'.net) : Accounted k done f' where
  ledger := by
    rw [hvar, hbooks.1]
    exact h.ledger
  nodup := by
    rw [hbooks.1]
    exact h.nodup
  closed := hbooks.2.trans h.closed
  used := by
    rw [hbooks.1]
    exact h.used
  unset := by
    rw [hvar]
    exact h.unset

/-- A new socket in the variable that is to hold it. -/
theorem Accounted.open {done : List Role} {f' : Frame w} {r : Role} (h : Accounted k done f)
    (hr : r ∉ done) (hfails : k.fails r.opener = false)
    (hvar : f'.var = Function.update f.var r (k.handle r))
    (hopened : f'.net.opened = f.net.opened ++ [k.handle r])
    (hclosed : f'.net.closed = f.net.closed) : Accounted k (r :: done) f' where
  ledger := by
    rw [hopened, hvar]
    exact (List.perm_append_singleton _ _).trans ((h.ledger.cons _).trans
      (held_update (k.handle_valid r hfails) (h.unset r hr)).symm)
  nodup := by
    rw [hopened]
    refine List.nodup_append.2 ⟨h.nodup, List.pairwise_singleton _ _, ?_⟩
    rintro s hs t ht rfl
    obtain ⟨r', hr', hfails', heq⟩ := h.used s hs
    -- a handle that is in use already was given to another role
    rw [← heq, List.mem_singleton] at ht
    exact hr (k.handle_inj r' r hfails' hfails ht ▸ hr')
  closed := hclosed.trans h.closed
  used s hs := by
    rw [hopened] at hs
    rcases List.mem_append.1 hs with hs | hs
    · obtain ⟨r', hr', h'⟩ := h.used s hs
      exact ⟨r', List.mem_cons_of_mem _ hr', h'⟩
    · exact ⟨r, List.mem_cons_self, hfails, (List.mem_singleton.1 hs).symm⟩
  unset r' hr' := by
    rw [hvar, Function.update_of_ne (List.ne_of_not_mem_cons hr')]
    exact h.unset r' (List.not_mem_of_not_mem_cons hr')

theorem Accounted.mono {done done' : List Role} (h : Accounted k done f) (hle : done ⊆ done') :
    Accounted k done' f where
  toBalanced := h.toBalanced
  used s hs := by
    obtain ⟨r, hr, h'⟩ := h.used s hs
    exact ⟨r, hle hr, h'⟩
  unset r hr := h.unset r fun h' => hr (hle h')

/-! ## Every stage keeps the books -/

/-- Falling through, the stage ends with `Q`.  Leaving, it goes to the clean-up, with the books in
order. -/
def Meets (x : Stage w) (Q : Frame w → Prop) : Prop :=
  match x with
  | .ok f => Q f
  | .error e => e.1 ≠ .returnFail ∧ Balanced e.2

theorem Meets.bind {x : Stage w} {g : Frame w → Stage w} {Q R : Frame w → Prop}
    (hx : Meets x Q) (hg : ∀ f, Q f → Meets (g f) R) : Meets (x >>= g) R := by
  rcases x with e | f
  · exact hx
  · exact hg f hx

theorem Meets.leave {g : Goto} {Q : Frame w → Prop} (hb : Balanced f) (hg : g ≠ .returnFail) :
    Meets (.error (g, f)) Q := ⟨hg, hb⟩

theorem Meets.ite {c : Prop} [Decidable c] {x y : Stage w} {Q : Frame w → Prop} (hx : Meets x Q)
    (hy : Meets y Q) : Meets (if c then x else y) Q := by
  split
  · exact hx
  · exact hy

/-- A stage that ends in one test. -/
theorem Accounted.meets_ite {c : Prop} [Decidable c] {g : Goto} {done : List Role}
    (h : Accounted k done f) (hg : g ≠ .returnFail) :
    Meets (if c then .error (g, f) else .ok f) (Accounted k done) :=
  Meets.ite (Meets.leave h.toBalanced hg) h

/-- A call that is to open the socket for a role, whether it does or not. -/
theorem Accounted.opening {α : Type} {done : List Role} {f' : Frame w} {ret : α → SOCKET w}
    {op : Net w → Except ℤ (α × Net w)} (h : Accounted k done f) (r : Role) (hr : r ∉ done)
    (hop : Net.OpensOne ret (k.handle r) op)
    (hnet : f'.net = (f.net.call (k.fails r.opener) op).2)
    (hnone : (f.net.call (k.fails r.opener) op).1 = none → f'.var = f.var)
    (hsome : ∀ x, (f.net.call (k.fails r.opener) op).1 = some x →
      f'.var = Function.update f.var r (ret x)) : Accounted k (r :: done) f' := by
  cases hfails : k.fails r.opener with
  | true =>
    rw [hfails, Net.call_lacking] at hnet hnone
    refine (h.of_sameBooks (hnone rfl) ?_).mono (List.subset_cons_self _ _)
    rw [hnet]
    exact ⟨rfl, rfl⟩
  | false =>
    rcases hop' : op f.net with e | ⟨x, n'⟩
    · rw [hfails, Net.call_error hop'] at hnet hnone
      refine (h.of_sameBooks (hnone rfl) ?_).mono (List.subset_cons_self _ _)
      rw [hnet]
      exact ⟨rfl, rfl⟩
    · rw [hfails, Net.call_ok hop'] at hnet hsome
      obtain ⟨hret, hopened, hclosed⟩ := hop f.net x n' hop'
      refine h.open hr hfails (hret ▸ hsome x rfl) ?_ ?_
      · rw [hnet]
        exact hopened
      · rw [hnet]
        exact hclosed

theorem var_listener (f : Frame w) (s : SOCKET w) (n : Net w) :
    ({ f with listener := s, net := n } : Frame w).var = Function.update f.var .listener s := by
  funext r
  cases r <;> rfl

theorem var_connector (f : Frame w) (s : SOCKET w) (n : Net w) :
    ({ f with connector := s, net := n } : Frame w).var = Function.update f.var .connector s := by
  funext r
  cases r <;> rfl

theorem Accounted.update_invalid {done : List Role} (h : Accounted k done f) {r : Role}
    (hr : r ∉ done) : Function.update f.var r invalidSocket = f.var := by
  rw [← h.unset r hr, Function.update_eq_self]

theorem meets_openListener (h : Accounted k [] f) :
    Meets (openListener k.toAnswers type f) (Accounted k [.listener]) := by
  have hr : Role.listener ∉ ([] : List Role) := List.not_mem_nil
  dsimp only [openListener]
  rw [if_neg (not_lt_zero _)]
  refine h.opening .listener hr (Net.opensOne_socket type _) rfl ?_ ?_
  · intro hnone
    rw [var_listener]
    exact (congrArg _ (congrArg (Option.getD · _) hnone)).trans (h.update_invalid hr)
  · intro x hsome
    rw [var_listener]
    exact congrArg _ (congrArg (Option.getD · _) hsome)

theorem meets_bindListener {done : List Role} (h : Accounted k done f) :
    Meets (bindListener k.toAnswers f) (Accounted k done) :=
  (h.of_sameBooks (funext fun r => by cases r <;> rfl)
    ((Net.keepsBooks_bind _ _ _).call _ _)).meets_ite (by decide)

theorem meets_listenListener {done : List Role} (h : Accounted k done f) :
    Meets (listenListener k.toAnswers protocol f) (Accounted k done) := by
  rw [listenListener]
  split
  · exact (h.of_sameBooks (funext fun r => by cases r <;> rfl)
      ((Net.keepsBooks_listen _ _).call _ _)).meets_ite (by decide)
  · exact h

theorem meets_openConnector (h : Accounted k [.listener] f) :
    Meets (openConnector k.toAnswers type f) (Accounted k [.connector, .listener]) := by
  have hr : Role.connector ∉ [Role.listener] := by decide
  dsimp only [openConnector]
  refine Accounted.meets_ite ?_ (by decide)
  refine h.opening .connector hr (Net.opensOne_socket type _) rfl ?_ ?_
  · intro hnone
    rw [var_connector]
    exact (congrArg _ (congrArg (Option.getD · _) hnone)).trans (h.update_invalid hr)
  · intro x hsome
    rw [var_connector]
    exact congrArg _ (congrArg (Option.getD · _) hsome)

theorem meets_findPort {done : List Role} (h : Accounted k done f) :
    Meets (findPort k.toAnswers f) (Accounted k done) := by
  have hbooks := (Net.keepsBooks_getsockname f.listener).call f.net (k.fails .getsocknameListener)
  rw [findPort]
  dsimp only
  split
  · exact Meets.leave
      (h.of_sameBooks (funext fun r => by cases r <;> rfl) hbooks).toBalanced (by decide)
  · exact (h.of_sameBooks (funext fun r => by cases r <;> rfl) hbooks).meets_ite (by decide)

theorem meets_connectConnector {done : List Role} (h : Accounted k done f) :
    Meets (connectConnector k.toAnswers f) (Accounted k done) :=
  (h.of_sameBooks (funext fun r => by cases r <;> rfl)
    ((Net.keepsBooks_connect _ _ _).call _ _)).meets_ite (by decide)

theorem accounted_acceptConnector (h : Accounted k [.connector, .listener] f) :
    Accounted k [.acceptor, .connector, .listener] (acceptConnector k.toAnswers f) := by
  have hr : Role.acceptor ∉ [Role.connector, Role.listener] := by decide
  refine h.opening .acceptor hr (Net.opensOne_accept f.listener _) ?_ ?_ ?_
  · dsimp only [acceptConnector]
    split <;> rfl
  · intro hnone
    dsimp only [Role.opener] at hnone
    rw [acceptConnector]
    simp only [hnone]
    funext r
    cases r with
    | listener => rfl
    | connector => rfl
    | acceptor => exact (h.unset .acceptor hr).symm
  · intro x hsome
    dsimp only [Role.opener] at hsome
    rw [acceptConnector]
    simp only [hsome]
    funext r
    cases r <;> rfl

theorem accounted_moveListener (h : Accounted k [.connector, .listener] f) :
    Accounted k [.acceptor, .connector, .listener] (moveListener k.toAnswers f) := by
  have hbooks := (Net.keepsBooks_getsockname f.connector).call f.net (k.fails .getsocknameConnector)
  have hacceptor : f.acceptor = invalidSocket := h.unset .acceptor (by decide)
  have h' : Accounted k [.acceptor, .connector, .listener]
      { f with acceptor := f.listener, listener := invalidSocket } := by
    refine ⟨⟨?_, h.nodup, h.closed⟩, (h.mono (List.subset_cons_self _ _)).used, ?_⟩
    · refine h.ledger.trans ?_
      simp only [held, Frame.var, hacceptor, keep_invalid, List.append_nil, List.nil_append]
      exact List.perm_append_comm
    · intro r hr
      cases r <;> exact absurd (by decide) hr
  rw [moveListener]
  dsimp only
  split
  · exact h'.of_sameBooks (funext fun r => by cases r <;> rfl) hbooks
  · exact h'.of_sameBooks (funext fun r => by cases r <;> rfl) hbooks

theorem meets_takeAcceptor (h : Accounted k [.connector, .listener] f) :
    Meets (takeAcceptor k.toAnswers protocol f)
      (Accounted k [.acceptor, .connector, .listener]) := by
  have hsize : Accounted k [.connector, .listener] { f with size := sizeofSockAddrIn } :=
    h.of_sameBooks (funext fun r => by cases r <;> rfl) (Net.SameBooks.refl _)
  have h' : Accounted k [.acceptor, .connector, .listener]
      (if protocol = sockStream then
        acceptConnector k.toAnswers { f with size := sizeofSockAddrIn }
      else moveListener k.toAnswers { f with size := sizeofSockAddrIn }) := by
    split
    · exact accounted_acceptConnector hsize
    · exact accounted_moveListener hsize
  have htests : ∀ f' : Frame w, Accounted k [.acceptor, .connector, .listener] f' →
      Meets (if f'.acceptor < 0 then .error (.tidyUpAndFail, f')
        else if f'.size ≠ sizeofSockAddrIn then .error (.abortTidyUpAndFail, f')
        else .ok f') (Accounted k [.acceptor, .connector, .listener]) :=
    fun f' h => Meets.ite (Meets.leave h.toBalanced (by decide)) (h.meets_ite (by decide))
  exact htests _ h'

theorem meets_checkSelf {done : List Role} (h : Accounted k done f) :
    Meets (checkSelf k.toAnswers f) (Accounted k done) := by
  have hbooks := (Net.keepsBooks_getsockname f.connector).call f.net (k.fails .getsocknameCheck)
  rw [checkSelf]
  dsimp only
  split
  · exact Meets.leave
      (h.of_sameBooks (funext fun r => by cases r <;> rfl) hbooks).toBalanced (by decide)
  · exact (h.of_sameBooks (funext fun r => by cases r <;> rfl) hbooks).meets_ite (by decide)

/-- **Every way out of the handshake leaves the books in order**, whichever protocol selects the
branches. -/
theorem meets_handshake (h : Accounted k [] f) :
    Meets (handshake k.toAnswers type protocol f)
      (Accounted k [.acceptor, .connector, .listener]) :=
  (meets_openListener h).bind fun _ h =>
  (meets_bindListener h).bind fun _ h =>
  (meets_listenListener h).bind fun _ h =>
  (meets_openConnector h).bind fun _ h =>
  (meets_findPort h).bind fun _ h =>
  (meets_connectConnector h).bind fun _ h =>
  (meets_takeAcceptor h).bind fun _ h => meets_checkSelf h

/-! ## The clean-up -/

theorem closeUnlessInvalid_closed (x : SOCKET w) (n : Net w) :
    (closeUnlessInvalid x n).closed = n.closed ++ keep x := by
  by_cases hx : x = invalidSocket
  · rw [closeUnlessInvalid, neg_one_eq, if_neg (not_not_intro hx), hx, keep_invalid,
      List.append_nil]
  · rw [closeUnlessInvalid, neg_one_eq, if_pos hx, keep_valid hx]
    rfl

theorem closeUnlessInvalid_opened (x : SOCKET w) (n : Net w) :
    (closeUnlessInvalid x n).opened = n.opened := by
  rw [closeUnlessInvalid]
  split <;> rfl

theorem closeUnlessInvalid_lacked (x : SOCKET w) (n : Net w) :
    (closeUnlessInvalid x n).lacked = n.lacked := by
  rw [closeUnlessInvalid]
  split <;> rfl

theorem tidyUp_lacked (e : Goto × Frame w) : (tidyUp e).lacked = e.2.net.lacked := by
  obtain ⟨g, f⟩ := e
  cases g with
  | returnFail => rfl
  | tidyUpAndFail | abortTidyUpAndFail =>
    simp only [tidyUp, tidyUp.clean, closeUnlessInvalid_lacked]

/-- The clean-up opens nothing and closes what the variables hold. -/
theorem tidyUp_books {g : Goto} (hg : g ≠ .returnFail) (f : Frame w) :
    (tidyUp (g, f)).opened = f.net.opened ∧
      (tidyUp (g, f)).closed = f.net.closed ++ held f.var := by
  have hclean : ∀ e, (tidyUp.clean f e).opened = f.net.opened ∧
      (tidyUp.clean f e).closed = f.net.closed ++ held f.var := by
    intro e
    simp only [tidyUp.clean, closeUnlessInvalid_opened, closeUnlessInvalid_closed, held, Frame.var,
      List.append_assoc, and_self]
  cases g with
  | returnFail => exact absurd rfl hg
  | tidyUpAndFail => exact hclean _
  | abortTidyUpAndFail => exact hclean _

/-- **Whenever `socketpair` fails, whatever the protocol, every socket it opened is closed exactly
once.** -/
theorem closed_once_of_error {e : Goto × Frame w}
    (h : handshake k.toAnswers type protocol (Frame.init n.watch) = .error e) :
    ∀ s ∈ (tidyUp e).opened, (tidyUp e).closed.count s = 1 := by
  have hmeets : Meets (.error e) (Accounted k [.acceptor, .connector, .listener]) :=
    h ▸ meets_handshake Accounted.init
  obtain ⟨hg, hb⟩ := hmeets
  obtain ⟨hopened, hclosed⟩ := tidyUp_books hg e.2
  intro s hs
  rw [hopened] at hs
  rw [hclosed, hb.closed, List.nil_append, ← hb.ledger.count_eq]
  exact List.count_eq_one_of_mem hb.nodup hs

end SocketPair
end UtilWin
