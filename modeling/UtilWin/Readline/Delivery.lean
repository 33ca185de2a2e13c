import UtilWin.Library.Run
import UtilWin.Readline.ConsoleReader

/-!
# Console input is delivered

Bytes go from `m_buf` to `m_pub_buf` to the caller, and only at the ends that a queue has: the three
of them, in the order caller, `m_pub_buf`, `m_buf`, always make up what was appended.

The wait is safe because of where it stands.  The consumer gets there only through a `move_data` that
left `m_buf` empty, and what is appended after that is followed by a `SetEvent` that nobody but the
consumer takes back.  So in front of the wait there is nothing to be had, or the event is set, or the
reader is about to set it (`Ready`).
-/

namespace UtilWin
namespace Console

/-! ## What a trace says -/

/-- The bytes that `rl_getc` returned. -/
def returned (tr : List Label) : List UInt8 :=
  tr.filterMap fun
    | .getc c _ => some c
    | _ => none

/-- The bytes that were appended to `m_buf`. -/
def appended (tr : List Label) : List UInt8 :=
  tr.flatMap fun
    | .append localBuf => localBuf
    | _ => []

theorem returned_snoc (tr : List Label) (a : Label) :
    returned (tr ++ [a]) = returned tr ++ returned [a] := List.filterMap_append

theorem appended_snoc (tr : List Label) (a : Label) :
    appended (tr ++ [a]) = appended tr ++ appended [a] := List.flatMap_append

/-! ## The invariant -/

namespace State

variable (s : State)

/-- The consumer has seen `m_buf` empty and not looked again. -/
def Committed : Prop := s.consumerPc = .timing ∨ ∃ timeout, s.consumerPc = .waiting timeout

/-- There is nothing to be had, or the consumer will be told. -/
def Ready : Prop := s.mBuf = [] ∨ s.mEvent = true ∨ s.readerPc = .signalling

/-- The consumer is blocked in `WaitForSingleObject` with input in `m_buf`, and the reader is not
about to set the event. -/
def LeftWaiting : Prop :=
  (∃ timeout, s.consumerPc = .waiting timeout) ∧ s.mEvent = false ∧ s.mBuf ≠ [] ∧
    s.readerPc ≠ .signalling

end State

/-- What holds after the trace `tr`. -/
structure Inv (tr : List Label) (s : State) : Prop where
  /-- Nothing is lost, doubled or out of order. -/
  order : returned tr ++ s.mPubBuf ++ s.mBuf = appended tr
  /-- The consumer waits only when it will be told. -/
  ready : s.Committed → s.Ready
  /-- There is a byte where one is taken. -/
  taking : s.consumerPc = .taking → s.mPubBuf ≠ []
  /-- Nobody sets `broken_`. -/
  broken : s.broken_ = false

theorem Inv.init (mChtmp : UInt16) (nextStop : ℤ) : Inv [] (.init mChtmp nextStop) where
  order := rfl
  ready := by
    rintro (h | ⟨_, h⟩) <;> cases h
  taking := by
    intro h
    cases h
  broken := rfl

variable {tr : List Label} {s t : State} {a : Label}

/-- A step that hands nothing out and appends nothing keeps the order if it leaves the two queues as
one queue alone. -/
theorem Inv.order_of_eq (h : Inv tr s) (hret : returned [a] = []) (happ : appended [a] = [])
    (heq : t.mPubBuf ++ t.mBuf = s.mPubBuf ++ s.mBuf) :
    returned (tr ++ [a]) ++ t.mPubBuf ++ t.mBuf = appended (tr ++ [a]) := by
  rw [returned_snoc, appended_snoc, hret, happ, List.append_nil, List.append_nil, List.append_assoc,
    heq, ← List.append_assoc, h.order]

/-- Translating a record touches neither the queues nor the event. -/
theorem onRecord_frame (rest : List InputRecord) (localBuf : List UInt8) (r : InputRecord) :
    (s.onRecord rest localBuf r).mPubBuf = s.mPubBuf ∧
      (s.onRecord rest localBuf r).mBuf = s.mBuf ∧
      (s.onRecord rest localBuf r).mEvent = s.mEvent ∧
      (s.onRecord rest localBuf r).broken_ = s.broken_ ∧
      (s.onRecord rest localBuf r).consumerPc = s.consumerPc := by
  cases r <;> exact ⟨rfl, rfl, rfl, rfl, rfl⟩

/-- Where the reader is not about to set the event, being ready does not depend on where it is. -/
theorem Inv.ready_of_frame (h : Inv tr s) (hpc : s.readerPc ≠ .signalling)
    (hconsumer : t.consumerPc = s.consumerPc) (hbuf : t.mBuf = s.mBuf)
    (hevent : t.mEvent = s.mEvent) : t.Committed → t.Ready := by
  intro hc
  rw [State.Committed, hconsumer] at hc
  rcases h.ready hc with hr | hr | hr
  · exact Or.inl (hbuf.trans hr)
  · exact Or.inr (Or.inl (hevent.trans hr))
  · exact absurd hr hpc

/-- Elsewhere than in front of the wait nothing is asked. -/
theorem not_committed (htiming : s.consumerPc ≠ .timing)
    (hwaiting : ∀ timeout, s.consumerPc ≠ .waiting timeout) : ¬ s.Committed := by
  rintro (h | ⟨timeout, h⟩)
  · exact htiming h
  · exact hwaiting timeout h

/-- Where the consumer is neither in front of the wait nor about to take a byte, only the order is
asked. -/
theorem Inv.of_away (horder : returned (tr ++ [a]) ++ t.mPubBuf ++ t.mBuf = appended (tr ++ [a]))
    (hbroken : t.broken_ = false) (htiming : t.consumerPc ≠ .timing)
    (hwaiting : ∀ timeout, t.consumerPc ≠ .waiting timeout) (htaking : t.consumerPc ≠ .taking) :
    Inv (tr ++ [a]) t where
  order := horder
  ready hc := absurd hc (not_committed htiming hwaiting)
  taking h := absurd h htaking
  broken := hbroken

/-- **One step.** -/
theorem Inv.step (h : Inv tr s) (hstep : Step s a t) : Inv (tr ++ [a]) t := by
  cases hstep with
  | readConsoleInput hpc _ =>
    have hne : s.readerPc ≠ .signalling := by rw [hpc]; exact ReaderPc.noConfusion
    exact ⟨h.order_of_eq rfl rfl rfl, h.ready_of_frame hne rfl rfl rfl, h.taking, h.broken⟩
  | @onRecord r rest localBuf hpc =>
    have hne : s.readerPc ≠ .signalling := by rw [hpc]; exact ReaderPc.noConfusion
    obtain ⟨hpub, hbuf, hevent, hbroken, hconsumer⟩ := onRecord_frame rest localBuf r (s := s)
    refine ⟨h.order_of_eq rfl rfl (by rw [hpub, hbuf]), h.ready_of_frame hne hconsumer hbuf hevent,
      ?_, hbroken.trans h.broken⟩
    rw [hconsumer, hpub]
    exact h.taking
  | nothing hpc =>
    have hne : s.readerPc ≠ .signalling := by rw [hpc]; exact ReaderPc.noConfusion
    exact ⟨h.order_of_eq rfl rfl rfl, h.ready_of_frame hne rfl rfl rfl, h.taking, h.broken⟩
  | @append localBuf _ _ =>
    refine ⟨?_, fun _ => Or.inr (Or.inr rfl), h.taking, h.broken⟩
    have hret : returned [Label.append localBuf] = [] := rfl
    have happ : appended [Label.append localBuf] = localBuf := List.append_nil _
    rw [returned_snoc, appended_snoc, hret, happ, List.append_nil, ← h.order,
      List.append_assoc _ s.mBuf]
  | setEvent _ =>
    exact ⟨h.order_of_eq rfl rfl rfl, fun _ => Or.inr (Or.inl rfl), h.taking, h.broken⟩
  | call _ =>
    exact Inv.of_away (h.order_of_eq rfl rfl rfl) h.broken ConsumerPc.noConfusion
      (fun _ => ConsumerPc.noConfusion) ConsumerPc.noConfusion
  | isBroken _ hbroken =>
    rw [h.broken] at hbroken
    cases hbroken
  | nonempty _ _ hne =>
    refine ⟨h.order_of_eq rfl rfl rfl, fun hc => ?_, fun _ => hne, h.broken⟩
    exact absurd hc (not_committed ConsumerPc.noConfusion fun _ => ConsumerPc.noConfusion)
  | empty _ _ _ =>
    exact Inv.of_away (h.order_of_eq rfl rfl rfl) h.broken ConsumerPc.noConfusion
      (fun _ => ConsumerPc.noConfusion) ConsumerPc.noConfusion
  | moved _ hne =>
    refine ⟨h.order_of_eq rfl rfl (List.append_nil _), fun hc => ?_, fun _ hnil => hne ?_, h.broken⟩
    · exact absurd hc (not_committed ConsumerPc.noConfusion fun _ => ConsumerPc.noConfusion)
    · exact List.length_eq_zero_iff.mpr hnil
  | movedNothing _ _ =>
    refine ⟨h.order_of_eq rfl rfl (List.append_nil _), fun _ => Or.inl rfl, ?_, h.broken⟩
    exact ConsumerPc.noConfusion
  | @popFront c rest _ hpub =>
    refine Inv.of_away ?_ h.broken ConsumerPc.noConfusion (fun _ => ConsumerPc.noConfusion)
      ConsumerPc.noConfusion
    have hret : returned [Label.getc c (s.signals c)] = [c] := rfl
    have happ : appended [Label.getc c (s.signals c)] = [] := rfl
    rw [returned_snoc, appended_snoc, hret, happ, List.append_nil, ← h.order, hpub,
      List.append_assoc _ [c], List.singleton_append]
  | wait hpc =>
    refine ⟨h.order_of_eq rfl rfl rfl, fun _ => h.ready (Or.inl hpc), ?_, h.broken⟩
    exact ConsumerPc.noConfusion
  | signalled _ _ =>
    exact Inv.of_away (h.order_of_eq rfl rfl rfl) h.broken ConsumerPc.noConfusion
      (fun _ => ConsumerPc.noConfusion) ConsumerPc.noConfusion
  | timedOut _ =>
    exact Inv.of_away (h.order_of_eq rfl rfl rfl) h.broken ConsumerPc.noConfusion
      (fun _ => ConsumerPc.noConfusion) ConsumerPc.noConfusion
  | getStdinNb hpc =>
    refine ⟨h.order_of_eq rfl rfl (List.append_nil _), fun _ => Or.inl rfl, fun htaking => ?_,
      h.broken⟩
    rcases hpc with hpc | hpc <;> cases hpc.symm.trans htaking
  | alarm _ => exact ⟨h.order_of_eq rfl rfl rfl, h.ready, h.taking, h.broken⟩

/-- **Console input is delivered in order, once, and never left waiting.**  After any steps of the
two threads, what `rl_getc` has returned, then `m_pub_buf`, then `m_buf` are what was appended; and
the consumer is not blocked with the event unset while `m_buf` has something and the reader is not
about to set it. -/
theorem delivered_in_order {mChtmp : UInt16} {nextStop : ℤ} {tr : List Label} {s : State}
    (hrun : Run Step (.init mChtmp nextStop) tr s) :
    returned tr ++ s.mPubBuf ++ s.mBuf = appended tr ∧ ¬ s.LeftWaiting := by
  have hinv : Inv tr s := hrun.invariant (.init mChtmp nextStop) fun h hstep => h.step hstep
  refine ⟨hinv.order, ?_⟩
  rintro ⟨hwaiting, hevent, hbuf, hpc⟩
  rcases hinv.ready (Or.inr hwaiting) with hr | hr | hr
  · exact hbuf hr
  · rw [hevent] at hr
    cases hr
  · exact hpc hr

/-- The key `A` goes down while the consumer is on its way to the wait.  Its byte is appended when the
consumer has already looked, and the event that follows brings the consumer back to it. -/
theorem delivered_in_order_late_key : ∃ s,
    Run Step (.init 0 0) [.silent, .silent, .read [.keyEvent ⟨true, 0x41, 97⟩], .silent, .silent,
      .append [97], .silent, .silent, .silent, .silent, .getc 97 []] s ∧
    [97] ++ s.mPubBuf ++ s.mBuf = [97] ∧ ¬ s.LeftWaiting := by
  have hstart : Run Step (.init 0 0) [] (.init 0 0) := .nil
  have hlooked := (hstart.snoc (Step.empty rfl rfl rfl)).snoc (Step.movedNothing rfl rfl)
  have htyped := (hlooked.snoc
    (@Step.readConsoleInput _ [.keyEvent ⟨true, 0x41, 97⟩] rfl (by decide))).snoc (Step.onRecord rfl)
  have hwaits := htyped.snoc (@Step.wait _ 0 rfl)
  have happended := hwaits.snoc (Step.append rfl (List.cons_ne_nil 97 []))
  have hwoken := (happended.snoc (Step.setEvent rfl)).snoc (Step.signalled rfl rfl)
  have hmoved := (hwoken.snoc (Step.empty rfl rfl rfl)).snoc (Step.moved rfl (by decide))
  have hrun := hmoved.snoc (Step.popFront rfl rfl)
  exact ⟨_, hrun, delivered_in_order hrun⟩

end Console
end UtilWin
