import UtilWin.Automation.Dispop

/-!
# The last argument

What an extraction is to give is settled by the arguments: while all has gone well, the conversion of the
next slot, or `E_INVALIDARG` behind the last one; and once something has failed, the default (`Law`).

After an increment the index of the last argument is the number of the arguments, so `>=` takes the last
argument for the end.  That is the only way to break the law: it holds if and only if, whenever the
extractions get as far as the last argument, it is taken as a `BSTR`, or it cannot be converted anyway and
the error is the one of the end (`law_iff`).
-/

namespace UtilWin
namespace Automation

/-- The number of positional arguments. -/
def DispParams.positional (arg : DispParams) : ℕ := arg.cArgs - arg.cNamedArgs

/-- A positional argument. -/
def DispParams.slot (arg : DispParams) (i : ℕ) : Variant := arg.rgvarg (arg.cNamedArgs + i)

section

variable (changeType : ChangeType) (arg : DispParams) (ks : List Kind)

/-- The extraction `i` is to succeed: there is an argument, and it can be converted. -/
def Succeeds (i : ℕ) : Prop :=
  i < arg.positional ∧ ∃ k ret, ks[i]? = some k ∧ changeType (arg.slot i) k.vt = .ok ret

/-- The extractions from a new `CDISPOP`. -/
def extracted : List (Value × Hresult) × Cdispop := extractAll changeType ks (.new arg)

/-- What the extractions `ks` are to give. -/
structure Law : Prop where
  /-- While all goes well, an extraction gives its slot converted. -/
  yields : ∀ i k ret, ks[i]? = some k → (∀ i' < i, Succeeds changeType arg ks i') →
    i < arg.positional → changeType (arg.slot i) k.vt = .ok ret →
    (extracted changeType arg ks).1[i]? = some (k.val ret, sOk)
  /-- `res` is `S_OK` as long as all has gone well, and no longer. -/
  res : ∀ i value hr, (extracted changeType arg ks).1[i]? = some (value, hr) →
    (hr = sOk ↔ ∀ i' ≤ i, Succeeds changeType arg ks i')
  /-- The first extraction that fails leaves the error of the conversion. -/
  rejects : ∀ i k hr, ks[i]? = some k → (∀ i' < i, Succeeds changeType arg ks i') →
    i < arg.positional → changeType (arg.slot i) k.vt = .error hr →
    (extracted changeType arg ks).1[i]? = some (k.defret, hr.1)
  /-- Or, if there are no more arguments, `E_INVALIDARG`. -/
  exhausted : ∀ i k, ks[i]? = some k → (∀ i' < i, Succeeds changeType arg ks i') →
    arg.positional ≤ i → (extracted changeType arg ks).1[i]? = some (k.defret, eInvalidarg)
  /-- After that extractions give their defaults and leave `res` alone. -/
  sticks : ∀ i k value hr, ks[i + 1]? = some k →
    (extracted changeType arg ks).1[i]? = some (value, hr) →
    ¬ (∀ i' ≤ i, Succeeds changeType arg ks i') →
    (extracted changeType arg ks).1[i + 1]? = some (k.defret, hr)
  /-- Nothing but positional arguments is converted. -/
  slots : ∀ call ∈ (extracted changeType arg ks).2.calls, call.1 < arg.positional
  /-- The destructor clears each variant a conversion has made, once. -/
  cleared : (extracted changeType arg ks).2.destroy =
    (extracted changeType arg ks).2.calls.filterMap fun call =>
      (changeType (arg.slot call.1) call.2).toOption

/-- The condition: an extraction that gets as far as the last argument takes it as a `BSTR`, or the
conversion fails as the end of the arguments does. -/
def LastTaken : Prop :=
  ∀ i k, i + 1 = arg.positional → ks[i]? = some k → (∀ i' < i, Succeeds changeType arg ks i') →
    k = .bstr ∨ changeType (arg.slot i) k.vt = .error ⟨eInvalidarg, failed_eInvalidarg⟩

end

/-! ## One extraction -/

/-- The test for the end, once the index has been incremented. -/
def Kind.PastEnd (k : Kind) (idx argc : ℕ) : Prop :=
  match k with
  | .bstr => idx > argc
  | _ => idx ≥ argc

variable {changeType : ChangeType} {arg : DispParams} {ks : List Kind} {k : Kind} {s : Cdispop}
  {i : ℕ}

/-- After a failure. -/
theorem operator_of_failed (h : Failed s.m_hr) :
    k.operator changeType s = (k.defret, { s with m_idx := s.m_idx + 1 }) := by
  cases k <;> exact if_pos h

/-- At what the operator takes for the end. -/
theorem operator_of_pastEnd (h : ¬ Failed s.m_hr) (hend : k.PastEnd (s.m_idx + 1) s.m_argc) :
    k.operator changeType s =
      (k.defret, { s with m_idx := s.m_idx + 1, m_hr := eInvalidarg }) := by
  cases k <;> exact (if_neg h).trans (if_pos hend)

/-- In front of it. -/
theorem operator_of_not_pastEnd (h : ¬ Failed s.m_hr)
    (hend : ¬ k.PastEnd (s.m_idx + 1) s.m_argc) :
    k.operator changeType s = Cdispop.coerce changeType k.vt k.defret k.val s.m_idx
      { s with m_idx := s.m_idx + 1 } := by
  cases k <;> exact (if_neg h).trans (if_neg hend)

/-! ## All extractions -/

/-- The object after `i` extractions. -/
def after (changeType : ChangeType) (ks : List Kind) (s : Cdispop) (i : ℕ) : Cdispop :=
  (extractAll changeType (ks.take i) s).2

theorem after_cons (i : ℕ) :
    after changeType (k :: ks) s (i + 1) = after changeType ks (k.operator changeType s).2 i := rfl

/-- One extraction after the other. -/
theorem after_succ (hk : ks[i]? = some k) :
    after changeType ks s (i + 1) = (k.operator changeType (after changeType ks s i)).2 := by
  induction ks generalizing s i with
  | nil => cases hk
  | cons k' ks ih =>
    cases i with
    | zero =>
      obtain rfl : k' = k := Option.some.inj hk
      rfl
    | succ i =>
      rw [after_cons, after_cons]
      exact ih hk

/-- What is seen of each extraction. -/
theorem extractAll_getElem? (hk : ks[i]? = some k) :
    (extractAll changeType ks s).1[i]? =
      some ((k.operator changeType (after changeType ks s i)).1,
        (k.operator changeType (after changeType ks s i)).2.res) := by
  induction ks generalizing s i with
  | nil => cases hk
  | cons k' ks ih =>
    cases i with
    | zero =>
      obtain rfl : k' = k := Option.some.inj hk
      rfl
    | succ i => exact ih hk

theorem after_length : after changeType ks s ks.length = (extractAll changeType ks s).2 := by
  rw [after, List.take_length]

theorem length_extractAll : (extractAll changeType ks s).1.length = ks.length := by
  induction ks generalizing s with
  | nil => rfl
  | cons k ks ih => exact congrArg (· + 1) ih

/-- The object after `i` extractions that went by the law. -/
structure Upto (changeType : ChangeType) (arg : DispParams) (ks : List Kind) (i : ℕ)
    (s : Cdispop) : Prop where
  argc : s.m_argc = arg.positional
  argv : s.m_argv = arg.slot
  idx : s.m_idx = i
  ok : (∀ i' < i, Succeeds changeType arg ks i') → s.m_hr = sOk
  failed : ¬ (∀ i' < i, Succeeds changeType arg ks i') → Failed s.m_hr
  slots : ∀ call ∈ s.calls, call.1 < arg.positional
  vars : s.m_vars = s.calls.filterMap fun call =>
    (changeType (arg.slot call.1) call.2).toOption

theorem Upto.new (changeType : ChangeType) (arg : DispParams) (ks : List Kind) :
    Upto changeType arg ks 0 (.new arg) where
  argc := rfl
  argv := rfl
  idx := rfl
  ok _ := rfl
  failed h := absurd (fun i' hi' => absurd hi' (Nat.not_lt_zero i')) h
  slots _ h := absurd h List.not_mem_nil
  vars := rfl

theorem forall_succeeds_succ : (∀ i' < i + 1, Succeeds changeType arg ks i') ↔
    (∀ i' < i, Succeeds changeType arg ks i') ∧ Succeeds changeType arg ks i := by
  constructor
  · exact fun h => ⟨fun i' hi' => h i' (by omega), h i (by omega)⟩
  · rintro ⟨h, hi⟩ i' hi'
    rcases Nat.lt_or_eq_of_le (Nat.le_of_lt_succ hi') with hlt | rfl
    · exact h i' hlt
    · exact hi

/-- **After a failure**, whatever is asked for. -/
theorem Upto.step_failed (h : Upto changeType arg ks i s)
    (hfailed : ¬ ∀ i' < i, Succeeds changeType arg ks i') :
    Upto changeType arg ks (i + 1) (k.operator changeType s).2 ∧
      (k.operator changeType s).1 = k.defret ∧ (k.operator changeType s).2.res = s.res := by
  rw [operator_of_failed (h.failed hfailed)]
  refine ⟨⟨h.argc, h.argv, by rw [← h.idx], fun hall => ?_, fun _ => h.failed hfailed, h.slots,
    h.vars⟩, rfl, rfl⟩
  exact absurd (forall_succeeds_succ.mp hall).1 hfailed

/-- **At the end of the arguments.** -/
theorem Upto.step_end (h : Upto changeType arg ks i s)
    (hall : ∀ i' < i, Succeeds changeType arg ks i') (hend : k.PastEnd (i + 1) arg.positional)
    (hlast : ¬ Succeeds changeType arg ks i) :
    Upto changeType arg ks (i + 1) (k.operator changeType s).2 ∧
      (k.operator changeType s).1 = k.defret ∧ (k.operator changeType s).2.res = eInvalidarg := by
  have hok : ¬ Failed s.m_hr := by
    rw [h.ok hall]
    exact not_failed_sOk
  rw [operator_of_pastEnd hok (by rwa [h.idx, h.argc])]
  refine ⟨⟨h.argc, h.argv, by rw [← h.idx], fun hall' => ?_, fun _ => failed_eInvalidarg, h.slots,
    h.vars⟩, rfl, rfl⟩
  exact absurd (forall_succeeds_succ.mp hall').2 hlast

/-- **A conversion.** -/
theorem Upto.step_coerce (h : Upto changeType arg ks i s) (hk : ks[i]? = some k)
    (hall : ∀ i' < i, Succeeds changeType arg ks i') (hi : i < arg.positional)
    (hend : ¬ k.PastEnd (i + 1) arg.positional) :
    Upto changeType arg ks (i + 1) (k.operator changeType s).2 ∧
      ((∃ ret, changeType (arg.slot i) k.vt = .ok ret ∧
        (k.operator changeType s).1 = k.val ret ∧ (k.operator changeType s).2.res = sOk) ∨
      ∃ hr, changeType (arg.slot i) k.vt = .error hr ∧
        (k.operator changeType s).1 = k.defret ∧ (k.operator changeType s).2.res = hr) := by
  have hok : ¬ Failed s.m_hr := by
    rw [h.ok hall]
    exact not_failed_sOk
  have hslots : ∀ call ∈ s.calls ++ [(i, k.vt)], call.1 < arg.positional := by
    intro call hcall
    rcases List.mem_append.mp hcall with hcall | hcall
    · exact h.slots call hcall
    · rw [List.mem_singleton.mp hcall]
      exact hi
  rw [operator_of_not_pastEnd hok (by rwa [h.idx, h.argc]), Cdispop.coerce]
  dsimp only
  rw [h.argv, h.idx]
  cases hcall : changeType (arg.slot i) k.vt with
  | ok ret =>
    refine ⟨⟨h.argc, rfl, rfl, fun _ => rfl, fun hnot => ?_, hslots, ?_⟩,
      Or.inl ⟨ret, rfl, rfl, rfl⟩⟩
    · exact absurd (forall_succeeds_succ.mpr ⟨hall, hi, k, ret, hk, hcall⟩) hnot
    · dsimp only
      rw [List.filterMap_append, h.vars]
      simp [hcall, Except.toOption]
  | error hr =>
    refine ⟨⟨h.argc, rfl, rfl, fun hall' => ?_, fun _ => hr.2, hslots, ?_⟩,
      Or.inr ⟨hr, rfl, rfl, rfl⟩⟩
    · obtain ⟨-, k', ret, hk', hret⟩ := (forall_succeeds_succ.mp hall').2
      rw [hk] at hk'
      cases hk'
      rw [hcall] at hret
      cases hret
    · dsimp only
      rw [List.filterMap_append, h.vars]
      simp [hcall, Except.toOption]

/-- The condition on one extraction. -/
def TakesLast (changeType : ChangeType) (arg : DispParams) (ks : List Kind) (i : ℕ) (k : Kind) :
    Prop :=
  i + 1 = arg.positional → (∀ i' < i, Succeeds changeType arg ks i') →
    k = .bstr ∨ changeType (arg.slot i) k.vt = .error ⟨eInvalidarg, failed_eInvalidarg⟩

/-- What an extraction gives, by the law. -/
inductive Gives (changeType : ChangeType) (arg : DispParams) (ks : List Kind) (i : ℕ) (k : Kind)
    (before : Hresult) : Value → Hresult → Prop where
  | converted {ret : Variant} : (∀ i' < i, Succeeds changeType arg ks i') → i < arg.positional →
      changeType (arg.slot i) k.vt = .ok ret →
      Gives changeType arg ks i k before (k.val ret) sOk
  | rejected {hr : Failure} : (∀ i' < i, Succeeds changeType arg ks i') → i < arg.positional →
      changeType (arg.slot i) k.vt = .error hr →
      Gives changeType arg ks i k before k.defret hr
  | exhausted : (∀ i' < i, Succeeds changeType arg ks i') → arg.positional ≤ i →
      Gives changeType arg ks i k before k.defret eInvalidarg
  | stuck : ¬ (∀ i' < i, Succeeds changeType arg ks i') →
      Gives changeType arg ks i k before k.defret before

/-- **One extraction**, if it is not one that breaks the law. -/
theorem Upto.step (h : Upto changeType arg ks i s) (hk : ks[i]? = some k)
    (htakes : TakesLast changeType arg ks i k) :
    Upto changeType arg ks (i + 1) (k.operator changeType s).2 ∧
      Gives changeType arg ks i k s.res (k.operator changeType s).1
        (k.operator changeType s).2.res := by
  by_cases hall : ∀ i' < i, Succeeds changeType arg ks i'
  · by_cases hend : k.PastEnd (i + 1) arg.positional
    · rcases Nat.lt_or_ge i arg.positional with hi | hi
      · -- the last argument, taken for the end
        have hlast : i + 1 = arg.positional := by
          cases k <;> simp only [Kind.PastEnd] at hend <;> omega
        have hne : k ≠ .bstr := by
          rintro rfl
          simp only [Kind.PastEnd] at hend
          omega
        have herr := (htakes hlast hall).resolve_left hne
        have hfails : ¬ Succeeds changeType arg ks i := by
          rintro ⟨-, k', ret, hk', hret⟩
          rw [hk] at hk'
          cases hk'
          rw [herr] at hret
          cases hret
        obtain ⟨hupto, hvalue, hres⟩ := h.step_end hall hend hfails
        refine ⟨hupto, ?_⟩
        rw [hvalue, hres]
        exact .rejected hall hi herr
      · obtain ⟨hupto, hvalue, hres⟩ := h.step_end hall hend fun hs => Nat.not_lt.mpr hi hs.1
        refine ⟨hupto, ?_⟩
        rw [hvalue, hres]
        exact .exhausted hall hi
    · have hi : i < arg.positional := by
        cases k <;> simp only [Kind.PastEnd] at hend <;> omega
      obtain ⟨hupto, ⟨ret, hret, hvalue, hres⟩ | ⟨hr, herr, hvalue, hres⟩⟩ :=
        h.step_coerce hk hall hi hend
      · refine ⟨hupto, ?_⟩
        rw [hvalue, hres]
        exact .converted hall hi hret
      · refine ⟨hupto, ?_⟩
        rw [hvalue, hres]
        exact .rejected hall hi herr
  · obtain ⟨hupto, hvalue, hres⟩ := h.step_failed (k := k) hall
    refine ⟨hupto, ?_⟩
    rw [hvalue, hres]
    exact .stuck hall

/-- **All extractions in front of one that breaks the law.** -/
theorem upto_after (htakes : ∀ j < i, ∀ k, ks[j]? = some k → TakesLast changeType arg ks j k)
    (hi : i ≤ ks.length) :
    Upto changeType arg ks i (after changeType ks (.new arg) i) := by
  induction i with
  | zero => exact Upto.new changeType arg ks
  | succ i ih =>
    have hk : ks[i]? = some ks[i] := List.getElem?_eq_getElem hi
    have h := ih (fun j hj => htakes j (by omega)) (by omega)
    rw [after_succ hk]
    exact (h.step hk (htakes i (by omega) _ hk)).1

/-- By the law, `res` is `S_OK` as long as all goes well. -/
theorem Gives.res_iff {before hr : Hresult} {value : Value} (hk : ks[i]? = some k)
    (h : Gives changeType arg ks i k before value hr)
    (hbefore : ¬ (∀ i' < i, Succeeds changeType arg ks i') → Failed before) :
    hr = sOk ↔ ∀ i' ≤ i, Succeeds changeType arg ks i' := by
  have hle : (∀ i' ≤ i, Succeeds changeType arg ks i') ↔
      (∀ i' < i, Succeeds changeType arg ks i') ∧ Succeeds changeType arg ks i := by
    rw [← forall_succeeds_succ]
    exact forall_congr' fun i' => by rw [Nat.lt_succ_iff]
  have hne : ∀ {hr : Hresult}, Failed hr → hr ≠ sOk := by
    rintro hr hfailed rfl
    exact not_failed_sOk hfailed
  rw [hle]
  cases h with
  | converted hall hi hret => exact iff_of_true rfl ⟨hall, hi, k, _, hk, hret⟩
  | @rejected hr hall hi herr =>
    refine iff_of_false (hne hr.2) ?_
    rintro ⟨-, -, k', ret, hk', hret⟩
    rw [hk] at hk'
    cases hk'
    rw [herr] at hret
    cases hret
  | exhausted hall hi =>
    exact iff_of_false (hne failed_eInvalidarg) fun hs => Nat.not_lt.mpr hi hs.2.1
  | stuck hall => exact iff_of_false (hne (hbefore hall)) fun hs => hall hs.1

/-- The law leaves no choice. -/
theorem Gives.unique {before hr hr' : Hresult} {value value' : Value}
    (h : Gives changeType arg ks i k before value hr)
    (h' : Gives changeType arg ks i k before value' hr') : value = value' ∧ hr = hr' := by
  cases h with
  | converted hall hi hret =>
    cases h' with
    | converted _ _ hret' =>
      rw [hret] at hret'
      cases hret'
      exact ⟨rfl, rfl⟩
    | rejected _ _ herr =>
      rw [hret] at herr
      cases herr
    | exhausted _ hi' => exact absurd hi (Nat.not_lt.mpr hi')
    | stuck hnot => exact absurd hall hnot
  | rejected hall hi herr =>
    cases h' with
    | converted _ _ hret =>
      rw [herr] at hret
      cases hret
    | rejected _ _ herr' =>
      rw [herr] at herr'
      cases herr'
      exact ⟨rfl, rfl⟩
    | exhausted _ hi' => exact absurd hi (Nat.not_lt.mpr hi')
    | stuck hnot => exact absurd hall hnot
  | exhausted hall hi =>
    cases h' with
    | converted _ hi' _ => exact absurd hi' (Nat.not_lt.mpr hi)
    | rejected _ hi' _ => exact absurd hi' (Nat.not_lt.mpr hi)
    | exhausted _ _ => exact ⟨rfl, rfl⟩
    | stuck hnot => exact absurd hall hnot
  | stuck hnot =>
    cases h' with
    | converted hall _ _ => exact absurd hall hnot
    | rejected hall _ _ => exact absurd hall hnot
    | exhausted hall _ => exact absurd hall hnot
    | stuck _ => exact ⟨rfl, rfl⟩

/-! ## The law -/

theorem Law.of_lastTaken (h : LastTaken changeType arg ks) : Law changeType arg ks := by
  have htakes : ∀ j k, ks[j]? = some k → TakesLast changeType arg ks j k :=
    fun j k hk hj hall => h j k hj hk hall
  have hupto : ∀ i ≤ ks.length, Upto changeType arg ks i (after changeType ks (.new arg) i) :=
    fun i hi => upto_after (fun j _ k hk => htakes j k hk) hi
  have hlt : ∀ {i k}, ks[i]? = some k → i < ks.length :=
    fun hk => (List.getElem?_eq_some_iff.mp hk).1
  -- an extraction gives what it is to give, and nothing else
  have hgives : ∀ {i k}, ks[i]? = some k → ∀ {value hr},
      (extracted changeType arg ks).1[i]? = some (value, hr) ↔
        Gives changeType arg ks i k (after changeType ks (.new arg) i).res value hr := by
    intro i k hk value hr
    have hstep := ((hupto i (Nat.le_of_lt (hlt hk))).step hk (htakes i k hk)).2
    rw [extracted, extractAll_getElem? hk, Option.some.injEq, Prod.mk.injEq]
    constructor
    · rintro ⟨rfl, rfl⟩
      exact hstep
    · exact hstep.unique
  have hfailed : ∀ {i k}, ks[i]? = some k → ¬ (∀ i' < i, Succeeds changeType arg ks i') →
      Failed (after changeType ks (.new arg) i).res :=
    fun hk => (hupto _ (Nat.le_of_lt (hlt hk))).failed
  have hend := hupto ks.length (Nat.le_refl _)
  rw [after_length] at hend
  refine ⟨fun i k ret hk hall hi hret => ?_, fun i value hr hout => ?_,
    fun i k hr hk hall hi herr => ?_, fun i k hk hall hi => ?_,
    fun i k value hr hk hout hnot => ?_, hend.slots, hend.vars⟩
  · exact (hgives hk).mpr (.converted hall hi hret)
  · have hi : i < ks.length := by
      have := (List.getElem?_eq_some_iff.mp hout).1
      rwa [extracted, length_extractAll] at this
    have hk : ks[i]? = some ks[i] := List.getElem?_eq_getElem hi
    exact ((hgives hk).mp hout).res_iff hk (hfailed hk)
  · exact (hgives hk).mpr (.rejected hall hi herr)
  · exact (hgives hk).mpr (.exhausted hall hi)
  · have hi : i < ks.length := Nat.lt_of_succ_lt (hlt hk)
    have hk' : ks[i]? = some ks[i] := List.getElem?_eq_getElem hi
    rw [extracted, extractAll_getElem? hk'] at hout
    cases hout
    rw [hgives hk, ← after_succ hk']
    exact .stuck fun hall => hnot fun i' hi' => hall i' (Nat.lt_succ_of_le hi')

theorem Law.lastTaken (h : Law changeType arg ks) : LastTaken changeType arg ks := by
  intro i k hlast hk hall
  have hi : i < ks.length := (List.getElem?_eq_some_iff.mp hk).1
  by_cases hbstr : k = .bstr
  · exact Or.inl hbstr
  refine Or.inr ?_
  -- in front of this extraction nothing breaks the law
  have hupto : Upto changeType arg ks i (after changeType ks (.new arg) i) :=
    upto_after (fun j hj k' _ hj' => by omega) (Nat.le_of_lt hi)
  have hend : k.PastEnd (i + 1) arg.positional := by
    cases k <;> first | exact absurd rfl hbstr | exact Nat.le_of_eq hlast.symm
  have hok : ¬ Failed (after changeType ks (.new arg) i).m_hr := by
    rw [hupto.ok hall]
    exact not_failed_sOk
  have hout : (extracted changeType arg ks).1[i]? = some (k.defret, eInvalidarg) := by
    rw [extracted, extractAll_getElem? hk,
      operator_of_pastEnd hok (by rwa [hupto.idx, hupto.argc])]
    rfl
  cases hcall : changeType (arg.slot i) k.vt with
  | ok ret =>
    have hyields := h.yields i k ret hk hall (by omega) hcall
    rw [hout, Option.some.injEq, Prod.mk.injEq] at hyields
    exact absurd hyields.2 (by decide)
  | error hr =>
    have hrejects := h.rejects i k hr hk hall (by omega) hcall
    rw [hout, Option.some.injEq, Prod.mk.injEq] at hrejects
    exact congrArg _ (Subtype.ext hrejects.2.symm)

/-- **The extractions are what they are to be, if and only if one that gets as far as the last argument
takes it as a `BSTR`, or could not be converted and fails with `E_INVALIDARG` anyway.** -/
theorem law_iff (changeType : ChangeType) (arg : DispParams) (ks : List Kind) :
    Law changeType arg ks ↔ LastTaken changeType arg ks :=
  ⟨Law.lastTaken, Law.of_lastTaken⟩

/-- A `VariantChangeType` that keeps an `int` as it is, and does not convert anything else. -/
def keepInt : ChangeType := fun v vt =>
  if v.vt = 22 ∧ vt = 22 then .ok v else .error ⟨0x80020005, by decide⟩

/-- One argument: the `int` 7. -/
def oneInt : DispParams := ⟨fun _ => ⟨22, 0, 0, 7, 0, 0⟩, 1, 0, Nat.zero_le _⟩

/-- It cannot be had as an `int`. -/
theorem not_law_oneInt :
    ¬ ∀ (changeType : ChangeType) (arg : DispParams) (ks : List Kind), Law changeType arg ks := by
  intro hall
  have hyields := (hall keepInt oneInt [.int]).yields 0 .int ⟨22, 0, 0, 7, 0, 0⟩ rfl
    (fun i' hi' => absurd hi' (Nat.not_lt_zero i')) (by decide) rfl
  exact absurd hyields (by decide)

end Automation
end UtilWin
