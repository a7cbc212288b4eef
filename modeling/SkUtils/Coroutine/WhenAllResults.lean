import SkUtils.Coroutine.WhenAllResumption

/-!
What `when_all` returns. The countdown reaches zero only after every wrapper has
written its slot, or the exception, and `when_all` passes its awaiter only then.
-/

namespace SkUtils.Coroutine.WhenAllResults

open SkUtils.Library.Processes
open SkUtils.Library.TransitionSystem
open SkUtils.Coroutine.WhenAll
open SkUtils.Coroutine.WhenAllResumption

variable {n : Nat} {T E : Type*}

/-- The task of the wrapper has ended with a value or an exception. -/
def HasCompleted : WrapperPc → Prop
  | .created | .awaiting => False
  | _ => True

theorem hasCompleted_of_outstanding {pc : WrapperPc} (h : outstanding pc = 0) :
    HasCompleted pc := by
  cases pc <;> simp_all [outstanding, HasCompleted]

/-- The values of all tasks if none threw, otherwise an exception of one of them. -/
def Returns (outcomes : Fin n → Except E T) (result : Except E (Fin n → T)) : Prop :=
  (∃ values, (∀ i, outcomes i = .ok (values i)) ∧ result = .ok values) ∨
    ∃ i e, outcomes i = .error e ∧ result = .error e

section Slots

structure SlotsWritten (outcomes : Fin n → Except E T) (s : State n T E) : Prop where
  value : ∀ i v, outcomes i = .ok v → HasCompleted (s.wrappers i) → s.results i = v
  thrown : ∀ i e, outcomes i = .error e → HasCompleted (s.wrappers i) →
    s.exception ≠ none
  source : ∀ e, s.exception = some e → ∃ i, outcomes i = .error e

theorem SlotsWritten.move {outcomes : Fin n → Except E T} {s t : State n T E}
    (h : SlotsWritten outcomes s) (hresults : t.results = s.results)
    (hexception : t.exception = s.exception)
    (hcompleted : ∀ i, HasCompleted (t.wrappers i) → HasCompleted (s.wrappers i)) :
    SlotsWritten outcomes t where
  value := by
    intro i v hi hdone
    rw [hresults]
    exact h.value i v hi (hcompleted i hdone)
  thrown := by
    intro i e hi hdone
    rw [hexception]
    exact h.thrown i e hi (hcompleted i hdone)
  source := by
    rw [hexception]
    exact h.source

theorem completed_of_goto {s : State n T E} {i : Fin n} {pc : WrapperPc}
    (hpc : HasCompleted pc → HasCompleted (s.wrappers i)) :
    ∀ j, HasCompleted (Function.update s.wrappers i pc j) → HasCompleted (s.wrappers j) :=
  of_update hpc

theorem completed_of_store {s : State n T E} {i j : Fin n} (hji : j ≠ i)
    {outcome : Except E T}
    (h : HasCompleted (((s.store i outcome).goto i .fetchSub).wrappers j)) :
    HasCompleted (s.wrappers j) := by
  simpa [Function.update_of_ne hji] using h

theorem SlotsWritten.store {outcomes : Fin n → Except E T} {s : State n T E}
    (h : SlotsWritten outcomes s) (i : Fin n) :
    SlotsWritten outcomes ((s.store i (outcomes i)).goto i .fetchSub) := by
  cases hi : outcomes i with
  | ok v =>
      refine ⟨?_, ?_, h.source⟩
      · intro j w hj hdone
        by_cases hji : j = i
        · subst j
          obtain rfl : v = w := by simpa [hi] using hj
          simp [State.store, State.goto]
        · have hold := h.value j w hj (completed_of_store hji hdone)
          simpa [State.store, State.goto, Function.update_of_ne hji] using hold
      · intro j e hj hdone
        have hji : j ≠ i := by
          rintro rfl
          simp [hi] at hj
        exact h.thrown j e hj (completed_of_store hji hdone)
  | error e =>
      refine ⟨?_, ?_, ?_⟩
      · intro j w hj hdone
        have hji : j ≠ i := by
          rintro rfl
          simp [hi] at hj
        exact h.value j w hj (completed_of_store hji hdone)
      · intro j e' _ _
        simp [State.store, State.goto]
      · intro e' he'
        obtain rfl : e = e' := by simpa [State.store, State.goto] using he'
        exact ⟨i, hi⟩

theorem SlotsWritten.transition {outcomes : Fin n → Except E T} {s t : State n T E}
    {a : Action n} (h : SlotsWritten outcomes s) (htransition : Transition outcomes s a t) :
    SlotsWritten outcomes t := by
  cases htransition with
  | @store i _ => exact h.store i
  | fetchLast pc _ => exact h.move rfl rfl (completed_of_goto (by simp [pc, HasCompleted]))
  | fetchOther pc _ => exact h.move rfl rfl (completed_of_goto (by simp [pc, HasCompleted]))
  | load pc _ => exact h.move rfl rfl (completed_of_goto (by simp [pc, HasCompleted]))
  | loadNull pc _ => exact h.move rfl rfl (completed_of_goto (by simp [pc, HasCompleted]))
  | spawn pc => exact h.move rfl rfl (completed_of_goto (by simp [pc, HasCompleted]))
  | leave pc => exact h.move rfl rfl (completed_of_goto (by simp [pc, HasCompleted]))
  | resumeWrapper _ _ => exact h.move rfl rfl (completed_of_goto (by simp [HasCompleted]))
  | _ => exact h.move rfl rfl fun _ => id

theorem slotsWritten_of_run [Inhabited T] {outcomes : Fin n → Except E T}
    {P : State n T E → Action n → Prop} {as : List (Action n)} {s : State n T E}
    (run : Run (system outcomes) P as s) : SlotsWritten outcomes s := by
  refine run.invariant (fun _ => SlotsWritten outcomes) ⟨?_, ?_, ?_⟩
    fun _ _ _ _ _ _ hstep hs => hs.transition (step_cases hstep)
  · simp [system, HasCompleted]
  · simp [system, HasCompleted]
  · simp [system]

end Slots

section Passing

theorem leaveWrapper_eq_awaitResume {i : Fin n} {pc : CoroutinePc n T E}
    (h : pc.leaveWrapper i = .awaitResume) : pc = .awaitResume := by
  unfold CoroutinePc.leaveWrapper at h
  split at h
  · split at h <;> cases h
  · exact h

theorem leaveWrapper_eq_done {i : Fin n} {pc : CoroutinePc n T E}
    {result : Except E (Fin n → T)} (h : pc.leaveWrapper i = .done result) :
    pc = .done result := by
  unfold CoroutinePc.leaveWrapper at h
  split at h
  · split at h <;> cases h
  · exact h

def PassesLast (s : State n T E) : Prop :=
  s.coroutine = .awaitResume → s.remaining = 0

theorem PassesLast.transition {outcomes : Fin n → Except E T} {as : List (Action n)}
    {s t : State n T E} {a : Action n} (h : PassesLast s) (hsignal : SignalInvariant as s)
    (htransition : Transition outcomes s a t) : PassesLast t := by
  cases htransition with
  | store _ =>
      intro hpc
      simpa using h (by simpa using hpc)
  | fetchLast _ last => exact fun _ => by simp [last]
  | fetchOther _ _ => exact fun hpc => by simp [h hpc]
  | leave _ => exact fun hpc => h (leaveWrapper_eq_awaitResume hpc)
  | begin _ =>
      intro hpc
      by_cases hn : n = 0 <;> simp [hn] at hpc
  | ready _ finished => exact fun _ => finished
  | resume pending =>
      intro _
      by_contra hpending
      have hnone := hsignal.early hpending
      rw [signals] at hnone
      omega
  | load _ _ => exact h
  | loadNull _ _ => exact h
  | spawn _ => exact h
  | _ => exact fun hpc => by simp at hpc

theorem remaining_of_awaitResume [Inhabited T] {outcomes : Fin n → Except E T}
    {P : State n T E → Action n → Prop} {as : List (Action n)} {s : State n T E}
    (run : Run (system outcomes) P as s) (h : s.coroutine = .awaitResume) :
    s.remaining = 0 := by
  have hpasses : PassesLast s :=
    run.invariant (fun _ => PassesLast) (by simp [PassesLast, system])
      fun _ _ _ _ hrun _ hstep hs =>
        hs.transition (signalInvariant_of_run hrun) (step_cases hstep)
  exact hpasses h

theorem outstanding_of_awaitResume [Inhabited T] {outcomes : Fin n → Except E T}
    {P : State n T E → Action n → Prop} {as : List (Action n)} {s : State n T E}
    (run : Run (system outcomes) P as s) (h : s.coroutine = .awaitResume) (i : Fin n) :
    outstanding (s.wrappers i) = 0 := by
  have hle := weight_le_sum outstanding s.wrappers i
  rw [← (signalInvariant_of_run run).remaining_eq, remaining_of_awaitResume run h] at hle
  omega

theorem hasCompleted_of_awaitResume [Inhabited T] {outcomes : Fin n → Except E T}
    {P : State n T E → Action n → Prop} {as : List (Action n)} {s : State n T E}
    (run : Run (system outcomes) P as s) (h : s.coroutine = .awaitResume) (i : Fin n) :
    HasCompleted (s.wrappers i) :=
  hasCompleted_of_outstanding (outstanding_of_awaitResume run h i)

end Passing

section Result

theorem SlotsWritten.returns {outcomes : Fin n → Except E T} {s : State n T E}
    (h : SlotsWritten outcomes s) (completed : ∀ i, HasCompleted (s.wrappers i)) :
    Returns outcomes (match s.exception with
      | some e => .error e
      | none => .ok s.results) := by
  cases hexception : s.exception with
  | some e =>
      obtain ⟨i, hi⟩ := h.source e hexception
      exact .inr ⟨i, e, hi, rfl⟩
  | none =>
      refine .inl ⟨s.results, fun i => ?_, rfl⟩
      cases hi : outcomes i with
      | ok v => rw [h.value i v hi (completed i)]
      | error e => exact absurd hexception (h.thrown i e hi (completed i))

theorem returns_of_transition {outcomes : Fin n → Except E T} {s t : State n T E}
    {a : Action n} (h : ∀ r, s.coroutine = .done r → Returns outcomes r)
    (hresume : s.coroutine = .awaitResume → Returns outcomes (match s.exception with
      | some e => .error e
      | none => .ok s.results))
    (htransition : Transition outcomes s a t) :
    ∀ r, t.coroutine = .done r → Returns outcomes r := by
  intro r hr
  cases htransition with
  | store _ => exact h r (by simpa using hr)
  | leave _ => exact h r (leaveWrapper_eq_done hr)
  | begin _ =>
      by_cases hn : n = 0
      · subst n
        obtain rfl : .ok s.results = r := by simpa using hr
        exact .inl ⟨s.results, fun i => i.elim0, rfl⟩
      · simp [hn] at hr
  | awaitResume pc =>
      obtain rfl := CoroutinePc.done.inj hr
      exact hresume pc
  | fetchLast _ _ => exact h r hr
  | fetchOther _ _ => exact h r hr
  | load _ _ => exact h r hr
  | loadNull _ _ => exact h r hr
  | spawn _ => exact h r hr
  | _ => simp at hr

theorem returns_of_done [Inhabited T] {outcomes : Fin n → Except E T}
    {P : State n T E → Action n → Prop} {as : List (Action n)} {s : State n T E}
    (run : Run (system outcomes) P as s) {r : Except E (Fin n → T)}
    (h : s.coroutine = .done r) : Returns outcomes r := by
  refine run.invariant (fun _ s => ∀ r, s.coroutine = .done r → Returns outcomes r)
    (by simp [system]) (fun as s a t hrun _ hstep hs => ?_) r h
  exact returns_of_transition hs
    (fun hpc => (slotsWritten_of_run hrun).returns (hasCompleted_of_awaitResume hrun hpc))
    (step_cases hstep)

end Result

end SkUtils.Coroutine.WhenAllResults
