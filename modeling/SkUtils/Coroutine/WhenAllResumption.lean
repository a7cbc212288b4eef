import Mathlib.Data.List.Count
import SkUtils.Coroutine.WhenAll
import SkUtils.Library.Processes

/-!
The resumption of `when_all`. The readiness test and the store of the
continuation are two steps, and so are the last `fetch_sub` and the load of the
continuation. The resumption is lost when the load falls between the first two.
-/

namespace SkUtils.Coroutine.WhenAllResumption

open SkUtils.Library.Processes
open SkUtils.Library.TransitionSystem
open SkUtils.Coroutine.WhenAll

variable {n : Nat} {T E : Type*}

def resumes (as : List (Action n)) : Nat :=
  as.count .resume

/-- Everything has finished and `when_all` is suspended for good. -/
def LostResumption (as : List (Action n)) (s : State n T E) : Prop :=
  s.remaining = 0 ∧ (∀ i, s.wrappers i = .finished) ∧ s.coroutine = .suspended ∧
    s.resumers = 0 ∧ resumes as = 0

/-- The last wrapper does not load the continuation while `when_all` is between
its readiness test and the store of the continuation. -/
def LoadsAfterStore (s : State n T E) : Action n → Prop
  | .wrapper i => s.wrappers i = .getContinuation → s.coroutine ≠ .awaitSuspend
  | _ => True

def outstanding : WrapperPc → Nat
  | .created | .awaiting | .fetchSub => 1
  | _ => 0

/-- Was the last to be counted off and has still to act on it. -/
def signalling : WrapperPc → Nat
  | .getContinuation | .spawn => 1
  | _ => 0

section OneSignal

/-- Resumptions of `when_all`, from the last `fetch_sub` to the call of
`cont.resume()`. -/
def signals (as : List (Action n)) (s : State n T E) : Nat :=
  ∑ i, signalling (s.wrappers i) + s.resumers + resumes as

structure SignalInvariant (as : List (Action n)) (s : State n T E) : Prop where
  remaining_eq : s.remaining = ∑ i, outstanding (s.wrappers i)
  signals_le : signals as s ≤ 1
  early : s.remaining ≠ 0 → signals as s = 0

theorem resumes_append_of_ne (as : List (Action n)) {a : Action n} (ha : a ≠ .resume) :
    resumes (as ++ [a]) = resumes as := by
  rw [resumes, resumes, List.count_append, List.count_singleton]
  simp [ha]

theorem resumes_append_resume (as : List (Action n)) :
    resumes (as ++ [.resume]) = resumes as + 1 := by
  rw [resumes, resumes, List.count_append, List.count_singleton]
  simp

theorem signalInvariant_init [Inhabited T] (outcomes : Fin n → Except E T) :
    SignalInvariant [] (system outcomes).init where
  remaining_eq := by simp [system, outstanding]
  signals_le := by simp [signals, system, signalling, resumes]
  early := by simp [signals, system, signalling, resumes]

theorem SignalInvariant.move {as : List (Action n)} {s t : State n T E} {a : Action n}
    (h : SignalInvariant as s) (i : Fin n) (pc : WrapperPc) (ha : a ≠ .resume)
    (hwrappers : t.wrappers = Function.update s.wrappers i pc)
    (hremaining : t.remaining + outstanding (s.wrappers i) = s.remaining + outstanding pc)
    (hcounted : outstanding pc ≤ outstanding (s.wrappers i))
    (hsignal : signalling pc + t.resumers ≤ signalling (s.wrappers i) + s.resumers) :
    SignalInvariant (as ++ [a]) t := by
  have hout := sum_update_weight outstanding s.wrappers i pc
  have hsig := sum_update_weight signalling s.wrappers i pc
  rw [← hwrappers] at hout hsig
  have hle := h.signals_le
  have hearly := h.early
  have heq := h.remaining_eq
  have hcount := resumes_append_of_ne as ha
  simp only [signals] at hle hearly
  refine ⟨by omega, ?_, ?_⟩
  · rw [signals]
    omega
  · rw [signals]
    omega

theorem SignalInvariant.control {as : List (Action n)} {s t : State n T E}
    {a : Action n} (h : SignalInvariant as s) (ha : a ≠ .resume)
    (hwrappers : t.wrappers = s.wrappers) (hremaining : t.remaining = s.remaining)
    (hresumers : t.resumers = s.resumers) : SignalInvariant (as ++ [a]) t := by
  have hsignals : signals (as ++ [a]) t = signals as s := by
    rw [signals, signals, hwrappers, hresumers, resumes_append_of_ne as ha]
  exact
    { remaining_eq := by rw [hremaining, hwrappers, h.remaining_eq]
      signals_le := by rw [hsignals]; exact h.signals_le
      early := by rw [hsignals, hremaining]; exact h.early }

theorem SignalInvariant.fetchLast {as : List (Action n)} {s : State n T E} {i : Fin n}
    (h : SignalInvariant as s) (pc : s.wrappers i = .fetchSub)
    (last : s.remaining = 1) :
    SignalInvariant (as ++ [.wrapper i])
      { s.goto i .getContinuation with remaining := s.remaining - 1 } := by
  have hout := sum_update_weight outstanding s.wrappers i .getContinuation
  have hsig := sum_update_weight signalling s.wrappers i .getContinuation
  have hnone := h.early (by omega)
  have heq := h.remaining_eq
  have hcount : resumes (as ++ [.wrapper i]) = resumes as :=
    resumes_append_of_ne as (by simp)
  rw [pc] at hout hsig
  change _ + 1 = _ + 0 at hout
  change _ + 0 = _ + 1 at hsig
  rw [signals] at hnone
  refine ⟨?_, ?_, ?_⟩
  · simp only [State.goto_wrappers]
    omega
  · simp only [signals, State.goto_wrappers, State.goto_resumers]
    omega
  · simp [last]

theorem SignalInvariant.resume {as : List (Action n)} {s : State n T E}
    (h : SignalInvariant as s) (pending : 0 < s.resumers) :
    SignalInvariant (as ++ [.resume])
      { s with resumers := s.resumers - 1, coroutine := .awaitResume } := by
  have hcount := resumes_append_resume as
  have hle := h.signals_le
  have hearly := h.early
  simp only [signals] at hle hearly
  refine ⟨h.remaining_eq, ?_, ?_⟩
  · simp only [signals]
    omega
  · simp only [signals]
    omega

theorem SignalInvariant.transition {outcomes : Fin n → Except E T}
    {as : List (Action n)} {s t : State n T E} {a : Action n} (h : SignalInvariant as s)
    (htransition : Transition outcomes s a t) : SignalInvariant (as ++ [a]) t := by
  cases htransition with
  | @store i pc =>
      refine h.move i .fetchSub (by simp) (by simp) ?_ ?_ ?_
      · simp [pc, outstanding]
      · simp [pc, outstanding]
      · simp [pc, signalling]
  | fetchLast pc last => exact h.fetchLast pc last
  | @fetchOther i pc other =>
      have hcounted := weight_le_sum outstanding s.wrappers i
      rw [pc, ← h.remaining_eq] at hcounted
      refine h.move i .leave (by simp) rfl ?_ ?_ ?_
      · simp only [pc, outstanding] at hcounted ⊢
        omega
      · simp [outstanding]
      · simp [pc, signalling]
  | @load i pc _ =>
      refine h.move i .spawn (by simp) rfl ?_ ?_ ?_ <;>
        simp [pc, outstanding, signalling]
  | @loadNull i pc _ =>
      refine h.move i .leave (by simp) rfl ?_ ?_ ?_ <;>
        simp [pc, outstanding, signalling]
  | @spawn i pc =>
      refine h.move i .leave (by simp) rfl ?_ ?_ ?_
      · simp [pc, outstanding]
      · simp [outstanding]
      · simp [pc, signalling, Nat.add_comm]
  | @leave i pc =>
      refine h.move i .finished (by simp) rfl ?_ ?_ ?_ <;>
        simp [pc, outstanding, signalling]
  | @resumeWrapper i _ created =>
      refine h.move i .awaiting (by simp) rfl ?_ ?_ ?_ <;>
        simp [created, outstanding, signalling]
  | resume pending => exact h.resume pending
  | _ => exact h.control (by simp) rfl rfl rfl

theorem signalInvariant_of_run [Inhabited T] {outcomes : Fin n → Except E T}
    {P : State n T E → Action n → Prop} {as : List (Action n)} {s : State n T E}
    (run : Run (system outcomes) P as s) : SignalInvariant as s :=
  run.invariant SignalInvariant (signalInvariant_init outcomes)
    fun _ _ _ _ _ _ hstep hs => hs.transition (step_cases hstep)

end OneSignal

section Published

/-- A resumption of `when_all` is still to come. -/
def Signalled (s : State n T E) : Prop :=
  0 < s.remaining ∨ (∃ i, signalling (s.wrappers i) = 1) ∨ 0 < s.resumers

structure Published (s : State n T E) : Prop where
  signalled : s.coroutine = .awaitSuspend ∨ s.coroutine = .suspended → Signalled s
  stored : s.coroutine = .suspended → s.continuation = true

theorem Signalled.move {s t : State n T E} (h : Signalled s) (i : Fin n) (pc : WrapperPc)
    (hwrappers : t.wrappers = Function.update s.wrappers i pc)
    (hremaining : 0 < s.remaining → 0 < t.remaining)
    (hresumers : s.resumers ≤ t.resumers) (hi : signalling (s.wrappers i) = 0) :
    Signalled t := by
  rcases h with hpending | ⟨j, hj⟩ | hresumer
  · exact .inl (hremaining hpending)
  · have hji : j ≠ i := by
      rintro rfl
      omega
    refine .inr (.inl ⟨j, ?_⟩)
    rw [hwrappers, Function.update_of_ne hji, hj]
  · exact .inr (.inr (by omega))

theorem leaveWrapper_eq_awaitSuspend {i : Fin n} {pc : CoroutinePc n T E}
    (h : pc.leaveWrapper i = .awaitSuspend) : pc = .awaitSuspend := by
  unfold CoroutinePc.leaveWrapper at h
  split at h
  · split at h <;> cases h
  · exact h

theorem leaveWrapper_eq_suspended {i : Fin n} {pc : CoroutinePc n T E}
    (h : pc.leaveWrapper i = .suspended) : pc = .suspended := by
  unfold CoroutinePc.leaveWrapper at h
  split at h
  · split at h <;> cases h
  · exact h

theorem published_of_running {s : State n T E} (h : s.coroutine ≠ .awaitSuspend)
    (h' : s.coroutine ≠ .suspended) : Published s where
  signalled := by
    rintro (hpc | hpc)
    · exact absurd hpc h
    · exact absurd hpc h'
  stored := fun hpc => absurd hpc h'

theorem Published.move {s t : State n T E} (h : Published s)
    (hawait : t.coroutine = .awaitSuspend → s.coroutine = .awaitSuspend)
    (hsuspended : t.coroutine = .suspended → s.coroutine = .suspended)
    (hstored : t.continuation = s.continuation) (hsignalled : Signalled s → Signalled t) :
    Published t where
  signalled := by
    rintro (hpc | hpc)
    · exact hsignalled (h.signalled (.inl (hawait hpc)))
    · exact hsignalled (h.signalled (.inr (hsuspended hpc)))
  stored := fun hpc => hstored ▸ h.stored (hsuspended hpc)

theorem Published.transition {outcomes : Fin n → Except E T} {s t : State n T E}
    {a : Action n} (h : Published s) (hload : LoadsAfterStore s a)
    (htransition : Transition outcomes s a t) : Published t := by
  cases htransition with
  | @store i pc =>
      refine h.move (by simp) (by simp) (by simp) fun hs => ?_
      exact hs.move i .fetchSub (by simp) (by simp) (by simp) (by simp [pc, signalling])
  | @fetchLast i pc last =>
      refine h.move id id rfl fun _ => ?_
      exact .inr (.inl ⟨i, by simp [signalling]⟩)
  | @fetchOther i pc other =>
      refine h.move id id rfl fun hs => ?_
      refine hs.move i .leave (by simp) (fun hpending => ?_) (by simp)
        (by simp [pc, signalling])
      simp only
      omega
  | @load i pc stored =>
      refine h.move id id rfl fun _ => ?_
      exact .inr (.inl ⟨i, by simp [signalling]⟩)
  | loadNull pc unset =>
      refine published_of_running (hload pc) fun hsuspended => ?_
      have hstored := h.stored hsuspended
      simp [unset] at hstored
  | spawn pc =>
      refine h.move id id rfl fun _ => ?_
      exact .inr (.inr (Nat.succ_pos _))
  | @leave i pc =>
      refine h.move leaveWrapper_eq_awaitSuspend leaveWrapper_eq_suspended rfl fun hs => ?_
      exact hs.move i .finished rfl id le_rfl (by simp [pc, signalling])
  | begin pc =>
      by_cases hn : n = 0
      · exact published_of_running (by simp [hn]) (by simp [hn])
      · exact published_of_running (by simp [hn]) (by simp [hn])
  | notReady pc pending =>
      exact
        { signalled := fun _ => .inl (Nat.pos_of_ne_zero pending)
          stored := by simp }
  | awaitSuspend pc =>
      exact
        { signalled := fun _ => h.signalled (.inl pc)
          stored := fun _ => rfl }
  | _ => exact published_of_running (by simp) (by simp)

theorem published_of_run [Inhabited T] {outcomes : Fin n → Except E T}
    {as : List (Action n)} {s : State n T E}
    (run : Run (system outcomes) LoadsAfterStore as s) : Published s :=
  run.invariant (fun _ => Published) (published_of_running (by simp [system]) (by simp [system]))
    fun _ _ _ _ _ hload hstep hs => hs.transition hload (step_cases hstep)

theorem Published.not_lostResumption {s : State n T E} (h : Published s)
    (as : List (Action n)) : ¬ LostResumption as s := by
  rintro ⟨hremaining, hfinished, hsuspended, hresumers, -⟩
  rcases h.signalled (.inr hsuspended) with hpending | ⟨i, hi⟩ | hresumer
  · omega
  · simp [hfinished i, signalling] at hi
  · omega

end Published

section Missed

/-- The only signal has been spent while `when_all` goes to sleep. -/
structure Missed (s : State n T E) : Prop where
  asleep : s.coroutine = .awaitSuspend ∨ s.coroutine = .suspended
  counted : s.remaining = 0
  silent : ∀ i, s.wrappers i = .leave ∨ s.wrappers i = .finished
  noResumer : s.resumers = 0

theorem silent_of_weights {pc : WrapperPc} (hout : outstanding pc = 0)
    (hsig : signalling pc = 0) : pc = .leave ∨ pc = .finished := by
  cases pc <;> simp_all [outstanding, signalling]

def CoroutinePc.IsPastSuspend : CoroutinePc n T E → Prop
  | .suspended | .awaitResume | .done _ => True
  | _ => False

theorem isPastSuspend_leaveWrapper {pc : CoroutinePc n T E}
    (h : CoroutinePc.IsPastSuspend pc) (i : Fin n) :
    CoroutinePc.IsPastSuspend (pc.leaveWrapper i) := by
  cases pc <;> simp_all [CoroutinePc.IsPastSuspend, CoroutinePc.leaveWrapper]

theorem continuation_transition {outcomes : Fin n → Except E T} {s t : State n T E}
    {a : Action n} (h : s.continuation = true → CoroutinePc.IsPastSuspend s.coroutine)
    (htransition : Transition outcomes s a t) :
    t.continuation = true → CoroutinePc.IsPastSuspend t.coroutine := by
  have hpast : ∀ {pc : CoroutinePc n T E}, s.coroutine = pc → ¬ CoroutinePc.IsPastSuspend pc →
      s.continuation = true → CoroutinePc.IsPastSuspend t.coroutine := by
    intro pc hpc hnot hstored
    exact absurd (hpc ▸ h hstored) hnot
  cases htransition with
  | store _ => simpa using h
  | leave _ => exact fun hstored => isPastSuspend_leaveWrapper (h hstored) _
  | begin pc => exact hpast pc not_false
  | resumeWrapper pc _ => exact hpast pc not_false
  | leaveLoop pc _ => exact hpast pc not_false
  | notReady pc _ => exact hpast pc not_false
  | suspendTask pc _ => exact hpast pc not_false
  | ready _ _ => exact fun _ => trivial
  | awaitSuspend _ => exact fun _ => trivial
  | awaitResume _ => exact fun _ => trivial
  | resume _ => exact fun _ => trivial
  | _ => exact h

theorem continuation_of_run [Inhabited T] {outcomes : Fin n → Except E T}
    {P : State n T E → Action n → Prop} {as : List (Action n)} {s : State n T E}
    (run : Run (system outcomes) P as s) (h : s.coroutine = .awaitSuspend) :
    s.continuation = false := by
  have hinv : s.continuation = true → CoroutinePc.IsPastSuspend s.coroutine :=
    run.invariant
      (fun _ s => s.continuation = true → CoroutinePc.IsPastSuspend s.coroutine)
      (by simp [system])
      fun _ _ _ _ _ _ hstep hs => continuation_transition hs (step_cases hstep)
  by_contra hstored
  have hpast := hinv (by simpa using hstored)
  simp [h, CoroutinePc.IsPastSuspend] at hpast

theorem Missed.transition {outcomes : Fin n → Except E T} {s t : State n T E}
    {a : Action n} (h : Missed s) (htransition : Transition outcomes s a t) :
    Missed t ∧ a ≠ .resume := by
  have hquiet : ∀ {i : Fin n} {pc : WrapperPc}, s.wrappers i = pc → pc ≠ .leave →
      pc ≠ .finished → False := by
    intro i pc hpc hleave hfinished
    rcases h.silent i with hi | hi
    · exact hleave (hpc.symm.trans hi)
    · exact hfinished (hpc.symm.trans hi)
  have hawake : ∀ {pc : CoroutinePc n T E}, s.coroutine = pc → pc ≠ .awaitSuspend →
      pc ≠ .suspended → False := by
    intro pc hpc hawait hsuspended
    rcases h.asleep with hs | hs
    · exact hawait (hpc.symm.trans hs)
    · exact hsuspended (hpc.symm.trans hs)
  cases htransition with
  | store pc => exact (hquiet pc (by simp) (by simp)).elim
  | fetchLast pc _ => exact (hquiet pc (by simp) (by simp)).elim
  | fetchOther pc _ => exact (hquiet pc (by simp) (by simp)).elim
  | load pc _ => exact (hquiet pc (by simp) (by simp)).elim
  | loadNull pc _ => exact (hquiet pc (by simp) (by simp)).elim
  | spawn pc => exact (hquiet pc (by simp) (by simp)).elim
  | leave pc =>
      refine ⟨⟨?_, h.counted, ?_, h.noResumer⟩, by simp⟩
      · rcases h.asleep with hs | hs <;> simp [hs, CoroutinePc.leaveWrapper]
      · exact forall_update (P := fun pc : WrapperPc => pc = .leave ∨ pc = .finished)
          h.silent (.inr rfl)
  | begin pc => exact (hawake pc (by simp) (by simp)).elim
  | resumeWrapper pc _ => exact (hawake pc (by simp) (by simp)).elim
  | leaveLoop pc _ => exact (hawake pc (by simp) (by simp)).elim
  | ready pc _ => exact (hawake pc (by simp) (by simp)).elim
  | notReady pc _ => exact (hawake pc (by simp) (by simp)).elim
  | awaitSuspend pc =>
      exact ⟨⟨.inr rfl, h.counted, h.silent, h.noResumer⟩, by simp⟩
  | awaitResume pc => exact (hawake pc (by simp) (by simp)).elim
  | suspendTask pc _ => exact (hawake pc (by simp) (by simp)).elim
  | resume pending =>
      have hnone := h.noResumer
      omega

theorem missed_of_early_load [Inhabited T] {outcomes : Fin n → Except E T}
    {as : List (Action n)} {s t : State n T E} {a : Action n}
    (run : Run (system outcomes) Unrestricted as s) (hload : ¬ LoadsAfterStore s a)
    (hstep : step outcomes s a = some t) : Missed t ∧ resumes (as ++ [a]) = 0 := by
  obtain ⟨i, rfl, hi, hawait⟩ :
      ∃ i, a = .wrapper i ∧ s.wrappers i = .getContinuation ∧
        s.coroutine = .awaitSuspend := by
    cases a with
    | wrapper i => exact ⟨i, rfl, by simpa [LoadsAfterStore] using hload⟩
    | _ => exact absurd trivial hload
  have hinv := signalInvariant_of_run run
  have hle := hinv.signals_le
  have hsum := weight_le_sum signalling s.wrappers i
  rw [signals] at hle
  rw [show signalling (s.wrappers i) = 1 by rw [hi]; rfl] at hsum
  have hremaining : s.remaining = 0 := by
    by_contra hpending
    have hnone := hinv.early hpending
    rw [signals] at hnone
    omega
  have hothers : ∀ j, j ≠ i → s.wrappers j = .leave ∨ s.wrappers j = .finished := by
    intro j hji
    have hout := weight_le_sum outstanding s.wrappers j
    have hsig := weight_add_weight_le_sum signalling s.wrappers hji
    rw [← hinv.remaining_eq, hremaining] at hout
    rw [show signalling (s.wrappers i) = 1 by rw [hi]; rfl] at hsig
    exact silent_of_weights (by omega) (by omega)
  have ht : t = s.goto i .leave := by
    have hnull := continuation_of_run run hawait
    simpa [step, launchWrapper, hi, hnull] using hstep.symm
  subst ht
  refine ⟨⟨.inl hawait, hremaining, fun j => ?_, by simp only [State.goto_resumers]; omega⟩, ?_⟩
  · by_cases hji : j = i
    · subst j
      simp
    · simpa [Function.update_of_ne hji] using hothers j hji
  · rw [resumes_append_of_ne as (by simp)]
    omega

/-- After an early load `when_all` is never resumed. -/
theorem Missed.stays [Inhabited T] {outcomes : Fin n → Except E T}
    {as bs : List (Action n)} {s t : State n T E} (h : Missed s) (has : resumes as = 0)
    (hexec : exec (system outcomes) s bs = some t) :
    Missed t ∧ resumes (as ++ bs) = 0 := by
  induction bs generalizing as s with
  | nil =>
      obtain rfl : s = t := by simpa [exec] using hexec
      simpa using ⟨h, has⟩
  | cons b bs ih =>
      obtain ⟨u, hstep, hrest⟩ := Option.bind_eq_some_iff.mp hexec
      obtain ⟨hu, hb⟩ := h.transition (step_cases hstep)
      have hcount : resumes (as ++ [b]) = 0 := (resumes_append_of_ne as hb).trans has
      simpa using ih hu hcount hrest

end Missed

/-- The task suspends, `when_all` sees that it is not ready, the wrapper finishes
and loads a null continuation, and only then the continuation is stored. -/
def lostSchedule : List (Action 1) :=
  [.coroutine, .coroutine, .suspendTask (Fin.last 0), .coroutine, .coroutine,
    .wrapper (Fin.last 0), .wrapper (Fin.last 0), .wrapper (Fin.last 0), .wrapper (Fin.last 0),
    .coroutine]

/-- The resumption is never lost in a run whose load follows the store, an early
load always loses it, and `when_all` is never resumed twice. -/
theorem resumption_of_loadsAfterStore [Inhabited T] (outcomes : Fin n → Except E T) :
    (∀ as s, Run (system outcomes) LoadsAfterStore as s → ¬ LostResumption as s) ∧
    (∀ as s a t bs u, Run (system outcomes) Unrestricted as s → ¬ LoadsAfterStore s a →
      step outcomes s a = some t → exec (system outcomes) t bs = some u →
        resumes (as ++ [a] ++ bs) = 0 ∧
        ((∀ i, u.wrappers i = .finished) → u.coroutine = .suspended →
          LostResumption (as ++ [a] ++ bs) u)) ∧
    (∀ as s, Run (system outcomes) Unrestricted as s → resumes as ≤ 1) := by
  refine ⟨fun as s run => (published_of_run run).not_lostResumption as, ?_, ?_⟩
  · intro as s a t bs u run hload hstep hexec
    obtain ⟨hmissed, hcount⟩ := missed_of_early_load run hload hstep
    obtain ⟨hu, hresumes⟩ := hmissed.stays hcount hexec
    exact ⟨hresumes, fun hfinished hsuspended =>
      ⟨hu.counted, hfinished, hsuspended, hu.noResumer, hresumes⟩⟩
  · intro as s run
    have hle := (signalInvariant_of_run run).signals_le
    rw [signals] at hle
    omega

theorem lostResumption_reachable :
    ∃ as s, Run (system (n := 1) (E := Empty) fun _ => .ok 5) Unrestricted as s ∧
      LostResumption as s := by
  have hexec : exec (system (n := 1) (E := Empty) fun _ => .ok 5)
      (system (n := 1) (E := Empty) fun _ => .ok 5).init lostSchedule = some _ := rfl
  refine ⟨_, _, run_of_exec hexec, rfl, ?_, rfl, rfl, rfl⟩
  intro i
  rw [Subsingleton.elim i 0]
  rfl

end SkUtils.Coroutine.WhenAllResumption
