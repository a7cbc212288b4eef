import SkUtils.Coroutine.WhenAllResults

/-!
The wrappers of `when_all` and the frame that owns them. The countdown tells
`when_all` that every task has completed, not that every wrapper is suspended: the
last ones have still to leave their bodies when it goes on and destroys them.
-/

namespace SkUtils.Coroutine.WhenAllLifetime

open SkUtils.Library.TransitionSystem
open SkUtils.Coroutine.WhenAll
open SkUtils.Coroutine.WhenAllResumption
open SkUtils.Coroutine.WhenAllResults

variable {n : Nat} {T E : Type*}

/-- `when_all` has left its body and destroyed its wrappers. -/
def HasDestroyed (s : State n T E) : Prop :=
  ∃ result, s.coroutine = .done result

def AllFinished (s : State n T E) : Prop :=
  ∀ i, s.wrappers i = .finished

/-- Between its `fetch_sub` and its final suspend point. -/
def IsLeaving (pc : WrapperPc) : Prop :=
  pc = .getContinuation ∨ pc = .spawn ∨ pc = .leave

/-- `when_all` goes on from its await only when no wrapper is leaving. -/
def ResumesAfterLeave (s : State n T E) : Action n → Prop
  | .coroutine => s.coroutine = .awaitResume → ∀ i, ¬ IsLeaving (s.wrappers i)
  | _ => True

theorem eq_finished_of_not_isLeaving {pc : WrapperPc} (hout : outstanding pc = 0)
    (h : ¬ IsLeaving pc) : pc = .finished := by
  cases pc <;> simp_all [outstanding, IsLeaving]

def DestroyedFinished (s : State n T E) : Prop :=
  HasDestroyed s → AllFinished s

theorem DestroyedFinished.wrapper {s t : State n T E} {i : Fin n} {pc : WrapperPc}
    (h : DestroyedFinished s) (hpc : s.wrappers i = pc) (hne : pc ≠ .finished)
    (hdestroyed : HasDestroyed t → HasDestroyed s) : DestroyedFinished t := by
  intro ht
  exact absurd (hpc.symm.trans (h (hdestroyed ht) i)) hne

theorem DestroyedFinished.transition {outcomes : Fin n → Except E T}
    {s t : State n T E} {a : Action n} (h : DestroyedFinished s)
    (hresumes : ResumesAfterLeave s a)
    (hcounted : s.coroutine = .awaitResume → ∀ i, outstanding (s.wrappers i) = 0)
    (htransition : Transition outcomes s a t) : DestroyedFinished t := by
  cases htransition with
  | store pc =>
      refine h.wrapper pc (by simp) ?_
      rintro ⟨r, hr⟩
      exact ⟨r, by simpa using hr⟩
  | fetchLast pc _ => exact h.wrapper pc (by simp) id
  | fetchOther pc _ => exact h.wrapper pc (by simp) id
  | load pc _ => exact h.wrapper pc (by simp) id
  | loadNull pc _ => exact h.wrapper pc (by simp) id
  | spawn pc => exact h.wrapper pc (by simp) id
  | leave pc =>
      refine h.wrapper pc (by simp) ?_
      rintro ⟨r, hr⟩
      exact ⟨r, leaveWrapper_eq_done hr⟩
  | begin _ =>
      rintro ⟨r, hr⟩ i
      by_cases hn : n = 0
      · subst n
        exact i.elim0
      · simp [hn] at hr
  | awaitResume pc =>
      intro _ i
      exact eq_finished_of_not_isLeaving (hcounted pc i) (hresumes pc i)
  | _ =>
      rintro ⟨r, hr⟩
      simp at hr

theorem allFinished_of_resumesAfterLeave [Inhabited T] {outcomes : Fin n → Except E T}
    {as : List (Action n)} {s : State n T E}
    (run : Run (system outcomes) ResumesAfterLeave as s) (h : HasDestroyed s) :
    AllFinished s := by
  refine run.invariant (fun _ => DestroyedFinished) ?_ (fun as s a t hrun hresumes hstep hs => ?_) h
  · rintro ⟨r, hr⟩
    simp [system] at hr
  · exact hs.transition hresumes (outstanding_of_awaitResume hrun) (step_cases hstep)

theorem destroyed_leaving {outcomes : Fin n → Except E T} {s t : State n T E} {a : Action n}
    (hresumes : ¬ ResumesAfterLeave s a) (hstep : step outcomes s a = some t) :
    HasDestroyed t ∧ ¬ AllFinished t := by
  cases a with
  | coroutine =>
      obtain ⟨pc, i, hi⟩ : s.coroutine = .awaitResume ∧ ∃ i, IsLeaving (s.wrappers i) := by
        simpa [ResumesAfterLeave] using hresumes
      have htransition : Transition outcomes s .coroutine t := whenAll_cases hstep
      cases htransition with
      | awaitResume _ =>
          refine ⟨⟨_, rfl⟩, fun hfinished => ?_⟩
          have hdone : s.wrappers i = .finished := hfinished i
          simp [IsLeaving, hdone] at hi
      | begin pc' => simp [pc] at pc'
      | resumeWrapper pc' _ => simp [pc] at pc'
      | leaveLoop pc' _ => simp [pc] at pc'
      | ready pc' _ => simp [pc] at pc'
      | notReady pc' _ => simp [pc] at pc'
      | awaitSuspend pc' => simp [pc] at pc'
  | wrapper i => exact absurd trivial hresumes
  | suspendTask i => exact absurd trivial hresumes
  | resume => exact absurd trivial hresumes

/-- The last wrapper has started the thread that resumes `when_all`, and this thread
is done with everything before the wrapper reaches its final suspend point. -/
def overtakenSchedule : List (Action 1) :=
  [.coroutine, .coroutine, .suspendTask (Fin.last 0), .coroutine, .coroutine, .coroutine,
    .wrapper (Fin.last 0), .wrapper (Fin.last 0), .wrapper (Fin.last 0), .wrapper (Fin.last 0),
    .resume, .coroutine]

/-- In a run that resumes `when_all` only when no wrapper is leaving, every destroyed
wrapper is suspended for good. Any other resumption can destroy one that is running: it does
so here, where the destruction follows `await_resume` at once. -/
theorem wrappers_finished_at_destruction [Inhabited T] (outcomes : Fin n → Except E T) :
    (∀ s, ReachableUnder (system outcomes) ResumesAfterLeave s → HasDestroyed s →
      AllFinished s) ∧
    (∀ s t a, Reachable (system outcomes) s → ¬ ResumesAfterLeave s a →
      step outcomes s a = some t → HasDestroyed t ∧ ¬ AllFinished t) := by
  refine ⟨?_, fun s t a _ hresumes hstep => destroyed_leaving hresumes hstep⟩
  rintro s ⟨as, run⟩ h
  exact allFinished_of_resumesAfterLeave run h

theorem runningWrapper_destroyed :
    ∃ s, Reachable (system (n := 1) (E := Empty) fun _ => .ok 5) s ∧ HasDestroyed s ∧
      ¬ AllFinished s := by
  have hexec : exec (system (n := 1) (E := Empty) fun _ => .ok 5)
      (system (n := 1) (E := Empty) fun _ => .ok 5).init overtakenSchedule = some _ := rfl
  refine ⟨_, reachable_of_exec hexec, ⟨_, rfl⟩, fun hfinished => ?_⟩
  have hleave : WrapperPc.leave = .finished := hfinished 0
  cases hleave

end SkUtils.Coroutine.WhenAllLifetime
