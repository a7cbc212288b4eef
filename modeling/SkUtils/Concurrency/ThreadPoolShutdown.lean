import SkUtils.Concurrency.ThreadPool
import SkUtils.Library.Processes

/-!
The end of `ThreadPool`. Neither the store of `isRunning_` nor the `notify_all` of
`shutdown` is made under `mtx_`, so both may fall between the test of `isRunning_`
of a worker and its wait. That worker is then not notified any more.
-/

namespace SkUtils.Concurrency.ThreadPoolShutdown

open SkUtils.Library.Processes
open SkUtils.Library.TransitionSystem
open SkUtils.Concurrency.ThreadPool

variable {n : Nat} {τ : Type*}

def HasNotified (s : State n τ) : Prop :=
  ∃ i, s.shutdown = .join i

def IsWaiting (pc : WorkerPc τ) : Prop :=
  pc = .wait ∨ pc = .blocked

/-- No call of `submit` is under way and none will start. -/
def NoFurtherSubmit (s : State n τ) : Prop :=
  s.submitting = 0 ∧
    ∀ as t, exec (pool n τ) s as = some t → ∀ task, .push task ∉ as

def StuckShutdown (s : State n τ) : Prop :=
  HasNotified s ∧ NoFurtherSubmit s ∧ ∃ w, IsWaiting (s.workers w)

/-- The `notify_all` finds no worker between its empty test and its wait, and no
worker sees the queue empty after it. -/
def StopHeard (s : State n τ) : Action n τ → Prop
  | .shutdown => s.shutdown = .notifyAll → ∀ w, s.workers w ≠ .wait
  | .work w => s.workers w = .testEmpty → HasNotified s → s.workQueue ≠ []
  | _ => True

section Joined

def JoinedExited (s : State n τ) : Prop :=
  ∀ i, s.shutdown = .join i → ∀ w : Fin n, w.val < i → s.workers w = .exited

theorem JoinedExited.transition {s t : State n τ} {a : Action n τ} (h : JoinedExited s)
    (htransition : Transition s a t) : JoinedExited t := by
  have hsame : t.shutdown = s.shutdown → JoinedExited t := by
    intro hshutdown i hi w hw
    exact exited_of_transition (h i (hshutdown ▸ hi) w hw) htransition
  cases htransition with
  | work hwork => exact hsame hwork.shutdown_eq
  | stop _ =>
      intro i hi
      simp at hi
  | notifyAll _ =>
      intro i hi w hw
      obtain rfl : 0 = i := by simpa using hi
      omega
  | @join j pc hj exited =>
      intro i hi w hw
      obtain rfl : j + 1 = i := by simpa using hi
      by_cases hwj : w.val = j
      · obtain rfl : w = ⟨j, hj⟩ := Fin.ext hwj
        exact eq_exited_of_isExited exited
      · exact h j pc w (by omega)
  | _ => exact hsame rfl

theorem joinedExited_of_reachable {s : State n τ} (h : Reachable (pool n τ) s) :
    JoinedExited s := by
  refine h.invariant JoinedExited ?_ fun _ _ _ hstep hs => hs.transition (step_cases hstep)
  intro i hi
  simp [pool] at hi

theorem running_of_reachable {s : State n τ} (h : Reachable (pool n τ) s) :
    s.shutdown = .notCalled → s.isRunning = true := by
  refine h.invariant (fun s => s.shutdown = .notCalled → s.isRunning = true)
    (fun _ => rfl) fun s a t hstep hs => ?_
  cases step_cases hstep with
  | work hwork =>
      rw [hwork.shutdown_eq, hwork.isRunning_eq]
      exact hs
  | stop _ => simp
  | notifyAll _ => simp
  | join _ _ _ => simp
  | _ => exact hs

end Joined

section Heard

def NobodyWaits (s : State n τ) : Prop :=
  HasNotified s → ∀ w, ¬ IsWaiting (s.workers w)

theorem NobodyWaits.goto {s t : State n τ} (h : NobodyWaits s) {w : Fin n}
    {pc : WorkerPc τ} (hshutdown : t.shutdown = s.shutdown)
    (hworkers : t.workers = Function.update s.workers w pc) (hpc : ¬ IsWaiting pc) :
    NobodyWaits t := by
  intro hnotified
  rw [HasNotified, hshutdown] at hnotified
  rw [hworkers]
  exact forall_update (P := fun pc : WorkerPc τ => ¬ IsWaiting pc) (h hnotified) hpc

theorem NobodyWaits.work {s t : State n τ} {w : Fin n} (h : NobodyWaits s)
    (hheard : StopHeard s (.work w)) (hwork : Work s w t) : NobodyWaits t := by
  cases hwork with
  | seeEmpty pc empty =>
      intro hnotified
      exact absurd empty (hheard pc hnotified)
  | block pc =>
      intro hnotified
      exact absurd (.inl pc) (h hnotified w)
  | _ => exact h.goto rfl rfl (by simp [IsWaiting])

theorem NobodyWaits.transition {s t : State n τ} {a : Action n τ} (h : NobodyWaits s)
    (hheard : StopHeard s a) (htransition : Transition s a t) : NobodyWaits t := by
  cases htransition with
  | push _ => exact h
  | notifyOne _ _ => exact h.goto rfl rfl (by simp [IsWaiting])
  | notifyNobody _ _ => exact h
  | work hwork => exact h.work hheard hwork
  | spurious _ => exact h.goto rfl rfl (by simp [IsWaiting])
  | stop _ =>
      rintro ⟨i, hi⟩
      simp at hi
  | notifyAll pc =>
      intro _ w
      rcases notifyAll_workers s w with ⟨-, hwoken⟩ | ⟨hnot, hsame⟩
      · simp [hwoken, IsWaiting]
      · simpa [hsame, IsWaiting] using ⟨hheard pc w, hnot⟩
  | join pc _ _ => exact fun _ => h ⟨_, pc⟩

theorem not_stuckShutdown_of_stopHeard {s : State n τ}
    (h : ReachableUnder (pool n τ) StopHeard s) : ¬ StuckShutdown s := by
  have hnobody : NobodyWaits s := by
    refine h.invariant NobodyWaits ?_ fun _ _ _ hheard hstep hs =>
      hs.transition hheard (step_cases hstep)
    rintro ⟨i, hi⟩
    simp [pool] at hi
  rintro ⟨hnotified, -, w, hw⟩
  exact hnobody hnotified w hw

end Heard

section Stuck

/-- `shutdown` has not got past the worker `w`, which waits and is not going to be
notified. -/
structure Hung (w : Fin n) (s : State n τ) : Prop where
  waiting : IsWaiting (s.workers w)
  noNotify : s.submitting = 0
  joining : ∃ i, s.shutdown = .join i ∧ i ≤ w

theorem Hung.transition {s t : State n τ} {a : Action n τ} {w : Fin n} (h : Hung w s)
    (noPush : ∀ task, a ≠ .push task) (noSpurious : a ≠ .spurious w)
    (htransition : Transition s a t) : Hung w t := by
  obtain ⟨i, hi, hiw⟩ := h.joining
  cases htransition with
  | @push task _ => exact absurd rfl (noPush task)
  | notifyOne pending _ =>
      have hnone := h.noNotify
      omega
  | notifyNobody pending _ =>
      have hnone := h.noNotify
      omega
  | @work v _ hwork =>
      obtain ⟨⟨pc, hworkers⟩, hnotBlocked, -⟩ := hwork.moves
      refine ⟨?_, by rw [hwork.submitting_eq, h.noNotify],
        ⟨i, by rw [hwork.shutdown_eq, hi], hiw⟩⟩
      by_cases hwv : w = v
      · subst v
        have hwait := h.waiting.resolve_right hnotBlocked
        cases hwork <;> simp_all [IsWaiting]
      · rw [hworkers, Function.update_of_ne hwv]
        exact h.waiting
  | @spurious v _ =>
      have hwv : w ≠ v := by
        rintro rfl
        exact noSpurious rfl
      refine ⟨?_, h.noNotify, ⟨i, hi, hiw⟩⟩
      rw [State.goto_workers, Function.update_of_ne hwv]
      exact h.waiting
  | stop pc => simp [hi] at pc
  | notifyAll pc => simp [hi] at pc
  | @join j pc hj exited =>
      obtain rfl : i = j := by simpa [hi] using pc
      have hne : i ≠ w := by
        rintro rfl
        have hexited := eq_exited_of_isExited exited
        rcases h.waiting with hpc | hpc <;> simp [hpc] at hexited
      exact ⟨h.waiting, h.noNotify, ⟨i + 1, rfl, by omega⟩⟩

theorem hung_of_stuckShutdown {s : State n τ} (hs : Reachable (pool n τ) s)
    (h : StuckShutdown s) : ∃ w, Hung w s := by
  obtain ⟨⟨i, hi⟩, ⟨hsubmitting, -⟩, w, hw⟩ := h
  refine ⟨w, hw, hsubmitting, i, hi, ?_⟩
  by_contra hlt
  have hexited := joinedExited_of_reachable hs i hi w (by omega)
  rcases hw with hpc | hpc <;> simp [hpc] at hexited

/-- Only a spurious wakeup ends a shutdown that is stuck. -/
theorem not_joined_of_stuckShutdown {s t : State n τ} {as : List (Action n τ)}
    (hs : Reachable (pool n τ) s) (h : StuckShutdown s)
    (hexec : exec (pool n τ) s as = some t) (noSpurious : ∀ w, .spurious w ∉ as) :
    t.shutdown ≠ .join n := by
  obtain ⟨w, hw⟩ := hung_of_stuckShutdown hs h
  have hnoPush := h.2.1.2 as t hexec
  have ht := (exec_invariant (Hung w) (fun a => (∀ task, a ≠ .push task) ∧ a ≠ .spurious w)
    (fun _ => True) (fun s a t ha hstep hs => ⟨hs.transition ha.1 ha.2 (step_cases hstep), trivial⟩)
    hexec (fun a ha => ⟨fun task heq => hnoPush task (heq ▸ ha),
      fun heq => noSpurious w (heq ▸ ha)⟩) hw).1
  obtain ⟨i, hi, hiw⟩ := ht.joining
  rw [hi]
  have hlt := w.isLt
  simp only [ne_eq, ShutdownPc.join.injEq]
  omega

theorem stuckShutdown_of_not_stopHeard {s t : State n τ} {a : Action n τ}
    (hstop : ¬ StopHeard s a) (hstep : step s a = some t) (hquiet : NoFurtherSubmit t) :
    StuckShutdown t := by
  cases a with
  | shutdown =>
      obtain ⟨pc, w, hw⟩ : s.shutdown = .notifyAll ∧ ∃ w, s.workers w = .wait := by
        simpa [StopHeard] using hstop
      obtain rfl : { notifyAll s with shutdown := .join 0 } = t := by
        simpa [step, shutdown, pc] using hstep
      exact ⟨⟨0, rfl⟩, hquiet, w, .inl (by simp [notifyAll, hw, WorkerPc.isBlocked])⟩
  | work w =>
      obtain ⟨pc, hnotified, hempty⟩ :
          s.workers w = .testEmpty ∧ HasNotified s ∧ s.workQueue = [] := by
        simpa [StopHeard] using hstop
      obtain rfl : s.goto w .wait = t := by
        simpa [step, doWork, pc, hempty] using hstep
      exact ⟨hnotified, hquiet, w, .inl (by simp)⟩
  | push task => exact absurd trivial hstop
  | notifyOne woken => exact absurd trivial hstop
  | spurious w => exact absurd trivial hstop

end Stuck

section Schedule

/-- Nothing is queued, nobody holds a task, and the pool is being destroyed. -/
structure Drained (s : State n τ) : Prop where
  noQueue : s.workQueue = []
  noTask : ∀ w task, s.workers w ≠ .unlock (some task) ∧ s.workers w ≠ .invoke task
  stopped : s.shutdown ≠ .notCalled
  noNotify : s.submitting = 0

theorem Drained.goto {s t : State n τ} (h : Drained s) {w : Fin n} {pc : WorkerPc τ}
    (hworkers : t.workers = Function.update s.workers w pc)
    (hqueue : t.workQueue = s.workQueue) (hshutdown : t.shutdown = s.shutdown)
    (hsubmitting : t.submitting = s.submitting)
    (hpc : ∀ task, pc ≠ .unlock (some task) ∧ pc ≠ .invoke task) : Drained t where
  noQueue := hqueue.trans h.noQueue
  noTask := by
    rw [hworkers]
    exact forall_update
      (P := fun pc : WorkerPc τ => ∀ task, pc ≠ .unlock (some task) ∧ pc ≠ .invoke task)
      h.noTask hpc
  stopped := hshutdown ▸ h.stopped
  noNotify := hsubmitting.trans h.noNotify

theorem Drained.work {s t : State n τ} {w : Fin n} (h : Drained s) (hwork : Work s w t) :
    Drained t := by
  cases hwork with
  | pop pc =>
      refine h.goto rfl ?_ rfl rfl ?_
      · simp [h.noQueue]
      · simp [h.noQueue]
  | @start task pc => exact absurd pc (h.noTask w task).1
  | @finish task pc => exact absurd pc (h.noTask w task).2
  | _ => exact h.goto rfl rfl rfl rfl (by simp)

theorem Drained.transition {s t : State n τ} {a : Action n τ} (h : Drained s)
    (htransition : Transition s a t) : Drained t ∧ ∀ task, a ≠ .push task := by
  cases htransition with
  | push alive =>
      rcases alive with hcalled | ⟨w, hw⟩
      · exact absurd hcalled h.stopped
      · obtain ⟨task, hpc⟩ := eq_invoke_of_isInvoking hw
        exact absurd hpc (h.noTask w task).2
  | notifyOne pending _ =>
      have hnone := h.noNotify
      omega
  | notifyNobody pending _ =>
      have hnone := h.noNotify
      omega
  | work hwork => exact ⟨h.work hwork, by simp⟩
  | spurious _ => exact ⟨h.goto rfl rfl rfl rfl (by simp), by simp⟩
  | stop _ => exact ⟨⟨h.noQueue, h.noTask, by simp, h.noNotify⟩, by simp⟩
  | notifyAll _ =>
      refine ⟨⟨h.noQueue, fun w task => ?_, by simp, h.noNotify⟩, by simp⟩
      rcases notifyAll_workers s w with ⟨-, hwoken⟩ | ⟨-, hsame⟩
      · simp [hwoken]
      · simpa [hsame] using h.noTask w task
  | join _ _ _ => exact ⟨⟨h.noQueue, h.noTask, by simp, h.noNotify⟩, by simp⟩

theorem Drained.noFurtherSubmit {s : State n τ} (h : Drained s) : NoFurtherSubmit s := by
  refine ⟨h.noNotify, fun as t hexec task hmem => ?_⟩
  have hnever := (exec_invariant Drained (fun _ => True) (fun a => ∀ task, a ≠ .push task)
    (fun s a t _ hstep hs => hs.transition (step_cases hstep)) hexec (by simp) h).2
  exact hnever _ hmem task rfl

/-- The worker tests `isRunning_` and sees the queue empty, `shutdown` stores and
notifies, and the worker enters its wait. -/
def stuckSchedule : List (Action 1 τ) :=
  [.work (Fin.last 0), .work (Fin.last 0), .work (Fin.last 0), .shutdown, .shutdown]

end Schedule

/-- No shutdown is stuck in a run whose `notify_all` is heard. A worker that sees the
queue empty too late leaves `shutdown` in its join for good. -/
theorem stuckShutdown_free_of_stopHeard (n : Nat) (τ : Type*) :
    (∀ s : State n τ, ReachableUnder (pool n τ) StopHeard s → ¬ StuckShutdown s) ∧
    (∀ (s t : State n τ) a, Reachable (pool n τ) s → ¬ StopHeard s a →
      step s a = some t → NoFurtherSubmit t →
        StuckShutdown t ∧ ∀ as u, exec (pool n τ) t as = some u →
          (∀ w, .spurious w ∉ as) → u.shutdown ≠ .join n) := by
  refine ⟨fun s => not_stuckShutdown_of_stopHeard, fun s t a hs hstop hstep hquiet => ?_⟩
  have hstuck := stuckShutdown_of_not_stopHeard hstop hstep hquiet
  exact ⟨hstuck, fun as u hexec hspurious =>
    not_joined_of_stuckShutdown (hs.step hstep) hstuck hexec hspurious⟩

theorem stuckShutdown_reachable : ∃ s, Reachable (pool 1 Nat) s ∧ StuckShutdown s := by
  have hexec : exec (pool 1 Nat) (pool 1 Nat).init stuckSchedule = some _ := rfl
  refine ⟨_, reachable_of_exec hexec, ⟨0, rfl⟩, Drained.noFurtherSubmit ?_, 0, .inl rfl⟩
  refine ⟨rfl, fun w task => ?_, by simp, rfl⟩
  rw [Subsingleton.elim w 0]
  exact ⟨nofun, nofun⟩

end SkUtils.Concurrency.ThreadPoolShutdown
