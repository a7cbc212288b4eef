import SkUtils.Concurrency.EventBus
import SkUtils.Concurrency.TaskQueueDelivery

/-!
`Stop` of `EventBus` and its timer thread. The timer thread tests `stop_` before it
locks `timerMutex_`, and `Stop` notifies `timerCv_` without the mutex, so the
notification may fall between that test and the untimed wait.
-/

namespace SkUtils.Concurrency.EventBusStop

open SkUtils.Library.PriorityQueues
open SkUtils.Library.TransitionSystem
open SkUtils.Concurrency.EventBus

variable {m : Nat} {τ : Type} {std : PriorityQueue (TimerTask τ) TimerTask.less}

/-- In the untimed wait, or on the way into it with `timerMutex_` held. -/
def IsUntimedWait (pc : TimerPc τ) : Prop :=
  pc = .wait ∨ pc = .blocked

def NoPublishPending (s : State m std) : Prop :=
  s.publishers = [] ∧ s.timerMutex ≠ some .publisher

def StuckStop (s : State m std) : Prop :=
  s.stopping = .joinTimer ∧ NoPublishPending s ∧ IsUntimedWait s.timer

/-- The notification of `Stop` does not find the timer thread between its empty test
and its wait, and the timer thread does not see its queue empty after it. -/
def StopHeard (s : State m std) : Action m τ → Prop
  | .stop => s.stopping = .notifyTimer → s.timer ≠ .wait
  | .timer =>
      s.timer = .testEmpty → s.stopping = .joinTimer → std.size s.timerQueue ≠ 0
  | _ => True

section Heard

def NotAsleep (s : State m std) : Prop :=
  s.stopping = .joinTimer → ¬ IsUntimedWait s.timer

theorem NotAsleep.timer {s t : State m std} (h : NotAsleep s)
    (hheard : StopHeard s .timer) (loop : TimerLoop s t) : NotAsleep t := by
  cases loop with
  | seeEmpty pc empty => exact fun joining => absurd empty (hheard pc joining)
  | block pc => exact fun joining => absurd (.inl pc) (h joining)
  | _ => exact fun _ => by simp [IsUntimedWait]

theorem NotAsleep.stop {s t : State m std} (hheard : StopHeard s .stop)
    (stopping : Stopping s t) : NotAsleep t := by
  cases stopping with
  | notifyTimer pc =>
      intro _
      rcases notifyTimer_timer s with hwoken | ⟨hnot, hsame⟩
      · simp [hwoken, IsUntimedWait]
      · simpa [hsame, IsUntimedWait] using ⟨hheard pc, hnot⟩
  | _ => exact fun joining => by simp at joining

theorem NotAsleep.transition {s t : State m std} {a : Action m τ} (h : NotAsleep s)
    (hheard : StopHeard s a) (htransition : Transition s a t) : NotAsleep t := by
  cases htransition with
  | tick => exact h
  | publish _ => exact h
  | publishLock _ _ => exact h
  | publishNotify _ =>
      intro joining
      rcases notifyTimer_timer s with hwoken | ⟨-, hsame⟩
      · simp [hwoken, IsUntimedWait]
      · simpa [hsame] using h joining
  | queue _ _ _ => exact h
  | timer loop => exact h.timer hheard loop
  | timeout _ _ => exact fun _ => by simp [IsUntimedWait]
  | spurious _ => exact fun _ => by simp [IsUntimedWait]
  | stop stopping => exact .stop hheard stopping

theorem not_stuckStop_of_stopHeard {s : State m std}
    (h : ReachableUnder (eventBus m std) StopHeard s) : ¬ StuckStop s := by
  have hawake : NotAsleep s :=
    h.invariant NotAsleep (by simp [NotAsleep, eventBus])
      fun _ _ _ hheard hstep hs => hs.transition hheard (step_cases hstep)
  rintro ⟨joining, -, hwait⟩
  exact hawake joining hwait

end Heard

section Joined

/-- How many workers `Stop` has joined. -/
def joinedWorkers (m : Nat) : StopPc → Nat
  | .join i => i
  | .notifyTimer | .joinTimer | .returned => m
  | _ => 0

def JoinedExited (s : State m std) : Prop :=
  ∀ w : Fin m, w.val < joinedWorkers m s.stopping → s.workerQueue.workers w = .exited

theorem exited_of_step {s t : State m std} {a : Action m τ} {w : Fin m}
    (h : s.workerQueue.workers w = .exited) (htransition : Transition s a t) :
    t.workerQueue.workers w = .exited := by
  obtain ⟨bs, hexec⟩ := workerQueue_transition htransition
  exact (exec_invariant (fun q : TaskQueue.State m τ => q.workers w = .exited)
    (fun _ => True) (fun _ => True)
    (fun _ _ _ _ hstep hq =>
      ⟨TaskQueue.exited_of_transition hq (TaskQueue.step_cases hstep), trivial⟩)
    hexec (by simp) h).1

theorem JoinedExited.transition {s t : State m std} {a : Action m τ} (h : JoinedExited s)
    (htransition : Transition s a t) : JoinedExited t := by
  have hsame : t.stopping = s.stopping → JoinedExited t := by
    intro hstopping w hw
    exact exited_of_step (h w (hstopping ▸ hw)) htransition
  cases htransition with
  | timer loop => exact hsame loop.stopping_eq
  | stop stopping =>
      cases stopping with
      | exchange _ => exact fun w hw => by simp [joinedWorkers] at hw
      | stopQueue _ _ => exact fun w hw => by simp [joinedWorkers] at hw
      | notifyWorkers _ _ => exact fun w hw => by simp [joinedWorkers] at hw
      | @join i pc hi exited =>
          intro w hw
          have hle : w.val < i + 1 := hw
          by_cases hwi : w.val = i
          · obtain rfl : w = ⟨i, hi⟩ := Fin.ext hwi
            exact exited
          · exact h w (by rw [pc, joinedWorkers]; omega)
      | @joined i pc hi =>
          intro w hw
          have hlt := w.isLt
          exact h w (by rw [pc, joinedWorkers]; omega)
      | notifyTimer pc => exact fun w _ => h w (by rw [pc]; exact w.isLt)
      | joinTimer pc _ => exact fun w _ => h w (by rw [pc]; exact w.isLt)
  | _ => exact hsame rfl

def flagsAt : StopPc → Bool × Nat
  | .notCalled | .stopQueue => (false, 0)
  | .notifyWorkers => (true, 1)
  | _ => (true, 0)

def WorkersTold (s : State m std) : Prop :=
  (s.workerQueue.stopped, s.workerQueue.stopping) = flagsAt s.stopping

theorem WorkersTold.of_queue {s t : State m std} {a : TaskQueue.Action m τ}
    (h : WorkersTold s) (own : a ≠ .stop ∧ a ≠ .notifyAll)
    (hstopping : t.stopping = s.stopping)
    (hqueue : TaskQueue.step s.workerQueue a = some t.workerQueue) : WorkersTold t := by
  obtain ⟨hstopped, hcount⟩ :=
    TaskQueue.flags_of_transition own (TaskQueue.step_cases hqueue)
  rw [WorkersTold, hstopped, hcount, hstopping]
  exact h

theorem WorkersTold.transition {s t : State m std} {a : Action m τ} (h : WorkersTold s)
    (htransition : Transition s a t) : WorkersTold t := by
  cases htransition with
  | queue own _ hqueue => exact h.of_queue own rfl hqueue
  | timer loop =>
      cases loop with
      | @run task _ => exact h.of_queue (a := .push task) ⟨by simp, by simp⟩ rfl rfl
      | _ => exact h
  | stop stopping =>
      rw [WorkersTold] at h
      cases stopping with
      | exchange pc =>
          rw [pc] at h
          exact h
      | stopQueue pc hqueue =>
          obtain rfl := Option.some.inj hqueue
          obtain ⟨-, hcount⟩ : s.workerQueue.stopped = false ∧ s.workerQueue.stopping = 0 := by
            simpa [pc, flagsAt] using h
          simp [WorkersTold, flagsAt, hcount]
      | notifyWorkers pc hqueue =>
          obtain ⟨hstopped, hcount⟩ :
              s.workerQueue.stopped = true ∧ s.workerQueue.stopping = 1 := by
            simpa [pc, flagsAt] using h
          obtain ⟨-, rfl⟩ := guarded_step hqueue
          simp [WorkersTold, flagsAt, TaskQueue.notifyAll, hstopped, hcount]
      | join pc _ _ =>
          rw [pc] at h
          exact h
      | joined pc _ =>
          rw [pc] at h
          exact h
      | notifyTimer pc =>
          rw [pc] at h
          exact h
      | joinTimer pc _ =>
          rw [pc] at h
          exact h
  | _ => exact h

theorem draining_of_join {s : State m std} (h : Reachable (eventBus m std) s) {i : Nat}
    (joining : s.stopping = .join i) : TaskQueueDelivery.Draining s.workerQueue := by
  have htold : WorkersTold s := by
    refine h.invariant WorkersTold ?_ fun _ _ _ hstep hs => hs.transition (step_cases hstep)
    exact rfl
  obtain ⟨hstopped, hcount⟩ : s.workerQueue.stopped = true ∧ s.workerQueue.stopping = 0 := by
    simpa [WorkersTold, joining, flagsAt] using htold
  obtain ⟨as, run⟩ := reachable_workerQueue h
  exact TaskQueueDelivery.draining_of_run run hstopped hcount

/-- One worker sleeps in its queue when the bus is stopped. -/
def joinSchedule : List (Action 1 Nat) :=
  [.queue (.pop (Fin.last 0)), .stop, .stop, .stop]

theorem exited_of_joinTimer {s : State m std} (h : Reachable (eventBus m std) s)
    (joining : s.stopping = .joinTimer) (w : Fin m) : s.workerQueue.workers w = .exited := by
  have hjoined : JoinedExited s :=
    h.invariant JoinedExited (by simp [JoinedExited, eventBus, joinedWorkers])
      fun _ _ _ hstep hs => hs.transition (step_cases hstep)
  exact hjoined w (by rw [joining]; exact w.isLt)

end Joined

section Stuck

/-- `Stop` waits for the timer thread, and nobody is left to wake that one. -/
structure Hung (s : State m std) : Prop where
  stuck : StuckStop s
  exited : ∀ w, s.workerQueue.workers w = .exited

theorem Hung.not_canPublish {s : State m std} (h : Hung s) : ¬ CanPublish s := by
  rintro (hcalled | ⟨w, hw⟩)
  · simp [h.stuck.1] at hcalled
  · simp [h.exited w, isRunning] at hw

theorem Hung.transition {s t : State m std} {a : Action m τ} (h : Hung s)
    (noSpurious : a ≠ .spurious) (htransition : Transition s a t) : Hung t := by
  have hexited : ∀ w, t.workerQueue.workers w = .exited :=
    fun w => exited_of_step (h.exited w) htransition
  obtain ⟨joining, ⟨hpublishers, hmutex⟩, hwait⟩ := h.stuck
  cases htransition with
  | tick => exact ⟨⟨joining, ⟨hpublishers, hmutex⟩, hwait⟩, hexited⟩
  | publish alive => exact absurd alive h.not_canPublish
  | publishLock pending _ => simp [hpublishers] at pending
  | publishNotify held => exact absurd held hmutex
  | queue _ _ _ => exact ⟨⟨joining, ⟨hpublishers, hmutex⟩, hwait⟩, hexited⟩
  | timer loop =>
      cases loop with
      | block _ => exact ⟨⟨joining, ⟨hpublishers, by simp⟩, .inr rfl⟩, hexited⟩
      | leave pc _ => simp [IsUntimedWait, pc] at hwait
      | enter pc _ => simp [IsUntimedWait, pc] at hwait
      | acquire pc _ => simp [IsUntimedWait, pc] at hwait
      | seeEmpty pc _ => simp [IsUntimedWait, pc] at hwait
      | seeTask pc _ => simp [IsUntimedWait, pc] at hwait
      | take pc _ _ => simp [IsUntimedWait, pc] at hwait
      | sleep pc _ _ => simp [IsUntimedWait, pc] at hwait
      | blockUntil pc => simp [IsUntimedWait, pc] at hwait
      | reacquire pc _ => simp [IsUntimedWait, pc] at hwait
      | run pc => simp [IsUntimedWait, pc] at hwait
  | timeout pc _ => simp [IsUntimedWait, pc] at hwait
  | spurious _ => exact absurd rfl noSpurious
  | stop stopping =>
      cases stopping with
      | joinTimer _ exited => simp [IsUntimedWait, exited] at hwait
      | exchange pc => simp [joining] at pc
      | stopQueue pc _ => simp [joining] at pc
      | notifyWorkers pc _ => simp [joining] at pc
      | join pc _ _ => simp [joining] at pc
      | joined pc _ => simp [joining] at pc
      | notifyTimer pc => simp [joining] at pc

/-- Only a spurious wakeup ends a `Stop` that is stuck. -/
theorem not_returned_of_stuckStop {s t : State m std} {as : List (Action m τ)}
    (hs : Reachable (eventBus m std) s) (h : StuckStop s)
    (hexec : exec (eventBus m std) s as = some t) (noSpurious : .spurious ∉ as) :
    t.stopping ≠ .returned := by
  have ht := (exec_invariant Hung (fun a => a ≠ .spurious) (fun _ => True)
    (fun _ _ _ ha hstep hs => ⟨hs.transition ha (step_cases hstep), trivial⟩) hexec
    (fun a ha heq => noSpurious (heq ▸ ha)) ⟨h, exited_of_joinTimer hs h.1⟩).1
  simp [ht.stuck.1]

theorem stuckStop_of_not_stopHeard {s t : State m std} {a : Action m τ}
    (hstop : ¬ StopHeard s a) (hstep : step s a = some t) (hquiet : NoPublishPending t) :
    StuckStop t := by
  cases a with
  | stop =>
      obtain ⟨pc, hwait⟩ : s.stopping = .notifyTimer ∧ s.timer = .wait := by
        simpa [StopHeard] using hstop
      obtain rfl : { notifyTimer s with stopping := .joinTimer } = t := by
        simpa [step, Stop, pc] using hstep
      exact ⟨rfl, hquiet, .inl (by simp [notifyTimer, hwait, TimerPc.isWaiting])⟩
  | timer =>
      obtain ⟨pc, joining, hempty⟩ :
          s.timer = .testEmpty ∧ s.stopping = .joinTimer ∧ std.size s.timerQueue = 0 := by
        simpa [StopHeard] using hstop
      obtain rfl : { s with timer := .wait } = t := by
        simpa [step, timerLoop, pc, hempty] using hstep
      exact ⟨joining, hquiet, .inl rfl⟩
  | tick elapsed => exact absurd trivial hstop
  | publish delayMs event => exact absurd trivial hstop
  | publishLock i => exact absurd trivial hstop
  | publishNotify => exact absurd trivial hstop
  | queue a => exact absurd trivial hstop
  | timeout => exact absurd trivial hstop
  | spurious => exact absurd trivial hstop

end Stuck

/-- The timer thread sees its queue empty, the workers are stopped and joined, `Stop`
notifies, and the timer thread enters its wait. -/
def stuckSchedule : List (Action 4 Nat) :=
  [.timer, .timer, .timer, .stop, .stop, .stop,
    .queue (.pop 0), .queue (.pop 1), .queue (.pop 2), .queue (.pop 3),
    .stop, .stop, .stop, .stop, .stop, .stop]

/-- No `Stop` is stuck in a run whose notification is heard. A timer thread that sees
its queue empty too late leaves `Stop` in its join for good. -/
theorem stuckStop_free_of_stopHeard (m : Nat)
    (std : PriorityQueue (TimerTask τ) TimerTask.less) :
    (∀ s : State m std, ReachableUnder (eventBus m std) StopHeard s → ¬ StuckStop s) ∧
    (∀ (s t : State m std) a, Reachable (eventBus m std) s → ¬ StopHeard s a →
      step s a = some t → NoPublishPending t →
        StuckStop t ∧ ∀ as u, exec (eventBus m std) t as = some u → .spurious ∉ as →
          u.stopping ≠ .returned) := by
  refine ⟨fun s => not_stuckStop_of_stopHeard, fun s t a hs hstop hstep hquiet => ?_⟩
  have hstuck := stuckStop_of_not_stopHeard hstop hstep hquiet
  exact ⟨hstuck, fun as u hexec hspurious =>
    not_returned_of_stuckStop (hs.step hstep) hstuck hexec hspurious⟩

theorem stuckStop_reachable :
    ∃ s, Reachable (eventBus 4 (sortedListQueue (TimerTask.less (τ := Nat)))) s ∧
      StuckStop s := by
  have hexec : exec (eventBus 4 (sortedListQueue TimerTask.less))
      (eventBus 4 (sortedListQueue TimerTask.less)).init stuckSchedule = some _ := rfl
  have hmutex : some TimerMutexHolder.timer ≠ some .publisher := by decide
  exact ⟨_, reachable_of_exec hexec, rfl, ⟨rfl, hmutex⟩, .inl rfl⟩

end SkUtils.Concurrency.EventBusStop
