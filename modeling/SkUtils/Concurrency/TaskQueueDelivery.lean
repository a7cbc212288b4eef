import SkUtils.Concurrency.TaskQueue
import SkUtils.Library.Processes

/-!
What the workers of a `TaskQueue` are handed. `Pop` waits with a predicate and drains
the queue before it reports the stop, so every task pushed before `Stop` reaches
exactly one worker, in the order of the pushes.
-/

namespace SkUtils.Concurrency.TaskQueueDelivery

open SkUtils.Library.Processes
open SkUtils.Library.TransitionSystem
open SkUtils.Concurrency.TaskQueue

variable {m : Nat} {τ : Type*}

section Accounting

def isStop : Action m τ → Bool
  | .stop => true
  | _ => false

def pushedTask : Action m τ → List τ
  | .push task => [task]
  | _ => []

def pushedBeforeStop : List (Action m τ) → List τ
  | [] => []
  | a :: as => if isStop a then [] else pushedTask a ++ pushedBeforeStop as

/-- The task that a worker has been handed. -/
def handedTask : WorkerPc τ → List τ
  | .run task => [task]
  | _ => []

/-- The task that the `Pop` of this step has handed to its worker. -/
def returnedTask (s : State m τ) : Action m τ → List τ
  | .pop w => (step s (.pop w)).elim [] fun t => handedTask (t.workers w)
  | _ => []

def returned (as : List (Action m τ)) : List τ :=
  outputs (taskQueue m τ) returnedTask (taskQueue m τ).init as

theorem returnedTask_pop {s t : State m τ} {w : Fin m} (h : step s (.pop w) = some t) :
    returnedTask s (.pop w) = handedTask (t.workers w) := by
  rw [returnedTask, h]
  rfl

/-- A queue is first in, first out, and takes nothing in after its `Stop`. -/
theorem fifo_of_step {s t : State m τ} {a : Action m τ} (hstep : step s a = some t) :
    returnedTask s a ++ t.queue = s.queue ++ if s.stopped then [] else pushedTask a := by
  cases step_cases hstep with
  | push running => simp [returnedTask, running, pushedTask]
  | pushStopped stopped => simp [returnedTask, stopped]
  | wait _ empty _ =>
      rw [returnedTask_pop hstep]
      simp [handedTask, pushedTask, empty]
  | leave _ empty _ =>
      rw [returnedTask_pop hstep]
      simp [handedTask, pushedTask, empty]
  | take _ queued =>
      rw [returnedTask_pop hstep]
      simp [handedTask, pushedTask, queued]
  | notifyAll _ => simp [returnedTask, pushedTask, notifyAll]
  | _ => simp [returnedTask, pushedTask]

theorem pushedBeforeStop_extend (as : List (Action m τ)) (a : Action m τ) :
    pushedBeforeStop (as ++ [a]) =
      pushedBeforeStop as ++ if as.any isStop then [] else pushedTask a := by
  induction as with
  | nil =>
      cases a <;> simp [pushedBeforeStop, pushedTask, isStop]
  | cons b bs ih =>
      cases hb : isStop b with
      | true => simp [pushedBeforeStop, hb]
      | false => simp [pushedBeforeStop, hb, ih]

/-- The tasks pushed before `Stop` are the ones handed out so far and then the queue. -/
structure Accounted (as : List (Action m τ)) (s : State m τ) : Prop where
  fifo : returned as ++ s.queue = pushedBeforeStop as
  stopped_eq : s.stopped = as.any isStop
  left : ∀ w, s.workers w = .exited → s.stopped = true ∧ s.queue = []

theorem Accounted.fifo_extend {P : State m τ → Action m τ → Prop}
    {as : List (Action m τ)} {s t : State m τ} {a : Action m τ} (h : Accounted as s)
    (run : Run (taskQueue m τ) P as s) (hstep : step s a = some t) :
    returned (as ++ [a]) ++ t.queue = pushedBeforeStop (as ++ [a]) := by
  calc
    returned (as ++ [a]) ++ t.queue = returned as ++ (returnedTask s a ++ t.queue) := by
      rw [returned, run.outputs_extend, List.append_assoc, returned]
    _ = (returned as ++ s.queue) ++ if s.stopped then [] else pushedTask a := by
      rw [fifo_of_step hstep, List.append_assoc]
    _ = pushedBeforeStop (as ++ [a]) := by
      rw [h.fifo, h.stopped_eq, pushedBeforeStop_extend]

theorem exited_of_goto {s : State m τ} {w : Fin m} {pc : WorkerPc τ} (hpc : pc ≠ .exited)
    {v : Fin m} (hv : (s.goto w pc).workers v = .exited) : s.workers v = .exited :=
  of_update (P := fun pc : WorkerPc τ => pc = .exited) (fun h => absurd h hpc) v hv

theorem Accounted.transition {P : State m τ → Action m τ → Prop}
    {as : List (Action m τ)} {s t : State m τ} {a : Action m τ}
    (run : Run (taskQueue m τ) P as s) (h : Accounted as s)
    (hstep : step s a = some t) : Accounted (as ++ [a]) t := by
  have hstops : (as ++ [a]).any isStop = (s.stopped || isStop a) := by
    simp [h.stopped_eq]
  refine ⟨h.fifo_extend run hstep, ?_, ?_⟩
  · rw [hstops]
    cases step_cases hstep <;> simp [isStop, notifyAll]
  cases step_cases hstep with
  | push running =>
      intro w hw
      have hleft := (h.left w hw).1
      simp [running] at hleft
  | pushStopped _ => exact h.left
  | notifyNobody _ _ => exact h.left
  | leave _ empty stopped => exact fun w _ => ⟨stopped, empty⟩
  | take _ queued =>
      intro w hw
      have hempty := (h.left w (exited_of_goto (by simp) hw)).2
      simp [queued] at hempty
  | stop => exact fun w hw => ⟨rfl, (h.left w hw).2⟩
  | notifyAll _ =>
      refine fun w hw => h.left w ?_
      rcases notifyAll_workers s w with ⟨-, hwoken⟩ | ⟨-, hsame⟩
      · simp [hwoken] at hw
      · simpa [hsame] using hw
  | notifyOne _ _ => exact fun w hw => h.left w (exited_of_goto (by simp) hw)
  | wait _ _ _ => exact fun w hw => h.left w (exited_of_goto (by simp) hw)
  | run _ => exact fun w hw => h.left w (exited_of_goto (by simp) hw)
  | spurious _ => exact fun w hw => h.left w (exited_of_goto (by simp) hw)

theorem accounted_of_run {P : State m τ → Action m τ → Prop} {as : List (Action m τ)}
    {s : State m τ} (run : Run (taskQueue m τ) P as s) : Accounted as s :=
  run.invariant Accounted
    ⟨by simp [returned, outputs, taskQueue, pushedBeforeStop], rfl, by simp [taskQueue]⟩
    fun _ _ _ _ hrun _ hstep hs => hs.transition hrun hstep

theorem stop_mem_of_stopped {as : List (Action m τ)} {s : State m τ} (h : Accounted as s)
    (stopped : s.stopped = true) : .stop ∈ as := by
  rw [h.stopped_eq] at stopped
  obtain ⟨a, ha, hstop⟩ := List.any_eq_true.mp stopped
  cases a with
  | stop => exact ha
  | _ => simp [isStop] at hstop

end Accounting

section Progress

/-- Neither asleep in `cv.wait` nor gone. -/
def IsActive (pc : WorkerPc τ) : Prop :=
  pc ≠ .waiting ∧ pc ≠ .exited

structure Notified (s : State m τ) : Prop where
  awake : s.queue ≠ [] → 0 < s.notifying ∨ (∃ w, IsActive (s.workers w)) ∨ m = 0
  told : s.stopped = true → s.stopping = 0 → ∀ w, s.workers w ≠ .waiting

theorem isActive_of_goto {s t : State m τ} {w : Fin m} {pc : WorkerPc τ}
    (ht : t.workers = Function.update s.workers w pc) (hpc : IsActive pc) :
    ∃ v, IsActive (t.workers v) :=
  ⟨w, by simpa [ht] using hpc⟩

theorem notWaiting_of_goto {s : State m τ} (h : ∀ w, s.workers w ≠ .waiting) {w : Fin m}
    {pc : WorkerPc τ} (hpc : pc ≠ .waiting) : ∀ v, (s.goto w pc).workers v ≠ .waiting :=
  forall_update (P := fun pc : WorkerPc τ => pc ≠ .waiting) h hpc

theorem Notified.transition {s t : State m τ} {a : Action m τ} (h : Notified s)
    (left : ∀ w, s.workers w = .exited → s.stopped = true ∧ s.queue = [])
    (htransition : Transition s a t) : Notified t := by
  cases htransition with
  | push running => exact ⟨fun _ => .inl (Nat.succ_pos _), h.told⟩
  | pushStopped _ => exact h
  | notifyOne _ _ =>
      refine ⟨fun _ => .inr (.inl (isActive_of_goto rfl (by simp [IsActive]))), ?_⟩
      exact fun stopped told => notWaiting_of_goto (h.told stopped told) (by simp)
  | notifyNobody _ nobody =>
      refine ⟨fun hqueue => ?_, h.told⟩
      cases m with
      | zero => exact .inr (.inr rfl)
      | succ m =>
          refine .inr (.inl ⟨0, fun hpc => ?_, fun hpc => hqueue (left 0 hpc).2⟩)
          have hnot := nobody 0
          simp [show s.workers 0 = .waiting from hpc, WorkerPc.isWaiting] at hnot
  | wait _ empty running =>
      exact ⟨fun hqueue => absurd empty hqueue, fun stopped => by simp [running] at stopped⟩
  | leave _ empty _ =>
      refine ⟨fun hqueue => absurd empty hqueue, ?_⟩
      exact fun stopped told => notWaiting_of_goto (h.told stopped told) (by simp)
  | take _ _ =>
      refine ⟨fun _ => .inr (.inl (isActive_of_goto rfl (by simp [IsActive]))), ?_⟩
      exact fun stopped told => notWaiting_of_goto (h.told stopped told) (by simp)
  | run _ =>
      refine ⟨fun _ => .inr (.inl (isActive_of_goto rfl (by simp [IsActive]))), ?_⟩
      exact fun stopped told => notWaiting_of_goto (h.told stopped told) (by simp)
  | spurious _ =>
      refine ⟨fun _ => .inr (.inl (isActive_of_goto rfl (by simp [IsActive]))), ?_⟩
      exact fun stopped told => notWaiting_of_goto (h.told stopped told) (by simp)
  | stop => exact ⟨h.awake, fun _ told => by simp at told⟩
  | notifyAll _ =>
      refine ⟨fun hqueue => ?_, fun _ _ w => ?_⟩
      · rcases h.awake hqueue with hpending | ⟨w, hw⟩ | hnone
        · exact .inl hpending
        · rcases notifyAll_workers s w with ⟨hpc, -⟩ | ⟨-, hsame⟩
          · exact absurd hpc hw.1
          · exact .inr (.inl ⟨w, by simpa [hsame] using hw⟩)
        · exact .inr (.inr hnone)
      · rcases notifyAll_workers s w with ⟨-, hwoken⟩ | ⟨hnot, hsame⟩
        · simp [hwoken]
        · simpa [hsame] using hnot

theorem notified_of_run {P : State m τ → Action m τ → Prop} {as : List (Action m τ)}
    {s : State m τ} (run : Run (taskQueue m τ) P as s) : Notified s :=
  run.invariant (fun _ => Notified) ⟨by simp [taskQueue], by simp [taskQueue]⟩
    fun _ _ _ _ hrun _ hstep hs =>
      hs.transition (accounted_of_run hrun).left (step_cases hstep)

/-- Steps that a worker can still take before it leaves. -/
def stepsLeft : WorkerPc τ → Nat
  | .pop | .woken => 1
  | .run _ => 2
  | .waiting | .exited => 0

def workLeft (s : State m τ) : Nat :=
  2 * s.queue.length + ∑ w, stepsLeft (s.workers w)

theorem workLeft_lt_of_goto {s t : State m τ} {w : Fin m} {pc : WorkerPc τ}
    (ht : t.workers = Function.update s.workers w pc)
    (hlt : 2 * t.queue.length + stepsLeft pc <
      2 * s.queue.length + stepsLeft (s.workers w)) : workLeft t < workLeft s := by
  have hsum := sum_update_weight stepsLeft s.workers w pc
  rw [← ht] at hsum
  rw [workLeft, workLeft]
  omega

theorem stepsLeft_of_inPop {pc : WorkerPc τ} (h : pc.inPop = true) : stepsLeft pc = 1 := by
  cases pc with
  | pop => rfl
  | woken => rfl
  | _ => simp [WorkerPc.inPop] at h

/-- After `Stop` a worker never goes to sleep, and each step brings it nearer to its exit. -/
theorem workLeft_lt_of_worker {s t : State m τ} {a : Action m τ} {w : Fin m}
    (stopped : s.stopped = true) (ha : a = .pop w ∨ a = .run w) (hstep : step s a = some t) :
    workLeft t < workLeft s := by
  rcases ha with rfl | rfl
  · cases step_cases hstep with
    | wait _ _ running => simp [stopped] at running
    | leave pc _ _ =>
        refine workLeft_lt_of_goto rfl ?_
        rw [stepsLeft_of_inPop pc]
        simp [stepsLeft]
    | take pc queued =>
        refine workLeft_lt_of_goto rfl ?_
        rw [stepsLeft_of_inPop pc, queued, List.length_cons]
        simp only [stepsLeft]
        omega
  · cases step_cases hstep with
    | run pc => exact workLeft_lt_of_goto rfl (by simp [pc, stepsLeft])

/-- `Stop` has been called, and no worker sleeps. -/
structure Draining (s : State m τ) : Prop where
  stopped : s.stopped = true
  awake : ∀ w, s.workers w ≠ .waiting

theorem Draining.not_isWaiting {s : State m τ} (h : Draining s) (w : Fin m) :
    (s.workers w).isWaiting ≠ true := by
  intro hw
  cases hpc : s.workers w with
  | waiting => exact h.awake w hpc
  | _ => simp [hpc, WorkerPc.isWaiting] at hw

/-- Nobody gives the workers new work. -/
theorem Draining.workLeft_le {s t : State m τ} {a : Action m τ} (h : Draining s)
    (hstep : step s a = some t) : workLeft t ≤ workLeft s := by
  cases a with
  | pop w => exact (workLeft_lt_of_worker h.stopped (.inl rfl) hstep).le
  | run w => exact (workLeft_lt_of_worker h.stopped (.inr rfl) hstep).le
  | push task =>
      cases step_cases hstep with
      | push running => simp [h.stopped] at running
      | pushStopped _ => exact le_rfl
  | notifyOne woken =>
      cases step_cases hstep with
      | notifyOne _ waiting => exact absurd waiting (h.not_isWaiting _)
      | notifyNobody _ _ => exact le_rfl
  | spurious w =>
      cases step_cases hstep with
      | spurious waiting => exact absurd waiting (h.not_isWaiting _)
  | stop =>
      cases step_cases hstep with
      | stop => exact le_rfl
  | notifyAll =>
      cases step_cases hstep with
      | notifyAll _ =>
          have hsame : (notifyAll s).workers = s.workers := by
            funext w
            exact (notifyAll_workers s w).elim (fun hw => absurd hw.1 (h.awake w)) And.right
          exact (congrArg (fun workers => 2 * s.queue.length + ∑ w, stepsLeft (workers w))
            hsame).le

theorem Draining.step {s t : State m τ} {a : Action m τ} (h : Draining s)
    (hstep : step s a = some t) : Draining t := by
  cases step_cases hstep with
  | push running => simp [h.stopped] at running
  | pushStopped _ => exact h
  | notifyOne _ waiting => exact absurd waiting (h.not_isWaiting _)
  | notifyNobody _ _ => exact ⟨h.stopped, h.awake⟩
  | wait _ _ running => simp [h.stopped] at running
  | leave _ _ _ => exact ⟨h.stopped, notWaiting_of_goto h.awake (by simp)⟩
  | take _ _ => exact ⟨h.stopped, notWaiting_of_goto h.awake (by simp)⟩
  | run _ => exact ⟨h.stopped, notWaiting_of_goto h.awake (by simp)⟩
  | spurious waiting => exact absurd waiting (h.not_isWaiting _)
  | stop => exact ⟨rfl, h.awake⟩
  | notifyAll _ =>
      refine ⟨h.stopped, fun w => ?_⟩
      rcases notifyAll_workers s w with ⟨-, hwoken⟩ | ⟨hnot, hsame⟩
      · simp [hwoken]
      · simpa [hsame] using hnot

theorem exists_step_of_isActive {s : State m τ} {w : Fin m} (h : IsActive (s.workers w)) :
    ∃ a t, (a = .pop w ∨ a = .run w) ∧ step s a = some t := by
  cases hpc : s.workers w with
  | pop => exact ⟨.pop w, pop s w, .inl rfl, if_pos (by simp [hpc, WorkerPc.inPop])⟩
  | woken => exact ⟨.pop w, pop s w, .inl rfl, if_pos (by simp [hpc, WorkerPc.inPop])⟩
  | run task => exact ⟨.run w, s.goto w .pop, .inr rfl, by simp [TaskQueue.step, hpc]⟩
  | waiting => exact absurd hpc h.1
  | exited => exact absurd hpc h.2

theorem exists_step_notifyOne {s : State m τ} (pending : 0 < s.notifying) :
    ∃ woken t, step s (.notifyOne woken) = some t := by
  by_cases hwaiting : ∃ w, (s.workers w).isWaiting = true
  · obtain ⟨w, hw⟩ := hwaiting
    exact ⟨some w, _, (if_pos pending).trans (if_pos hw)⟩
  · have hnobody : ∀ w, (s.workers w).isWaiting = false := by simpa using hwaiting
    exact ⟨none, _, (if_pos pending).trans (if_pos (by simpa using hnobody))⟩

/-- Each worker that has not left can go on, and comes nearer to its exit. -/
theorem Draining.progress {s : State m τ} (h : Draining s) {w : Fin m}
    (hw : s.workers w ≠ .exited) :
    ∃ a t, (a = .pop w ∨ a = .run w) ∧ TaskQueue.step s a = some t ∧
      workLeft t < workLeft s := by
  obtain ⟨a, t, ha, hstep⟩ := exists_step_of_isActive ⟨h.awake w, hw⟩
  exact ⟨a, t, ha, hstep, workLeft_lt_of_worker h.stopped ha hstep⟩

theorem draining_of_run {P : State m τ → Action m τ → Prop} {as : List (Action m τ)}
    {s : State m τ} (run : Run (taskQueue m τ) P as s) (stopped : s.stopped = true)
    (told : s.stopping = 0) : Draining s :=
  ⟨stopped, (notified_of_run run).told stopped told⟩

/-- The notifications and the steps of the workers. -/
def Serves : Action m τ → Prop
  | .notifyOne _ | .pop _ | .run _ => True
  | _ => False

/-- No wakeup is lost: while a task is queued, a notification is due or a worker can go on.
After `Stop` has notified, every worker goes on to its exit, and nothing gives it more to do. -/
theorem queue_progress {s : State m τ} (hm : 0 < m) (hs : Reachable (taskQueue m τ) s) :
    (s.queue ≠ [] → ∃ a t, Serves a ∧ step s a = some t) ∧
    (s.stopped = true → s.stopping = 0 →
      (∀ w, s.workers w ≠ .exited → ∃ a t, (a = .pop w ∨ a = .run w) ∧ step s a = some t ∧
        workLeft t < workLeft s) ∧
      ∀ a t, step s a = some t → workLeft t ≤ workLeft s) := by
  obtain ⟨as, run⟩ := hs
  constructor
  · intro hqueue
    rcases (notified_of_run run).awake hqueue with hpending | ⟨w, hw⟩ | rfl
    · obtain ⟨woken, t, hstep⟩ := exists_step_notifyOne hpending
      exact ⟨.notifyOne woken, t, trivial, hstep⟩
    · obtain ⟨a, t, rfl | rfl, hstep⟩ := exists_step_of_isActive hw
      · exact ⟨.pop w, t, trivial, hstep⟩
      · exact ⟨.run w, t, trivial, hstep⟩
    · exact absurd hm (Nat.lt_irrefl 0)
  · intro stopped told
    have hdraining := draining_of_run run stopped told
    exact ⟨fun w hw => hdraining.progress hw, fun a t hstep => hdraining.workLeft_le hstep⟩

/-- A task is queued, and the queue has been stopped. -/
def stopSchedule : List (Action 1 Nat) :=
  [.push 7, .stop, .notifyAll]

theorem queue_progress_stopped :
    ∃ s, exec (taskQueue 1 Nat) (taskQueue 1 Nat).init stopSchedule = some s ∧
      (∃ a t, Serves a ∧ step s a = some t) ∧
      ∀ w, s.workers w ≠ .exited → ∃ a t, (a = .pop w ∨ a = .run w) ∧ step s a = some t ∧
        workLeft t < workLeft s := by
  have hexec : exec (taskQueue 1 Nat) (taskQueue 1 Nat).init stopSchedule = some _ := rfl
  obtain ⟨hserved, hdrained⟩ := queue_progress (by decide) (reachable_of_exec hexec)
  exact ⟨_, hexec, hserved (List.cons_ne_nil 7 []), (hdrained rfl rfl).1⟩

end Progress

/-- Nothing is lost, duplicated or reordered: in every run the tasks handed out and
then the queue are the tasks pushed before `Stop`. A `Pop` reports the stop only after
`Stop` and with an empty queue, and no worker leaves while a task is queued. -/
theorem taskQueue_delivers {as : List (Action m τ)} {s : State m τ} :
    Run (taskQueue m τ) Unrestricted as s →
      returned as ++ s.queue = pushedBeforeStop as ∧
      (∀ w t, step s (.pop w) = some t → t.workers w = .exited →
        .stop ∈ as ∧ s.queue = []) ∧
      (∀ w, s.workers w = .exited → returned as = pushedBeforeStop as) := by
  intro run
  have h := accounted_of_run run
  refine ⟨h.fifo, fun w t hstep hexited => ?_, fun w hexited => ?_⟩
  · have hstopped : s.stopped = true ∧ s.queue = [] := by
      cases step_cases hstep with
      | wait _ _ _ => simp at hexited
      | leave _ empty stopped => exact ⟨stopped, empty⟩
      | take _ _ => simp at hexited
    exact ⟨stop_mem_of_stopped h hstopped.1, hstopped.2⟩
  · have hfifo := h.fifo
    rwa [(h.left w hexited).2, List.append_nil] at hfifo

/-- A task that is still queued at `Stop` is handed out before the worker leaves. -/
def drainSchedule : List (Action 1 Nat) :=
  [.push 7, .stop, .push 8, .pop (Fin.last 0), .run (Fin.last 0), .pop (Fin.last 0)]

theorem taskQueue_delivers_drained :
    returned drainSchedule = pushedBeforeStop drainSchedule ∧
      pushedBeforeStop drainSchedule = [7] := by
  have hexec : exec (taskQueue 1 Nat) (taskQueue 1 Nat).init drainSchedule = some _ := rfl
  exact ⟨(taskQueue_delivers (run_of_exec hexec)).2.2 0 rfl, rfl⟩

end SkUtils.Concurrency.TaskQueueDelivery
