import Mathlib.Algebra.Order.Group.Multiset
import SkUtils.Concurrency.ThreadPoolShutdown

/-!
The tasks of `ThreadPool`. A worker tests `isRunning_` before it looks at the
queue, so the tasks that are queued when the last worker leaves are never invoked.
-/

namespace SkUtils.Concurrency.ThreadPoolTasks

open SkUtils.Library.Processes
open SkUtils.Library.TransitionSystem
open SkUtils.Concurrency.ThreadPool
open SkUtils.Concurrency.ThreadPoolShutdown

variable {n : Nat} {τ : Type*}

def pushedTask : Action n τ → List τ
  | .push task => [task]
  | _ => []

def invokedTask (s : State n τ) : Action n τ → List τ
  | .work w =>
      match s.workers w with
      | .invoke task => [task]
      | _ => []
  | _ => []

def pushed (as : List (Action n τ)) : List τ :=
  as.flatMap pushedTask

def invoked (as : List (Action n τ)) : List τ :=
  outputs (pool n τ) invokedTask (pool n τ).init as

def AllTasksRun (as : List (Action n τ)) (s : State n τ) : Prop :=
  (invoked as).Perm (pushed as) ∧ s.workQueue = []

def AllExited (s : State n τ) : Prop :=
  ∀ w, s.workers w = .exited

/-- The last worker that leaves its loop leaves an empty queue, and so does
`shutdown` when there is no worker at all. -/
def LeavesDrained (s : State n τ) : Action n τ → Prop
  | .work w =>
      s.workers w = .testRunning → s.isRunning = false →
        (∀ v, v ≠ w → s.workers v = .exited) → s.workQueue = []
  | .shutdown => s.shutdown = .notCalled → AllExited s → s.workQueue = []
  | _ => True

section Conservation

def held : WorkerPc τ → Multiset τ
  | .unlock (some task) => {task}
  | .invoke task => {task}
  | _ => 0

/-- Every task pushed so far is queued, in the hands of one worker, or invoked. -/
def Conserved (as : List (Action n τ)) (s : State n τ) : Prop :=
  (invoked as : Multiset τ) + ∑ w, held (s.workers w) + (s.workQueue : Multiset τ) =
    (pushed as : Multiset τ)

theorem pushed_extend (as : List (Action n τ)) (a : Action n τ) :
    pushed (as ++ [a]) = pushed as ++ pushedTask a := by
  simp [pushed]

theorem Conserved.move {P : State n τ → Action n τ → Prop} {as : List (Action n τ)}
    {s t : State n τ} {a : Action n τ} (run : Run (pool n τ) P as s)
    (h : Conserved as s) (w : Fin n) (pc : WorkerPc τ) (hpushed : pushedTask a = [])
    (hworkers : t.workers = Function.update s.workers w pc)
    (hheld : (invokedTask s a : Multiset τ) + held pc + (t.workQueue : Multiset τ) =
      held (s.workers w) + (s.workQueue : Multiset τ)) :
    Conserved (as ++ [a]) t := by
  have hsum := sum_update_add held s.workers w pc
  rw [← hworkers] at hsum
  rw [Conserved] at h ⊢
  rw [pushed_extend, hpushed, List.append_nil, ← h, invoked, run.outputs_extend,
    ← Multiset.coe_add, ← invoked]
  apply add_right_cancel (b := held (s.workers w))
  calc
    (invoked as : Multiset τ) + invokedTask s a + ∑ v, held (t.workers v) + t.workQueue +
          held (s.workers w) =
        invoked as + invokedTask s a + t.workQueue +
          (∑ v, held (t.workers v) + held (s.workers w)) := by ac_rfl
    _ = invoked as + ∑ v, held (s.workers v) +
          ((invokedTask s a : Multiset τ) + held pc + t.workQueue) := by rw [hsum]; ac_rfl
    _ = invoked as + ∑ v, held (s.workers v) + s.workQueue + held (s.workers w) := by
      rw [hheld]
      ac_rfl

theorem Conserved.control {P : State n τ → Action n τ → Prop} {as : List (Action n τ)}
    {s t : State n τ} {a : Action n τ} (run : Run (pool n τ) P as s)
    (h : Conserved as s) (hinvoked : invokedTask s a = [])
    (hheld : ∀ w, held (t.workers w) = held (s.workers w))
    (hqueue : t.workQueue = s.workQueue ++ pushedTask a) : Conserved (as ++ [a]) t := by
  rw [Conserved] at h ⊢
  rw [pushed_extend, ← Multiset.coe_add, ← h, invoked, run.outputs_extend, hinvoked,
    List.append_nil, hqueue, ← Multiset.coe_add, Finset.sum_congr rfl fun w _ => hheld w]
  simp only [invoked]
  ac_rfl

theorem Conserved.work {P : State n τ → Action n τ → Prop} {as : List (Action n τ)}
    {s t : State n τ} {w : Fin n} (run : Run (pool n τ) P as s) (h : Conserved as s)
    (hwork : Work s w t) : Conserved (as ++ [.work w]) t := by
  cases hwork with
  | pop pc =>
      refine h.move run w _ rfl rfl ?_
      cases hqueue : s.workQueue with
      | nil => simp [invokedTask, held, pc]
      | cons task rest => simp [invokedTask, held, pc]
  | start pc => exact h.move run w _ rfl rfl (by simp [invokedTask, held, pc])
  | finish pc => exact h.move run w _ rfl rfl (by simp [invokedTask, held, pc])
  | enter pc _ => exact h.move run w _ rfl rfl (by simp [invokedTask, held, pc])
  | leave pc _ => exact h.move run w _ rfl rfl (by simp [invokedTask, held, pc])
  | acquire pc _ => exact h.move run w _ rfl rfl (by simp [invokedTask, held, pc])
  | seeEmpty pc _ => exact h.move run w _ rfl rfl (by simp [invokedTask, held, pc])
  | seeTask pc _ => exact h.move run w _ rfl rfl (by simp [invokedTask, held, pc])
  | block pc => exact h.move run w _ rfl rfl (by simp [invokedTask, held, pc])
  | reacquire pc _ => exact h.move run w _ rfl rfl (by simp [invokedTask, held, pc])
  | retry pc => exact h.move run w _ rfl rfl (by simp [invokedTask, held, pc])

theorem held_woken {s : State n τ} {w : Fin n} (h : (s.workers w).isBlocked = true) :
    held (s.workers w) = held (.woken : WorkerPc τ) := by
  rw [eq_blocked_of_isBlocked h]
  rfl

theorem Conserved.transition {P : State n τ → Action n τ → Prop}
    {as : List (Action n τ)} {s t : State n τ} {a : Action n τ}
    (run : Run (pool n τ) P as s) (h : Conserved as s) (htransition : Transition s a t) :
    Conserved (as ++ [a]) t := by
  cases htransition with
  | push _ => exact h.control run rfl (fun _ => rfl) rfl
  | @notifyOne w _ blocked =>
      refine h.move run w .woken rfl rfl ?_
      simp [invokedTask, held_woken blocked]
  | notifyNobody _ _ => exact h.control run rfl (fun _ => rfl) (by simp [pushedTask])
  | work hwork => exact h.work run hwork
  | @spurious w blocked =>
      refine h.move run w .woken rfl rfl ?_
      simp [invokedTask, held_woken blocked]
  | stop _ => exact h.control run rfl (fun _ => rfl) (by simp [pushedTask])
  | notifyAll _ =>
      refine h.control run rfl (fun w => ?_) (by simp [pushedTask, notifyAll])
      rcases notifyAll_workers s w with ⟨hblocked, hwoken⟩ | ⟨-, hsame⟩
      · simp [hblocked, hwoken, held]
      · simp [hsame]
  | join _ _ _ => exact h.control run rfl (fun _ => rfl) (by simp [pushedTask])

theorem conserved_of_run {P : State n τ → Action n τ → Prop} {as : List (Action n τ)}
    {s : State n τ} (run : Run (pool n τ) P as s) : Conserved as s :=
  run.invariant Conserved (by simp [Conserved, pool, invoked, pushed, outputs, held])
    fun _ _ _ _ hrun _ hstep hs => hs.transition hrun (step_cases hstep)

end Conservation

section Drained

def LeftDrained (s : State n τ) : Prop :=
  s.shutdown ≠ .notCalled → AllExited s → s.workQueue = []

theorem LeftDrained.work {s t : State n τ} {w : Fin n} (hdrained : LeavesDrained s (.work w))
    (hwork : Work s w t) : LeftDrained t := by
  cases hwork with
  | leave pc stopped =>
      intro _ hexited
      refine hdrained pc stopped fun v hvw => ?_
      have hv := hexited v
      rwa [State.goto_workers, Function.update_of_ne hvw] at hv
  | _ =>
      intro _ hexited
      have hw := hexited w
      simp at hw

theorem LeftDrained.transition {s t : State n τ} {a : Action n τ} (h : LeftDrained s)
    (hdrained : LeavesDrained s a) (htransition : Transition s a t) : LeftDrained t := by
  cases htransition with
  | push alive =>
      intro hcalled hexited
      rcases alive with hnot | ⟨w, hw⟩
      · exact absurd hnot hcalled
      · rw [show s.workers w = .exited from hexited w] at hw
        simp [WorkerPc.isInvoking] at hw
  | @notifyOne w _ _ =>
      intro _ hexited
      have hw := hexited w
      simp at hw
  | notifyNobody _ _ => exact h
  | work hwork => exact .work hdrained hwork
  | @spurious w _ =>
      intro _ hexited
      have hw := hexited w
      simp at hw
  | stop pc => exact fun _ hexited => hdrained pc hexited
  | notifyAll pc =>
      intro _ hexited
      refine h (by simp [pc]) fun w => ?_
      have hw := hexited w
      rcases notifyAll_workers s w with ⟨-, hwoken⟩ | ⟨-, hsame⟩
      · simp [hwoken] at hw
      · simpa [hsame] using hw
  | join pc _ _ => exact fun _ hexited => h (by simp [pc]) hexited

theorem allTasksRun_of_leavesDrained {as : List (Action n τ)} {s : State n τ}
    (run : Run (pool n τ) LeavesDrained as s) (joined : s.shutdown = .join n) :
    AllTasksRun as s := by
  have hexited : AllExited s := fun w =>
    joinedExited_of_reachable run.reachable n joined w w.isLt
  have hleft : LeftDrained s :=
    run.invariant (fun _ => LeftDrained) (by simp [LeftDrained, pool])
      fun _ _ _ _ _ hdrained hstep hs => hs.transition hdrained (step_cases hstep)
  have hqueue := hleft (by simp [joined]) hexited
  have hconserved := conserved_of_run run
  have hheld : ∑ w, held (s.workers w) = 0 :=
    Finset.sum_eq_zero fun w _ => by rw [hexited w]; rfl
  refine ⟨Multiset.coe_eq_coe.mp ?_, hqueue⟩
  simpa [Conserved, hheld, hqueue] using hconserved

end Drained

section Abandoned

/-- Tasks are queued and no worker is left. -/
structure Abandoned (s : State n τ) : Prop where
  stopped : s.shutdown ≠ .notCalled
  exited : AllExited s
  queued : s.workQueue ≠ []

theorem Abandoned.transition {s t : State n τ} {a : Action n τ} (h : Abandoned s)
    (htransition : Transition s a t) : Abandoned t := by
  have hexited : AllExited t := fun w => exited_of_transition (h.exited w) htransition
  cases htransition with
  | push _ => exact ⟨h.stopped, hexited, by simp⟩
  | work hwork => exact absurd (h.exited _) hwork.moves.2.2
  | stop _ => exact ⟨by simp, hexited, h.queued⟩
  | notifyAll _ => exact ⟨by simp, hexited, h.queued⟩
  | join _ _ _ => exact ⟨by simp, hexited, h.queued⟩
  | _ => exact ⟨h.stopped, hexited, h.queued⟩

theorem abandoned_of_not_leavesDrained {s t : State n τ} {a : Action n τ}
    (hs : Reachable (pool n τ) s) (hdrained : ¬ LeavesDrained s a)
    (hstep : step s a = some t) : Abandoned t := by
  cases a with
  | work w =>
      obtain ⟨pc, stopped, hothers, hqueue⟩ :
          s.workers w = .testRunning ∧ s.isRunning = false ∧
            (∀ v, v ≠ w → s.workers v = .exited) ∧ s.workQueue ≠ [] := by
        simpa [LeavesDrained] using hdrained
      obtain rfl : s.goto w .exited = t := by
        simpa [step, doWork, pc, stopped] using hstep
      refine ⟨fun hcalled => ?_, fun v => ?_, hqueue⟩
      · have hrunning := running_of_reachable hs hcalled
        simp [stopped] at hrunning
      · by_cases hvw : v = w
        · subst v
          simp
        · simpa [Function.update_of_ne hvw] using hothers v hvw
  | shutdown =>
      obtain ⟨pc, hexited, hqueue⟩ :
          s.shutdown = .notCalled ∧ AllExited s ∧ s.workQueue ≠ [] := by
        simpa [LeavesDrained] using hdrained
      obtain rfl : { s with isRunning := false, shutdown := .notifyAll } = t := by
        simpa [step, shutdown, pc] using hstep
      exact ⟨by simp, hexited, hqueue⟩
  | push task => exact absurd trivial hdrained
  | notifyOne woken => exact absurd trivial hdrained
  | spurious w => exact absurd trivial hdrained

theorem Abandoned.exec {s t : State n τ} {as : List (Action n τ)} (h : Abandoned s)
    (hexec : exec (pool n τ) s as = some t) : Abandoned t :=
  (exec_invariant Abandoned (fun _ => True) (fun _ => True)
    (fun _ _ _ _ hstep hs => ⟨hs.transition (step_cases hstep), trivial⟩) hexec
    (by simp) h).1

end Abandoned

/-- The only worker has not yet tested `isRunning_` when the task is submitted and
the pool destroyed. -/
def abandonedSchedule (task : τ) : List (Action 1 τ) :=
  [.push task, .notifyOne none, .shutdown, .work (Fin.last 0), .shutdown, .shutdown]

/-- Every pushed task is invoked exactly once, and the queue is empty, whenever the
workers are joined after a run that leaves the queue drained. After a step that does
not, the queue never becomes empty. -/
theorem allTasksRun_at_join (n : Nat) (τ : Type*) :
    (∀ as (s : State n τ), Run (pool n τ) LeavesDrained as s → s.shutdown = .join n →
      AllTasksRun as s) ∧
    (∀ as (s t u : State n τ) a bs, Run (pool n τ) Unrestricted as s →
      ¬ LeavesDrained s a → step s a = some t → exec (pool n τ) t bs = some u →
        ¬ AllTasksRun (as ++ [a] ++ bs) u) := by
  refine ⟨fun as s run => allTasksRun_of_leavesDrained run, ?_⟩
  intro as s t u a bs run hdrained hstep hexec hall
  have ht := abandoned_of_not_leavesDrained run.reachable hdrained hstep
  exact (ht.exec hexec).queued hall.2

theorem abandonedTask_reachable :
    ∃ as s, Run (pool 1 Nat) Unrestricted as s ∧ s.shutdown = .join 1 ∧
      ¬ AllTasksRun as s := by
  have hexec : exec (pool 1 Nat) (pool 1 Nat).init (abandonedSchedule 7) = some _ := rfl
  exact ⟨_, _, run_of_exec hexec, rfl, fun hall => List.cons_ne_nil _ _ hall.2⟩

end SkUtils.Concurrency.ThreadPoolTasks
