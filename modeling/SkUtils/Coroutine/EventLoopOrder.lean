import SkUtils.Coroutine.EventLoop

/-!
The order in which an `EventLoop` executes its tasks, over every run of posting threads,
posting tasks, and calls of `run` and `stop`.
-/

namespace SkUtils.Coroutine.EventLoopOrder

open SkUtils.Library.TransitionSystem
open SkUtils.Coroutine.EventLoop

variable {τ : Type}

def posted (_ : State τ) : Action τ → List (EventLoop.Task τ)
  | .post task | .taskPost task => [task]
  | _ => []

/-- What `run` takes from the front of its batch, empty functions included. -/
def taken (s : State τ) : Action τ → List (EventLoop.Task τ)
  | .loop => if s.loop = .testLocal then s.batch.take 1 else []
  | _ => []

/-- The task that runs, which is the front of the batch. -/
def inTask (s : State τ) : List τ :=
  match s.loop, s.batch with
  | .inTask, some task :: _ => [task]
  | _, _ => []

/-- The task that a step of `run` calls. -/
def executed (s : State τ) : Action τ → List τ
  | .loop => (runLoop s).elim [] inTask
  | _ => []

/-- What is left of the batch: without its front once that has been tested. -/
def remaining (s : State τ) : List (EventLoop.Task τ) :=
  match s.loop with
  | .inTask | .inTaskNotify | .popLocal => s.batch.tail
  | _ => s.batch

def IsDraining (pc : LoopPc) : Prop :=
  pc = .testLocal ∨ pc = .inTask ∨ pc = .inTaskNotify ∨ pc = .popLocal

def BatchLocal (s : State τ) : Prop :=
  ¬ IsDraining s.loop → s.batch = []

theorem inTask_of_ne {s : State τ} (h : s.loop ≠ .inTask) : inTask s = [] := by
  unfold inTask
  split
  case h_1 hpc _ => exact absurd hpc h
  case h_2 => rfl

/-- A task is called where it is taken. -/
theorem inTask_of_runLoop {s t : State τ} (h : RunLoop s t) :
    inTask t = (taken s .loop).filterMap id := by
  have hidle : s.loop ≠ .testLocal → t.loop ≠ .inTask →
      inTask t = (taken s .loop).filterMap id := by
    intro hpc hnot
    rw [inTask_of_ne hnot, taken, if_neg hpc]
    rfl
  cases h with
  | drained pc empty =>
      rw [inTask_of_ne (by simp), taken, if_pos pc, empty]
      rfl
  | skip pc front =>
      rw [inTask_of_ne (by simp), taken, if_pos pc, front]
      rfl
  | call pc front =>
      rw [taken, if_pos pc]
      simp [inTask, front]
  | swap pc _ =>
      refine hidle ?_ (by simp)
      rcases pc with pc | pc <;> simp [pc]
  | block pc _ _ =>
      refine hidle ?_ (by simp)
      rcases pc with pc | pc <;> simp [pc]
  | storeRunning pc => exact hidle (by simp [pc]) (by simp)
  | enter pc _ => exact hidle (by simp [pc]) (by simp)
  | leave pc _ => exact hidle (by simp [pc]) (by simp)
  | taskReturn pc => exact hidle (by simp [pc]) (by simp)
  | pop pc => exact hidle (by simp [pc]) (by simp)

theorem executed_eq (s : State τ) (a : Action τ) : executed s a = (taken s a).filterMap id := by
  cases a with
  | loop =>
      cases hstep : runLoop s with
      | some t =>
          rw [executed, hstep]
          exact inTask_of_runLoop (runLoop_cases hstep)
      | none =>
          have hpc : s.loop ≠ .testLocal := by
            intro hpc
            rcases hbatch : s.batch with _ | ⟨_ | task, rest⟩ <;>
              simp [runLoop, hpc, hbatch] at hstep
          rw [executed, hstep, taken, if_neg hpc]
          rfl
  | _ => rfl

theorem remaining_notifyOne (s : State τ) : remaining (notifyOne s) = remaining s := by
  cases hpc : s.loop <;> simp [remaining, notifyOne, hpc]

theorem BatchLocal.notifyOne {s : State τ} (h : BatchLocal s) :
    BatchLocal (EventLoop.notifyOne s) := by
  intro hpc
  refine h fun hdraining => hpc ?_
  rcases hdraining with hpc | hpc | hpc | hpc <;>
    simp [EventLoop.notifyOne, hpc, IsDraining]

theorem BatchLocal.transition {s t : State τ} {a : Action τ} (h : BatchLocal s)
    (htransition : Transition s a t) : BatchLocal t := by
  cases htransition with
  | run pc =>
      intro _
      rcases pc with pc | pc <;> exact h (by simp [pc, IsDraining])
  | loop loop =>
      cases loop with
      | storeRunning pc => exact fun _ => h (by simp [pc, IsDraining])
      | enter _ _ => exact fun _ => rfl
      | leave pc _ => exact fun _ => h (by simp [pc, IsDraining])
      | swap _ _ => exact fun hpc => absurd (.inl rfl) hpc
      | block pc _ _ =>
          intro _
          rcases pc with pc | pc <;> exact h (by simp [pc, IsDraining])
      | drained _ empty => exact fun _ => empty
      | skip _ _ => exact fun hpc => absurd (.inr (.inr (.inr rfl))) hpc
      | call _ _ => exact fun hpc => absurd (.inr (.inl rfl)) hpc
      | taskReturn _ => exact fun hpc => absurd (.inr (.inr (.inr rfl))) hpc
      | pop _ => exact fun hpc => absurd (.inl rfl) hpc
  | taskPost _ => exact fun hpc => absurd (.inr (.inr (.inl rfl))) hpc
  | taskStop _ => exact fun hpc => absurd (.inr (.inr (.inl rfl))) hpc
  | taskNotify _ => exact fun hpc => absurd (.inr (.inl rfl)) hpc
  | post => exact h
  | postNotify _ => exact h.notifyOne
  | stop => exact h
  | stopNotify _ => exact h.notifyOne
  | spurious pc => exact fun _ => h (by simp [pc, IsDraining])

theorem taken_loop {s t : State τ} (h : RunLoop s t) (hbatch : BatchLocal s) :
    taken s .loop ++ (remaining t ++ t.queue) = remaining s ++ s.queue := by
  cases h with
  | swap pc _ =>
      have hempty : s.batch = [] := by
        rcases pc with pc | pc <;> exact hbatch (by simp [pc, IsDraining])
      rcases pc with pc | pc <;> simp [taken, remaining, pc, hempty]
  | enter pc _ =>
      have hempty : s.batch = [] := hbatch (by simp [pc, IsDraining])
      simp [taken, remaining, pc, hempty]
  | block pc _ _ => rcases pc with pc | pc <;> simp [taken, remaining, pc]
  | drained pc empty => simp [taken, remaining, pc, empty]
  | skip pc front => simp [taken, remaining, pc, front]
  | call pc front => simp [taken, remaining, pc, front]
  | storeRunning pc => simp [taken, remaining, pc]
  | leave pc _ => simp [taken, remaining, pc]
  | taskReturn pc => simp [taken, remaining, pc]
  | pop pc => simp [taken, remaining, pc]

/-- What one step takes from the front of the entries not yet taken, and what it puts
at their end. -/
theorem taken_step {s t : State τ} {a : Action τ} (h : Transition s a t)
    (hbatch : BatchLocal s) :
    taken s a ++ (remaining t ++ t.queue) = remaining s ++ s.queue ++ posted s a := by
  have hnotified :
      [] ++ (remaining (notifyOne s) ++ s.queue) = remaining s ++ s.queue ++ [] := by
    rw [remaining_notifyOne, List.nil_append, List.append_nil]
  cases h with
  | run pc => rcases pc with pc | pc <;> simp [taken, remaining, posted, pc]
  | loop loop => simpa [posted] using taken_loop loop hbatch
  | taskPost pc => simp [taken, remaining, posted, pc]
  | taskStop pc => simp [taken, remaining, posted, pc]
  | taskNotify pc => simp [taken, remaining, posted, pc]
  | post => simp [taken, remaining, posted]
  | postNotify _ => exact hnotified
  | stop => simp [taken, remaining, posted]
  | stopNotify _ => exact hnotified
  | spurious pc => simp [taken, remaining, posted, pc]

theorem batchLocal_of_run {as : List (Action τ)} {s : State τ}
    (run : Run (eventLoop τ) Unrestricted as s) : BatchLocal s :=
  run.reachable.invariant BatchLocal (fun _ => rfl)
    fun _ _ _ hstep hs => hs.transition (step_cases hstep)

theorem taken_of_run {as : List (Action τ)} {s : State τ}
    (run : Run (eventLoop τ) Unrestricted as s) :
    outputs (eventLoop τ) taken (eventLoop τ).init as ++ (remaining s ++ s.queue) =
      outputs (eventLoop τ) posted (eventLoop τ).init as := by
  induction run with
  | start => rfl
  | @extend as s t a run _ hstep ih =>
      have hlaw := taken_step (step_cases hstep) (batchLocal_of_run run)
      rw [run.outputs_extend, run.outputs_extend, ← ih, List.append_assoc, hlaw]
      simp only [List.append_assoc]

/-- In every run the tasks executed, then what is left of the batch, then `queue_`, are
the tasks posted, with and without the empty functions that `run` skips. What is posted
and not executed when `run` has returned is in `queue_`. -/
theorem executed_in_posting_order {as : List (Action τ)} {s : State τ}
    (run : Run (eventLoop τ) Unrestricted as s) :
    outputs (eventLoop τ) taken (eventLoop τ).init as ++ remaining s ++ s.queue =
        outputs (eventLoop τ) posted (eventLoop τ).init as ∧
      outputs (eventLoop τ) executed (eventLoop τ).init as ++
          (remaining s).filterMap id ++ s.queue.filterMap id =
        (outputs (eventLoop τ) posted (eventLoop τ).init as).filterMap id ∧
      (s.loop = .notCalled ∨ s.loop = .returned → remaining s = []) := by
  have htaken := taken_of_run run
  refine ⟨by rw [List.append_assoc, htaken], ?_, fun hpc => ?_⟩
  · have hexecuted : executed (τ := τ) = fun s a => (taken s a).filterMap id :=
      funext fun s => funext fun a => executed_eq s a
    rw [hexecuted, outputs_filterMap, ← htaken]
    simp
  · have hempty : s.batch = [] := batchLocal_of_run run <| by
      rcases hpc with hpc | hpc <;> simp [hpc, IsDraining]
    rcases hpc with hpc | hpc <;> simp [remaining, hpc, hempty]

/-- The first task posts another and stops the loop, which then drains its batch and
returns; a second `run` finds what was posted meanwhile. -/
def stoppedAndResumed : List (Action Nat) :=
  [.post (some 1), .post none, .run, .loop, .loop, .loop, .loop, .taskPost (some 2),
    .taskNotify, .taskStop, .taskNotify, .post (some 3), .loop, .loop, .loop, .loop, .loop,
    .loop, .run, .loop, .loop, .loop, .loop]

theorem executed_in_posting_order_stoppedAndResumed :
    ∃ s, exec (eventLoop Nat) (eventLoop Nat).init stoppedAndResumed = some s ∧
      outputs (eventLoop Nat) executed (eventLoop Nat).init stoppedAndResumed ++
          (remaining s).filterMap id ++ s.queue.filterMap id = [1, 2, 3] ∧
      remaining s = [some 3] := by
  have hexec : exec (eventLoop Nat) (eventLoop Nat).init stoppedAndResumed = some _ := rfl
  exact ⟨_, hexec, (executed_in_posting_order (run_of_exec hexec)).2.1, rfl⟩

end SkUtils.Coroutine.EventLoopOrder
