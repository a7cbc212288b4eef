import SkUtils.Library.Processes
import SkUtils.Library.TransitionSystem

/-!
`EventBus::TaskQueue` of `event_manager.h` with `m` workers that loop on `Pop`, and
any number of publishers. A critical section of `mtx` is one action: the whole of
`Pop` between two waits, and `Push` and `Stop` up to their notifications.
-/

namespace SkUtils.Concurrency.TaskQueue

open SkUtils.Library.Processes
open SkUtils.Library.TransitionSystem

/-- A worker calls `Pop`, is blocked in `cv.wait` with `mtx` released, was woken there
and will test the predicate again, has been handed a task, or has been told to stop. -/
inductive WorkerPc (τ : Type*)
  | pop
  | waiting
  | woken
  | run (task : τ)
  | exited

/-- `notifying` and `stopping` count the calls of `Push` and `Stop` between their
critical section and their notification. -/
structure State (m : Nat) (τ : Type*) where
  queue : List τ
  stopped : Bool
  workers : Fin m → WorkerPc τ
  notifying : Nat
  stopping : Nat

inductive Action (m : Nat) (τ : Type*)
  | push (task : τ)
  | notifyOne (woken : Option (Fin m))
  | pop (w : Fin m)
  | run (w : Fin m)
  | spurious (w : Fin m)
  | stop
  | notifyAll

section Steps

variable {m : Nat} {τ : Type*}

def State.goto (s : State m τ) (w : Fin m) (pc : WorkerPc τ) : State m τ :=
  { s with workers := Function.update s.workers w pc }

@[simp] theorem State.goto_workers (s : State m τ) (w : Fin m) (pc : WorkerPc τ) :
    (s.goto w pc).workers = Function.update s.workers w pc := rfl

@[simp] theorem State.goto_queue (s : State m τ) (w : Fin m) (pc : WorkerPc τ) :
    (s.goto w pc).queue = s.queue := rfl

@[simp] theorem State.goto_stopped (s : State m τ) (w : Fin m) (pc : WorkerPc τ) :
    (s.goto w pc).stopped = s.stopped := rfl

def WorkerPc.isWaiting : WorkerPc τ → Bool
  | .waiting => true
  | _ => false

/-- In `Pop` with `mtx` about to be acquired. -/
def WorkerPc.inPop : WorkerPc τ → Bool
  | .pop | .woken => true
  | _ => false

def push (s : State m τ) (task : τ) : State m τ :=
  if s.stopped then s
  else { s with queue := s.queue ++ [task], notifying := s.notifying + 1 }

/-- `Pop` from the acquisition of `mtx` to its release, by a wait or a return. -/
def pop (s : State m τ) (w : Fin m) : State m τ :=
  if s.queue.isEmpty && !s.stopped then s.goto w .waiting
  else
    match s.queue with
    | [] => s.goto w .exited
    | task :: rest => { s.goto w (.run task) with queue := rest }

def notifyOne (s : State m τ) : Option (Fin m) → Option (State m τ)
  | some w => if (s.workers w).isWaiting then some (s.goto w .woken) else none
  | none => if ∀ w, !(s.workers w).isWaiting then some s else none

def notifyAll (s : State m τ) : State m τ :=
  { s with workers := fun w =>
      if (s.workers w).isWaiting then .woken else s.workers w }

theorem notifyAll_workers (s : State m τ) (w : Fin m) :
    (s.workers w = .waiting ∧ (notifyAll s).workers w = .woken) ∨
      (s.workers w ≠ .waiting ∧ (notifyAll s).workers w = s.workers w) := by
  cases hpc : s.workers w with
  | waiting => exact .inl ⟨rfl, by simp [notifyAll, hpc, WorkerPc.isWaiting]⟩
  | _ => exact .inr ⟨by simp, by simp [notifyAll, hpc, WorkerPc.isWaiting]⟩

def step (s : State m τ) : Action m τ → Option (State m τ)
  | .push task => some (push s task)
  | .notifyOne woken =>
      if 0 < s.notifying then
        notifyOne { s with notifying := s.notifying - 1 } woken
      else none
  | .pop w => if (s.workers w).inPop then some (pop s w) else none
  | .run w =>
      match s.workers w with
      | .run _ => some (s.goto w .pop)
      | _ => none
  | .spurious w => if (s.workers w).isWaiting then some (s.goto w .woken) else none
  | .stop => some { s with stopped := true, stopping := s.stopping + 1 }
  | .notifyAll =>
      if 0 < s.stopping then
        some { notifyAll s with stopping := s.stopping - 1 }
      else none

/-- A `TaskQueue` once its workers have been started. -/
def taskQueue (m : Nat) (τ : Type*) : System (State m τ) (Action m τ) where
  init :=
    { queue := []
      stopped := false
      workers := fun _ => .pop
      notifying := 0
      stopping := 0 }
  step := step

inductive Transition (s : State m τ) : Action m τ → State m τ → Prop
  | push {task : τ} (running : s.stopped = false) :
      Transition s (.push task)
        { s with queue := s.queue ++ [task], notifying := s.notifying + 1 }
  | pushStopped {task : τ} (stopped : s.stopped = true) : Transition s (.push task) s
  | notifyOne {w : Fin m} (pending : 0 < s.notifying)
      (waiting : (s.workers w).isWaiting = true) :
      Transition s (.notifyOne (some w))
        { s.goto w .woken with notifying := s.notifying - 1 }
  | notifyNobody (pending : 0 < s.notifying)
      (nobody : ∀ w, (s.workers w).isWaiting = false) :
      Transition s (.notifyOne none) { s with notifying := s.notifying - 1 }
  | wait {w : Fin m} (pc : (s.workers w).inPop = true) (empty : s.queue = [])
      (running : s.stopped = false) : Transition s (.pop w) (s.goto w .waiting)
  | leave {w : Fin m} (pc : (s.workers w).inPop = true) (empty : s.queue = [])
      (stopped : s.stopped = true) : Transition s (.pop w) (s.goto w .exited)
  | take {w : Fin m} {task : τ} {rest : List τ} (pc : (s.workers w).inPop = true)
      (queued : s.queue = task :: rest) :
      Transition s (.pop w) { s.goto w (.run task) with queue := rest }
  | run {w : Fin m} {task : τ} (pc : s.workers w = .run task) :
      Transition s (.run w) (s.goto w .pop)
  | spurious {w : Fin m} (waiting : (s.workers w).isWaiting = true) :
      Transition s (.spurious w) (s.goto w .woken)
  | stop : Transition s .stop { s with stopped := true, stopping := s.stopping + 1 }
  | notifyAll (pending : 0 < s.stopping) :
      Transition s .notifyAll { TaskQueue.notifyAll s with stopping := s.stopping - 1 }

theorem pop_cases {s : State m τ} {w : Fin m} (pc : (s.workers w).inPop = true) :
    Transition s (.pop w) (pop s w) := by
  cases hqueue : s.queue with
  | nil =>
      cases hstopped : s.stopped with
      | false =>
          rw [show pop s w = s.goto w .waiting by simp [pop, hqueue, hstopped]]
          exact .wait pc hqueue hstopped
      | true =>
          rw [show pop s w = s.goto w .exited by simp [pop, hqueue, hstopped]]
          exact .leave pc hqueue hstopped
  | cons task rest =>
      rw [show pop s w = { s.goto w (.run task) with queue := rest } by simp [pop, hqueue]]
      exact .take pc hqueue

theorem step_cases {s t : State m τ} {a : Action m τ} (h : step s a = some t) :
    Transition s a t := by
  cases a with
  | push task =>
      obtain rfl := Option.some.inj h
      cases hstopped : s.stopped with
      | false =>
          rw [push, if_neg (by simp [hstopped])]
          exact .push hstopped
      | true =>
          rw [push, if_pos hstopped]
          exact .pushStopped hstopped
  | notifyOne woken =>
      obtain ⟨hpending, h⟩ := Option.ite_none_right_eq_some.mp h
      cases woken with
      | some w =>
          obtain ⟨hwaiting, rfl⟩ := guarded_step h
          exact .notifyOne hpending hwaiting
      | none =>
          obtain ⟨hnobody, rfl⟩ := guarded_step h
          exact .notifyNobody hpending (by simpa using hnobody)
  | pop w =>
      obtain ⟨hpc, rfl⟩ := guarded_step h
      exact pop_cases hpc
  | run w =>
      simp only [step] at h
      split at h
      case h_1 task pc =>
          obtain rfl := Option.some.inj h
          exact .run pc
      case h_2 => cases h
  | spurious w =>
      obtain ⟨hwaiting, rfl⟩ := guarded_step h
      exact .spurious hwaiting
  | stop =>
      obtain rfl := Option.some.inj h
      exact .stop
  | notifyAll =>
      obtain ⟨hpending, rfl⟩ := guarded_step h
      exact .notifyAll hpending

/-- A worker that has left takes no step and is never woken. -/
theorem exited_of_transition {s t : State m τ} {a : Action m τ} {w : Fin m}
    (h : s.workers w = .exited) (htransition : Transition s a t) :
    t.workers w = .exited := by
  have hwaiting : ∀ {v : Fin m}, (s.workers v).isWaiting = true → s.workers v ≠ .exited := by
    intro v hv hexited
    simp [hexited, WorkerPc.isWaiting] at hv
  have hinPop : ∀ {v : Fin m}, (s.workers v).inPop = true → s.workers v ≠ .exited := by
    intro v hv hexited
    simp [hexited, WorkerPc.inPop] at hv
  cases htransition with
  | notifyOne _ waiting => exact update_eq_of_ne h (hwaiting waiting)
  | wait pc _ _ => exact update_eq_of_ne h (hinPop pc)
  | leave pc _ _ => exact update_eq_of_ne h (hinPop pc)
  | take pc _ => exact update_eq_of_ne h (hinPop pc)
  | run pc => exact update_eq_of_ne h (by simp [pc])
  | spurious waiting => exact update_eq_of_ne h (hwaiting waiting)
  | notifyAll _ => simp [notifyAll, h, WorkerPc.isWaiting]
  | _ => exact h

theorem flags_of_transition {s t : State m τ} {a : Action m τ}
    (own : a ≠ .stop ∧ a ≠ .notifyAll) (htransition : Transition s a t) :
    t.stopped = s.stopped ∧ t.stopping = s.stopping := by
  cases htransition with
  | stop => exact absurd rfl own.1
  | notifyAll _ => exact absurd rfl own.2
  | _ => exact ⟨rfl, rfl⟩

end Steps

end SkUtils.Concurrency.TaskQueue
