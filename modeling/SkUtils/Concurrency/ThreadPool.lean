import SkUtils.Library.Processes
import SkUtils.Library.TransitionSystem

/-!
`ThreadPool` of `threadpool.h` with `n` workers and tasks of type `τ`. Every
access to shared memory is one action: a critical section of `WorkQueue` (which
has a mutex of its own), an acquisition or release of `mtx_`, a read or write of
`isRunning_`, and a notification of `cv_`.
-/

namespace SkUtils.Concurrency.ThreadPool

open SkUtils.Library.Processes
open SkUtils.Library.TransitionSystem

/-- Where a worker stands in `doWork`: about to take the step that the name says,
`blocked` in `cv_.wait` with `mtx_` released, or `woken` there and about to
reacquire it. From `testEmpty` to `wait`, and from `pop` to `unlock`, the worker
holds `mtx_`. -/
inductive WorkerPc (τ : Type*)
  | testRunning
  | lock
  | testEmpty
  | wait
  | blocked
  | woken
  | pop
  | unlock (taskOpt : Option τ)
  | invoke (task : τ)
  | exited

/-- The next step of `shutdown`: store `isRunning_`, notify, or join a worker. -/
inductive ShutdownPc
  | notCalled
  | notifyAll
  | join (next : Nat)
  deriving DecidableEq

/-- `mtx` is the holder of `mtx_`, and `submitting` counts the calls of `submit`
between their push and their `notify_one`. -/
structure State (n : Nat) (τ : Type*) where
  mtx : Option (Fin n)
  isRunning : Bool
  workQueue : List τ
  workers : Fin n → WorkerPc τ
  submitting : Nat
  shutdown : ShutdownPc

/-- `push` and `notifyOne` are the two halves of `submit`, the second with the
worker it wakes; `work` and `shutdown` are the next step of a worker and of the
destroying thread; `spurious` is a spurious wakeup. -/
inductive Action (n : Nat) (τ : Type*)
  | push (task : τ)
  | notifyOne (woken : Option (Fin n))
  | work (w : Fin n)
  | spurious (w : Fin n)
  | shutdown

section Steps

variable {n : Nat} {τ : Type*}

def State.goto (s : State n τ) (w : Fin n) (pc : WorkerPc τ) : State n τ :=
  { s with workers := Function.update s.workers w pc }

@[simp] theorem State.goto_workers (s : State n τ) (w : Fin n) (pc : WorkerPc τ) :
    (s.goto w pc).workers = Function.update s.workers w pc := rfl

@[simp] theorem State.goto_workQueue (s : State n τ) (w : Fin n) (pc : WorkerPc τ) :
    (s.goto w pc).workQueue = s.workQueue := rfl

def WorkerPc.isBlocked : WorkerPc τ → Bool
  | .blocked => true
  | _ => false

def WorkerPc.isInvoking : WorkerPc τ → Bool
  | .invoke _ => true
  | _ => false

def WorkerPc.isExited : WorkerPc τ → Bool
  | .exited => true
  | _ => false

def WorkerPc.holdsLock : WorkerPc τ → Bool
  | .testEmpty | .wait | .pop | .unlock _ => true
  | _ => false

theorem eq_blocked_of_isBlocked {pc : WorkerPc τ} (h : pc.isBlocked = true) :
    pc = .blocked := by
  cases pc <;> simp_all [WorkerPc.isBlocked]

theorem eq_invoke_of_isInvoking {pc : WorkerPc τ} (h : pc.isInvoking = true) :
    ∃ task, pc = .invoke task := by
  cases pc <;> simp_all [WorkerPc.isInvoking]

theorem eq_exited_of_isExited {pc : WorkerPc τ} (h : pc.isExited = true) :
    pc = .exited := by
  cases pc <;> simp_all [WorkerPc.isExited]

def doWork (s : State n τ) (w : Fin n) : Option (State n τ) :=
  match s.workers w with
  | .testRunning => some (s.goto w (if s.isRunning then .lock else .exited))
  | .lock =>
      if s.mtx = none then some { s.goto w .testEmpty with mtx := some w } else none
  | .testEmpty => some (s.goto w (if s.workQueue.isEmpty then .wait else .pop))
  | .wait => some { s.goto w .blocked with mtx := none }
  | .blocked => none
  | .woken =>
      if s.mtx = none then some { s.goto w .pop with mtx := some w } else none
  | .pop =>
      some { s.goto w (.unlock s.workQueue.head?) with workQueue := s.workQueue.tail }
  | .unlock none => some { s.goto w .testRunning with mtx := none }
  | .unlock (some task) => some { s.goto w (.invoke task) with mtx := none }
  | .invoke _ => some (s.goto w .testRunning)
  | .exited => none

/-- `submit` up to its push. Once `shutdown` has been called only a task that is
running on a worker can still submit. -/
def push (s : State n τ) (task : τ) : Option (State n τ) :=
  if s.shutdown = .notCalled ∨ ∃ w, (s.workers w).isInvoking then
    some { s with
      workQueue := s.workQueue ++ [task]
      submitting := s.submitting + 1 }
  else none

/-- `cv_.notify_one()` wakes one blocked worker, and none only when no worker
is blocked. -/
def notifyOne (s : State n τ) : Option (Fin n) → Option (State n τ)
  | some w => if (s.workers w).isBlocked then some (s.goto w .woken) else none
  | none => if ∀ w, !(s.workers w).isBlocked then some s else none

def notifyAll (s : State n τ) : State n τ :=
  { s with workers := fun w =>
      if (s.workers w).isBlocked then .woken else s.workers w }

theorem notifyAll_workers (s : State n τ) (w : Fin n) :
    (s.workers w = .blocked ∧ (notifyAll s).workers w = .woken) ∨
      (s.workers w ≠ .blocked ∧ (notifyAll s).workers w = s.workers w) := by
  cases hblocked : (s.workers w).isBlocked with
  | true => exact .inl ⟨eq_blocked_of_isBlocked hblocked, by simp [notifyAll, hblocked]⟩
  | false =>
      refine .inr ⟨fun hpc => ?_, by simp [notifyAll, hblocked]⟩
      simp [hpc, WorkerPc.isBlocked] at hblocked

def shutdown (s : State n τ) : Option (State n τ) :=
  match s.shutdown with
  | .notCalled => some { s with isRunning := false, shutdown := .notifyAll }
  | .notifyAll => some { notifyAll s with shutdown := .join 0 }
  | .join i =>
      if h : i < n then
        if (s.workers ⟨i, h⟩).isExited then some { s with shutdown := .join (i + 1) }
        else none
      else none

def step (s : State n τ) : Action n τ → Option (State n τ)
  | .push task => push s task
  | .notifyOne woken =>
      if 0 < s.submitting then
        notifyOne { s with submitting := s.submitting - 1 } woken
      else none
  | .work w => doWork s w
  | .spurious w => if (s.workers w).isBlocked then some (s.goto w .woken) else none
  | .shutdown => shutdown s

/-- `ThreadPool(n)` once its constructor has started the workers. -/
def pool (n : Nat) (τ : Type*) : System (State n τ) (Action n τ) where
  init :=
    { mtx := none
      isRunning := true
      workQueue := []
      workers := fun _ => .testRunning
      submitting := 0
      shutdown := .notCalled }
  step := step

inductive Work (s : State n τ) (w : Fin n) : State n τ → Prop
  | enter (pc : s.workers w = .testRunning) (running : s.isRunning = true) :
      Work s w (s.goto w .lock)
  | leave (pc : s.workers w = .testRunning) (stopped : s.isRunning = false) :
      Work s w (s.goto w .exited)
  | acquire (pc : s.workers w = .lock) (free : s.mtx = none) :
      Work s w { s.goto w .testEmpty with mtx := some w }
  | seeEmpty (pc : s.workers w = .testEmpty) (empty : s.workQueue = []) :
      Work s w (s.goto w .wait)
  | seeTask (pc : s.workers w = .testEmpty) (nonempty : s.workQueue ≠ []) :
      Work s w (s.goto w .pop)
  | block (pc : s.workers w = .wait) :
      Work s w { s.goto w .blocked with mtx := none }
  | reacquire (pc : s.workers w = .woken) (free : s.mtx = none) :
      Work s w { s.goto w .pop with mtx := some w }
  | pop (pc : s.workers w = .pop) :
      Work s w
        { s.goto w (.unlock s.workQueue.head?) with workQueue := s.workQueue.tail }
  | retry (pc : s.workers w = .unlock none) :
      Work s w { s.goto w .testRunning with mtx := none }
  | start {task : τ} (pc : s.workers w = .unlock (some task)) :
      Work s w { s.goto w (.invoke task) with mtx := none }
  | finish {task : τ} (pc : s.workers w = .invoke task) :
      Work s w (s.goto w .testRunning)

theorem doWork_cases {s t : State n τ} {w : Fin n} (h : doWork s w = some t) :
    Work s w t := by
  unfold doWork at h
  split at h
  case h_1 pc =>
      cases hrun : s.isRunning with
      | false =>
          obtain rfl : s.goto w .exited = t := by simpa [hrun] using h
          exact .leave pc hrun
      | true =>
          obtain rfl : s.goto w .lock = t := by simpa [hrun] using h
          exact .enter pc hrun
  case h_2 pc =>
      split at h
      · obtain rfl := Option.some.inj h
        exact .acquire pc ‹_›
      · cases h
  case h_3 pc =>
      obtain rfl := Option.some.inj h
      split
      · exact .seeEmpty pc (List.isEmpty_iff.mp ‹_›)
      · exact .seeTask pc fun hnil => ‹¬ _› (List.isEmpty_iff.mpr hnil)
  case h_4 pc =>
      obtain rfl := Option.some.inj h
      exact .block pc
  case h_5 => cases h
  case h_6 pc =>
      split at h
      · obtain rfl := Option.some.inj h
        exact .reacquire pc ‹_›
      · cases h
  case h_7 pc =>
      obtain rfl := Option.some.inj h
      exact .pop pc
  case h_8 pc =>
      obtain rfl := Option.some.inj h
      exact .retry pc
  case h_9 task pc =>
      obtain rfl := Option.some.inj h
      exact .start pc
  case h_10 task pc =>
      obtain rfl := Option.some.inj h
      exact .finish pc
  case h_11 => cases h

/-- A step of a worker moves this worker only, and is never the step of one that
is blocked or has exited. -/
theorem Work.moves {s t : State n τ} {w : Fin n} (h : Work s w t) :
    (∃ pc, t.workers = Function.update s.workers w pc) ∧
      s.workers w ≠ .blocked ∧ s.workers w ≠ .exited := by
  cases h <;> exact ⟨⟨_, rfl⟩, by simp [*], by simp [*]⟩

theorem Work.shutdown_eq {s t : State n τ} {w : Fin n} (h : Work s w t) :
    t.shutdown = s.shutdown := by
  cases h <;> rfl

theorem Work.isRunning_eq {s t : State n τ} {w : Fin n} (h : Work s w t) :
    t.isRunning = s.isRunning := by
  cases h <;> rfl

theorem Work.submitting_eq {s t : State n τ} {w : Fin n} (h : Work s w t) :
    t.submitting = s.submitting := by
  cases h <;> rfl

inductive Transition (s : State n τ) : Action n τ → State n τ → Prop
  | push {task : τ}
      (alive : s.shutdown = .notCalled ∨ ∃ w, (s.workers w).isInvoking = true) :
      Transition s (.push task)
        { s with workQueue := s.workQueue ++ [task], submitting := s.submitting + 1 }
  | notifyOne {w : Fin n} (pending : 0 < s.submitting)
      (blocked : (s.workers w).isBlocked = true) :
      Transition s (.notifyOne (some w))
        { s.goto w .woken with submitting := s.submitting - 1 }
  | notifyNobody (pending : 0 < s.submitting)
      (nobody : ∀ w, (s.workers w).isBlocked = false) :
      Transition s (.notifyOne none) { s with submitting := s.submitting - 1 }
  | work {w : Fin n} {t : State n τ} (work : Work s w t) : Transition s (.work w) t
  | spurious {w : Fin n} (blocked : (s.workers w).isBlocked = true) :
      Transition s (.spurious w) (s.goto w .woken)
  | stop (pc : s.shutdown = .notCalled) :
      Transition s .shutdown { s with isRunning := false, shutdown := .notifyAll }
  | notifyAll (pc : s.shutdown = .notifyAll) :
      Transition s .shutdown { ThreadPool.notifyAll s with shutdown := .join 0 }
  | join {i : Nat} (pc : s.shutdown = .join i) (hi : i < n)
      (exited : (s.workers ⟨i, hi⟩).isExited = true) :
      Transition s .shutdown { s with shutdown := .join (i + 1) }

theorem shutdown_cases {s t : State n τ} (h : shutdown s = some t) :
    Transition s .shutdown t := by
  unfold shutdown at h
  split at h
  case h_1 pc =>
      obtain rfl := Option.some.inj h
      exact .stop pc
  case h_2 pc =>
      obtain rfl := Option.some.inj h
      exact .notifyAll pc
  case h_3 i pc =>
      obtain ⟨hi, h⟩ := Option.dite_none_right_eq_some.mp h
      obtain ⟨hexited, rfl⟩ := guarded_step h
      exact .join pc hi hexited

theorem step_cases {s t : State n τ} {a : Action n τ} (h : step s a = some t) :
    Transition s a t := by
  cases a with
  | push task =>
      obtain ⟨halive, rfl⟩ := guarded_step h
      exact .push halive
  | notifyOne woken =>
      obtain ⟨hpending, h⟩ := Option.ite_none_right_eq_some.mp h
      cases woken with
      | some w =>
          obtain ⟨hblocked, rfl⟩ := guarded_step h
          exact .notifyOne hpending hblocked
      | none =>
          obtain ⟨hnobody, rfl⟩ := guarded_step h
          exact .notifyNobody hpending (by simpa using hnobody)
  | work w => exact .work (doWork_cases h)
  | spurious w =>
      obtain ⟨hblocked, rfl⟩ := guarded_step h
      exact .spurious hblocked
  | shutdown => exact shutdown_cases h

/-- A worker that has exited takes no step and is never woken. -/
theorem exited_of_transition {s t : State n τ} {a : Action n τ} {w : Fin n}
    (h : s.workers w = .exited) (htransition : Transition s a t) :
    t.workers w = .exited := by
  cases htransition with
  | notifyOne _ blocked => exact update_eq_of_ne h (by simp [eq_blocked_of_isBlocked blocked])
  | spurious blocked => exact update_eq_of_ne h (by simp [eq_blocked_of_isBlocked blocked])
  | work hwork =>
      obtain ⟨⟨pc, hworkers⟩, -, hnot⟩ := hwork.moves
      rw [hworkers]
      exact update_eq_of_ne h hnot
  | notifyAll _ => simp [ThreadPool.notifyAll, h, WorkerPc.isBlocked]
  | _ => exact h

/-- `mtx_` is held by every worker that stands in its critical section. Two
workers are therefore never in it together. -/
def LockHeld (s : State n τ) : Prop :=
  ∀ w, (s.workers w).holdsLock = true → s.mtx = some w

theorem LockHeld.goto {s : State n τ} (h : LockHeld s) {w : Fin n} {pc : WorkerPc τ}
    (hpc : pc.holdsLock = true → (s.workers w).holdsLock = true) :
    LockHeld (s.goto w pc) := by
  intro v hv
  exact h v (of_update (P := fun pc : WorkerPc τ => pc.holdsLock = true) hpc v hv)

theorem LockHeld.acquire {s : State n τ} (h : LockHeld s) (free : s.mtx = none)
    (w : Fin n) (pc : WorkerPc τ) :
    LockHeld { s.goto w pc with mtx := some w } := by
  intro v hv
  by_cases hvw : v = w
  · rw [hvw]
  · have hheld := h v (by simpa [Function.update_of_ne hvw] using hv)
    simp [free] at hheld

theorem LockHeld.release {s : State n τ} (h : LockHeld s) {w : Fin n}
    {pc : WorkerPc τ} (hw : (s.workers w).holdsLock = true)
    (hpc : pc.holdsLock = false) :
    LockHeld { s.goto w pc with mtx := none } := by
  intro v hv
  by_cases hvw : v = w
  · subst v
    simp [hpc] at hv
  · have hheld := h v (by simpa [Function.update_of_ne hvw] using hv)
    have hboth : v = w := Option.some.inj (hheld.symm.trans (h w hw))
    exact absurd hboth hvw

theorem LockHeld.work {s t : State n τ} {w : Fin n} (h : LockHeld s)
    (hwork : Work s w t) : LockHeld t := by
  cases hwork with
  | enter _ _ => exact h.goto (by simp [WorkerPc.holdsLock])
  | leave _ _ => exact h.goto (by simp [WorkerPc.holdsLock])
  | acquire _ free => exact h.acquire free w _
  | seeEmpty pc _ => exact h.goto (by simp [pc, WorkerPc.holdsLock])
  | seeTask pc _ => exact h.goto (by simp [pc, WorkerPc.holdsLock])
  | block pc => exact h.release (by simp [pc, WorkerPc.holdsLock]) rfl
  | reacquire _ free => exact h.acquire free w _
  | pop pc => exact h.goto (by simp [pc, WorkerPc.holdsLock])
  | retry pc => exact h.release (by simp [pc, WorkerPc.holdsLock]) rfl
  | start pc => exact h.release (by simp [pc, WorkerPc.holdsLock]) rfl
  | finish _ => exact h.goto (by simp [WorkerPc.holdsLock])

theorem LockHeld.notifyAll {s : State n τ} (h : LockHeld s) :
    LockHeld (notifyAll s) := by
  intro w hw
  rcases notifyAll_workers s w with ⟨-, hwoken⟩ | ⟨-, hsame⟩
  · simp [hwoken, WorkerPc.holdsLock] at hw
  · exact h w (hsame ▸ hw)

theorem LockHeld.transition {s t : State n τ} {a : Action n τ} (h : LockHeld s)
    (htransition : Transition s a t) : LockHeld t := by
  cases htransition with
  | push _ => exact h
  | notifyOne _ _ => exact h.goto (by simp [WorkerPc.holdsLock])
  | notifyNobody _ _ => exact h
  | work hwork => exact h.work hwork
  | spurious _ => exact h.goto (by simp [WorkerPc.holdsLock])
  | stop _ => exact h
  | notifyAll _ => exact h.notifyAll
  | join _ _ _ => exact h

end Steps

end SkUtils.Concurrency.ThreadPool
