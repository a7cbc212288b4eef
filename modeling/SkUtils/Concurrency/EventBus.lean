import SkUtils.Concurrency.TaskQueue
import SkUtils.Library.PriorityQueues

/-!
`EventBus` of `event_manager.h`: `m` workers on its `TaskQueue`, the timer thread, calls
of `PublishDelayed` and `Stop`. Every access to shared memory is one action, and so is
a critical section of the worker queue.
-/

namespace SkUtils.Concurrency.EventBus

open SkUtils.Library.PriorityQueues
open SkUtils.Library.StrictWeakOrder
open SkUtils.Library.TransitionSystem

structure TimerTask (τ : Type) where
  timePoint : Nat
  task : τ

/-- `operator<` of `TimerTask`: the earliest task is the greatest. -/
def TimerTask.less {τ : Type} (a b : TimerTask τ) : Bool :=
  decide (b.timePoint < a.timePoint)

instance {τ : Type} : IsStrictWeakOrder (TimerTask τ) (RelOf TimerTask.less) where
  irrefl := fun a => by simp [RelOf, TimerTask.less]
  trans := fun a b c hab hbc => by
    simp only [RelOf, TimerTask.less, decide_eq_true_eq] at hab hbc ⊢
    omega
  incomp_trans := fun a b c hab hbc => by
    simp only [RelOf, TimerTask.less, decide_eq_true_eq] at hab hbc ⊢
    omega

/-- Where the timer thread stands in its loop: about to take the step that the name
says, `blocked` or `blockedUntil` in `timerCv_` with `timerMutex_` released, or `woken`
there and about to reacquire it. `wait_until` is given a reference to the time of the top,
which a push of `PublishDelayed` during the wait can move or free. It reads the time before it
gives the mutex up, and looks at the reference again only for what it returns, which the loop
does not use, so that `waitUntil` and `blockedUntil` hold the time itself. -/
inductive TimerPc (τ : Type)
  | testStop
  | lock
  | testEmpty
  | wait
  | blocked
  | testTop
  | waitUntil (timePoint : Nat)
  | blockedUntil (timePoint : Nat)
  | woken
  | run (task : τ)
  | exited

/-- The next step of `Stop` after its `exchange`. -/
inductive StopPc
  | notCalled
  | stopQueue
  | notifyWorkers
  | join (next : Nat)
  | notifyTimer
  | joinTimer
  | returned
  deriving DecidableEq

inductive TimerMutexHolder
  | timer
  | publisher
  deriving DecidableEq

/-- `publishers` are the calls of `PublishDelayed` that know their `runTime` and have
still to lock `timerMutex_`. -/
structure State (m : Nat) {τ : Type} (std : PriorityQueue (TimerTask τ) TimerTask.less) where
  now : Nat
  stop : Bool
  workerQueue : TaskQueue.State m τ
  timerQueue : std.Queue
  timerMutex : Option TimerMutexHolder
  timer : TimerPc τ
  publishers : List (TimerTask τ)
  stopping : StopPc

/-- `publish`, `publishLock` and `publishNotify` are a call of `PublishDelayed` up to its
lock, its push, and its notification and unlock. `queue` is a step of a worker or of a
call of `PublishAsync`. -/
inductive Action (m : Nat) (τ : Type)
  | tick (elapsed : Nat)
  | publish (delayMs : Nat) (event : τ)
  | publishLock (i : Nat)
  | publishNotify
  | queue (a : TaskQueue.Action m τ)
  | timer
  | timeout
  | spurious
  | stop

section Steps

variable {m : Nat} {τ : Type} {std : PriorityQueue (TimerTask τ) TimerTask.less}

def TimerPc.isWaiting : TimerPc τ → Bool
  | .blocked | .blockedUntil _ => true
  | _ => false

def isRunning : TaskQueue.WorkerPc τ → Bool
  | .run _ => true
  | _ => false

/-- Once `Stop` has been called only a callback that runs on a worker still publishes. -/
def CanPublish (s : State m std) : Prop :=
  s.stopping = .notCalled ∨ ∃ w, isRunning (s.workerQueue.workers w) = true

instance (s : State m std) : Decidable (CanPublish s) :=
  inferInstanceAs (Decidable (_ ∨ _))

/-- A notification of `timerCv_`, on which only the timer thread waits. -/
def notifyTimer (s : State m std) : State m std :=
  { s with timer := if s.timer.isWaiting then .woken else s.timer }

theorem notifyTimer_timer (s : State m std) :
    (notifyTimer s).timer = .woken ∨
      (s.timer ≠ .blocked ∧ (notifyTimer s).timer = s.timer) := by
  cases hwaiting : s.timer.isWaiting with
  | true => exact .inl (by simp [notifyTimer, hwaiting])
  | false =>
      refine .inr ⟨fun hpc => ?_, by simp [notifyTimer, hwaiting]⟩
      simp [hpc, TimerPc.isWaiting] at hwaiting

def publishLock (s : State m std) (i : Nat) : Option (State m std) :=
  match s.publishers[i]? with
  | some timerTask =>
      if s.timerMutex = none then
        some { s with
          timerMutex := some .publisher
          timerQueue := std.push s.timerQueue timerTask
          publishers := s.publishers.eraseIdx i }
      else none
  | none => none

def queue (s : State m std) (a : TaskQueue.Action m τ) : Option (State m std) :=
  match a with
  | .stop | .notifyAll => none
  | .push task =>
      if CanPublish s then
        some { s with workerQueue := TaskQueue.push s.workerQueue task }
      else none
  | a => (TaskQueue.step s.workerQueue a).map fun q => { s with workerQueue := q }

def timerLoop (s : State m std) : Option (State m std) :=
  match s.timer with
  | .testStop => some { s with timer := if s.stop then .exited else .lock }
  | .lock =>
      if s.timerMutex = none then
        some { s with timerMutex := some .timer, timer := .testEmpty }
      else none
  | .testEmpty =>
      some { s with timer := if std.size s.timerQueue = 0 then .wait else .testTop }
  | .wait => some { s with timerMutex := none, timer := .blocked }
  | .blocked => none
  | .testTop =>
      match std.top s.timerQueue with
      | none => none
      | some top =>
          if top.timePoint ≤ s.now then
            some { s with
              timerQueue := std.pop s.timerQueue
              timerMutex := none
              timer := .run top.task }
          else some { s with timer := .waitUntil top.timePoint }
  | .waitUntil timePoint =>
      some { s with timerMutex := none, timer := .blockedUntil timePoint }
  | .blockedUntil _ => none
  | .woken => if s.timerMutex = none then some { s with timer := .testStop } else none
  | .run task =>
      some { s with workerQueue := TaskQueue.push s.workerQueue task, timer := .testStop }
  | .exited => none

def Stop (s : State m std) : Option (State m std) :=
  match s.stopping with
  | .notCalled => some { s with stop := true, stopping := .stopQueue }
  | .stopQueue =>
      (TaskQueue.step s.workerQueue .stop).map fun q =>
        { s with workerQueue := q, stopping := .notifyWorkers }
  | .notifyWorkers =>
      (TaskQueue.step s.workerQueue .notifyAll).map fun q =>
        { s with workerQueue := q, stopping := .join 0 }
  | .join i =>
      if h : i < m then
        match s.workerQueue.workers ⟨i, h⟩ with
        | .exited => some { s with stopping := .join (i + 1) }
        | _ => none
      else some { s with stopping := .notifyTimer }
  | .notifyTimer => some { notifyTimer s with stopping := .joinTimer }
  | .joinTimer =>
      match s.timer with
      | .exited => some { s with stopping := .returned }
      | _ => none
  | .returned => none

def step (s : State m std) : Action m τ → Option (State m std)
  | .tick elapsed => some { s with now := s.now + elapsed }
  | .publish delayMs event =>
      if CanPublish s then
        some { s with publishers := s.publishers ++ [⟨s.now + delayMs, event⟩] }
      else none
  | .publishLock i => publishLock s i
  | .publishNotify =>
      if s.timerMutex = some .publisher then
        some { notifyTimer s with timerMutex := none }
      else none
  | .queue a => queue s a
  | .timer => timerLoop s
  | .timeout =>
      match s.timer with
      | .blockedUntil timePoint =>
          if timePoint ≤ s.now then some { s with timer := .woken } else none
      | _ => none
  | .spurious => if s.timer.isWaiting then some { s with timer := .woken } else none
  | .stop => Stop s

/-- `EventBus` once its constructor has started the threads. -/
def eventBus (m : Nat) (std : PriorityQueue (TimerTask τ) TimerTask.less) :
    System (State m std) (Action m τ) where
  init :=
    { now := 0
      stop := false
      workerQueue := (TaskQueue.taskQueue m τ).init
      timerQueue := std.empty
      timerMutex := none
      timer := .testStop
      publishers := []
      stopping := .notCalled }
  step := step

inductive TimerLoop (s : State m std) : State m std → Prop
  | leave (pc : s.timer = .testStop) (stopped : s.stop = true) :
      TimerLoop s { s with timer := .exited }
  | enter (pc : s.timer = .testStop) (running : s.stop = false) :
      TimerLoop s { s with timer := .lock }
  | acquire (pc : s.timer = .lock) (free : s.timerMutex = none) :
      TimerLoop s { s with timerMutex := some .timer, timer := .testEmpty }
  | seeEmpty (pc : s.timer = .testEmpty) (empty : std.size s.timerQueue = 0) :
      TimerLoop s { s with timer := .wait }
  | seeTask (pc : s.timer = .testEmpty) (nonempty : std.size s.timerQueue ≠ 0) :
      TimerLoop s { s with timer := .testTop }
  | block (pc : s.timer = .wait) :
      TimerLoop s { s with timerMutex := none, timer := .blocked }
  | take {top : TimerTask τ} (pc : s.timer = .testTop)
      (first : std.top s.timerQueue = some top) (due : top.timePoint ≤ s.now) :
      TimerLoop s { s with
        timerQueue := std.pop s.timerQueue
        timerMutex := none
        timer := .run top.task }
  | sleep {top : TimerTask τ} (pc : s.timer = .testTop)
      (first : std.top s.timerQueue = some top) (early : s.now < top.timePoint) :
      TimerLoop s { s with timer := .waitUntil top.timePoint }
  | blockUntil {timePoint : Nat} (pc : s.timer = .waitUntil timePoint) :
      TimerLoop s { s with timerMutex := none, timer := .blockedUntil timePoint }
  | reacquire (pc : s.timer = .woken) (free : s.timerMutex = none) :
      TimerLoop s { s with timer := .testStop }
  | run {task : τ} (pc : s.timer = .run task) :
      TimerLoop s { s with
        workerQueue := TaskQueue.push s.workerQueue task
        timer := .testStop }

theorem timerLoop_cases {s t : State m std} (h : timerLoop s = some t) : TimerLoop s t := by
  unfold timerLoop at h
  split at h
  case h_1 pc =>
      obtain rfl := Option.some.inj h
      by_cases hstop : s.stop = true
      · rw [if_pos hstop]
        exact .leave pc hstop
      · rw [if_neg hstop]
        exact .enter pc (Bool.not_eq_true _ ▸ hstop)
  case h_2 pc =>
      obtain ⟨hfree, rfl⟩ := guarded_step h
      exact .acquire pc hfree
  case h_3 pc =>
      obtain rfl := Option.some.inj h
      by_cases hempty : std.size s.timerQueue = 0
      · rw [if_pos hempty]
        exact .seeEmpty pc hempty
      · rw [if_neg hempty]
        exact .seeTask pc hempty
  case h_4 pc =>
      obtain rfl := Option.some.inj h
      exact .block pc
  case h_5 => cases h
  case h_6 pc =>
      split at h
      case h_1 => cases h
      case h_2 top htop =>
          split at h
          case isTrue hdue =>
              obtain rfl := Option.some.inj h
              exact .take pc htop hdue
          case isFalse hearly =>
              obtain rfl := Option.some.inj h
              exact .sleep pc htop (Nat.lt_of_not_le hearly)
  case h_7 timePoint pc =>
      obtain rfl := Option.some.inj h
      exact .blockUntil pc
  case h_8 => cases h
  case h_9 pc =>
      obtain ⟨hfree, rfl⟩ := guarded_step h
      exact .reacquire pc hfree
  case h_10 task pc =>
      obtain rfl := Option.some.inj h
      exact .run pc
  case h_11 => cases h

inductive Stopping (s : State m std) : State m std → Prop
  | exchange (pc : s.stopping = .notCalled) :
      Stopping s { s with stop := true, stopping := .stopQueue }
  | stopQueue {q : TaskQueue.State m τ} (pc : s.stopping = .stopQueue)
      (queue : TaskQueue.step s.workerQueue .stop = some q) :
      Stopping s { s with workerQueue := q, stopping := .notifyWorkers }
  | notifyWorkers {q : TaskQueue.State m τ} (pc : s.stopping = .notifyWorkers)
      (queue : TaskQueue.step s.workerQueue .notifyAll = some q) :
      Stopping s { s with workerQueue := q, stopping := .join 0 }
  | join {i : Nat} (pc : s.stopping = .join i) (hi : i < m)
      (exited : s.workerQueue.workers ⟨i, hi⟩ = .exited) :
      Stopping s { s with stopping := .join (i + 1) }
  | joined {i : Nat} (pc : s.stopping = .join i) (hi : m ≤ i) :
      Stopping s { s with stopping := .notifyTimer }
  | notifyTimer (pc : s.stopping = .notifyTimer) :
      Stopping s { EventBus.notifyTimer s with stopping := .joinTimer }
  | joinTimer (pc : s.stopping = .joinTimer) (exited : s.timer = .exited) :
      Stopping s { s with stopping := .returned }

theorem stop_cases {s t : State m std} (h : Stop s = some t) : Stopping s t := by
  unfold Stop at h
  split at h
  case h_1 pc =>
      obtain rfl := Option.some.inj h
      exact .exchange pc
  case h_2 pc =>
      obtain ⟨q, hq, rfl⟩ := Option.map_eq_some_iff.mp h
      exact .stopQueue pc hq
  case h_3 pc =>
      obtain ⟨q, hq, rfl⟩ := Option.map_eq_some_iff.mp h
      exact .notifyWorkers pc hq
  case h_4 i pc =>
      split at h
      case isTrue hi =>
          split at h
          case h_1 hexited =>
              obtain rfl := Option.some.inj h
              exact .join pc hi hexited
          case h_2 => cases h
      case isFalse hi =>
          obtain rfl := Option.some.inj h
          exact .joined pc (Nat.le_of_not_lt hi)
  case h_5 pc =>
      obtain rfl := Option.some.inj h
      exact .notifyTimer pc
  case h_6 pc =>
      split at h
      case h_1 hexited =>
          obtain rfl := Option.some.inj h
          exact .joinTimer pc hexited
      case h_2 => cases h
  case h_7 => cases h

inductive Transition (s : State m std) : Action m τ → State m std → Prop
  | tick {elapsed : Nat} : Transition s (.tick elapsed) { s with now := s.now + elapsed }
  | publish {delayMs : Nat} {event : τ} (alive : CanPublish s) :
      Transition s (.publish delayMs event)
        { s with publishers := s.publishers ++ [⟨s.now + delayMs, event⟩] }
  | publishLock {i : Nat} {timerTask : TimerTask τ}
      (pending : s.publishers[i]? = some timerTask) (free : s.timerMutex = none) :
      Transition s (.publishLock i)
        { s with
          timerMutex := some .publisher
          timerQueue := std.push s.timerQueue timerTask
          publishers := s.publishers.eraseIdx i }
  | publishNotify (held : s.timerMutex = some .publisher) :
      Transition s .publishNotify { notifyTimer s with timerMutex := none }
  | queue {a : TaskQueue.Action m τ} {q : TaskQueue.State m τ}
      (own : a ≠ .stop ∧ a ≠ .notifyAll) (alive : ∀ task, a = .push task → CanPublish s)
      (queue : TaskQueue.step s.workerQueue a = some q) :
      Transition s (.queue a) { s with workerQueue := q }
  | timer {t : State m std} (loop : TimerLoop s t) : Transition s .timer t
  | timeout {timePoint : Nat} (pc : s.timer = .blockedUntil timePoint)
      (due : timePoint ≤ s.now) : Transition s .timeout { s with timer := .woken }
  | spurious (waiting : s.timer.isWaiting = true) :
      Transition s .spurious { s with timer := .woken }
  | stop {t : State m std} (stopping : Stopping s t) : Transition s .stop t

theorem queue_cases {s t : State m std} {a : TaskQueue.Action m τ}
    (h : queue s a = some t) : Transition s (.queue a) t := by
  unfold queue at h
  split at h
  case h_1 => cases h
  case h_2 => cases h
  case h_3 task =>
      obtain ⟨halive, rfl⟩ := guarded_step h
      exact .queue ⟨by simp, by simp⟩ (fun _ _ => halive) rfl
  case h_4 hstop hnotify hpush =>
      obtain ⟨q, hq, rfl⟩ := Option.map_eq_some_iff.mp h
      exact .queue ⟨hstop, hnotify⟩ (fun task ha => (hpush task ha).elim) hq

theorem step_cases {s t : State m std} {a : Action m τ} (h : step s a = some t) :
    Transition s a t := by
  cases a with
  | tick elapsed =>
      obtain rfl := Option.some.inj h
      exact .tick
  | publish delayMs event =>
      obtain ⟨halive, rfl⟩ := guarded_step h
      exact .publish halive
  | publishLock i =>
      simp only [step, publishLock] at h
      split at h
      case h_1 timerTask hpending =>
          obtain ⟨hfree, rfl⟩ := guarded_step h
          exact .publishLock hpending hfree
      case h_2 => cases h
  | publishNotify =>
      obtain ⟨hheld, rfl⟩ := guarded_step h
      exact .publishNotify hheld
  | queue a => exact queue_cases h
  | timer => exact .timer (timerLoop_cases h)
  | timeout =>
      simp only [step] at h
      split at h
      case h_1 timePoint pc =>
          obtain ⟨hdue, rfl⟩ := guarded_step h
          exact .timeout pc hdue
      case h_2 => cases h
  | spurious =>
      obtain ⟨hwaiting, rfl⟩ := guarded_step h
      exact .spurious hwaiting
  | stop => exact .stop (stop_cases h)

theorem TimerLoop.stopping_eq {s t : State m std} (h : TimerLoop s t) :
    t.stopping = s.stopping := by
  cases h <;> rfl

/-- The worker queue of an `EventBus` is a `TaskQueue`: what the rest of it does to
the queue are pushes and the two halves of `Stop`. -/
theorem workerQueue_transition {s t : State m std} {a : Action m τ}
    (h : Transition s a t) :
    ∃ bs, exec (TaskQueue.taskQueue m τ) s.workerQueue bs = some t.workerQueue := by
  have hone : ∀ {b : TaskQueue.Action m τ} {q : TaskQueue.State m τ},
      TaskQueue.step s.workerQueue b = some q →
        ∃ bs, exec (TaskQueue.taskQueue m τ) s.workerQueue bs = some q :=
    fun hstep => ⟨[_], exec_singleton hstep⟩
  cases h with
  | queue _ _ hstep => exact hone hstep
  | timer loop =>
      cases loop with
      | @run task _ => exact hone (b := .push task) rfl
      | _ => exact ⟨[], rfl⟩
  | stop stopping =>
      cases stopping with
      | stopQueue _ hstep => exact hone hstep
      | notifyWorkers _ hstep => exact hone hstep
      | _ => exact ⟨[], rfl⟩
  | _ => exact ⟨[], rfl⟩

theorem reachable_workerQueue {s : State m std} (h : Reachable (eventBus m std) s) :
    Reachable (TaskQueue.taskQueue m τ) s.workerQueue :=
  h.simulate State.workerQueue ⟨[], .start⟩
    fun _ _ _ _ hstep => workerQueue_transition (step_cases hstep)

end Steps

end SkUtils.Concurrency.EventBus
