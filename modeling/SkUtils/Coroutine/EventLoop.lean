import SkUtils.Library.TransitionSystem

/-!
`EventLoop` of `event_loop.h`: one thread that calls `run`, again after it has returned,
and any number of other threads that call `post` and `stop`. A critical section of `mtx_`
is one action, and so is every access to `running_` outside of it.
-/

namespace SkUtils.Coroutine.EventLoop

open SkUtils.Library.TransitionSystem

/-- A `std::function<void()>`, possibly empty. -/
abbrev Task (τ : Type) := Option τ

/-- The next step of the thread that calls `run`: `blocked` in `cv_.wait` with `mtx_`
released, `woken` there, `inTask` while `task()` runs, and `inTaskNotify` while `task()`
is in a call of `post` or `stop` that has still to notify. -/
inductive LoopPc
  | notCalled
  | storeRunning
  | testRunning
  | wait
  | blocked
  | woken
  | testLocal
  | inTask
  | inTaskNotify
  | popLocal
  | returned
  deriving DecidableEq

/-- `batch` is the queue `local` of `run`. Of the calls of `post` and `stop` by other
threads, `posting` and `stopping` count those that have still to notify and `stopped`
those of `stop` that have returned. -/
structure State (τ : Type) where
  queue : List (Task τ)
  running : Bool
  batch : List (Task τ)
  loop : LoopPc
  posting : Nat
  stopping : Nat
  stopped : Nat

/-- `loop` is a step of `run`, and the three actions after it are calls that a task
makes while it runs. -/
inductive Action (τ : Type)
  | run
  | loop
  | taskPost (task : Task τ)
  | taskStop
  | taskNotify
  | post (task : Task τ)
  | postNotify
  | stop
  | stopNotify
  | spurious

section Steps

variable {τ : Type}

/-- `cv_.notify_one()`. Only the thread in `run` waits on `cv_`. -/
def notifyOne (s : State τ) : State τ :=
  { s with loop := if s.loop = .blocked then .woken else s.loop }

def runLoop (s : State τ) : Option (State τ) :=
  match s.loop with
  | .storeRunning => some { s with running := true, loop := .testRunning }
  | .testRunning =>
      if s.running then some { s with batch := [], loop := .wait }
      else some { s with loop := .returned }
  | .wait | .woken =>
      if !s.queue.isEmpty || !s.running then
        some { s with batch := s.queue, queue := s.batch, loop := .testLocal }
      else some { s with loop := .blocked }
  | .testLocal =>
      match s.batch with
      | [] => some { s with loop := .testRunning }
      | none :: _ => some { s with loop := .popLocal }
      | some _ :: _ => some { s with loop := .inTask }
  | .inTask => some { s with loop := .popLocal }
  | .popLocal => some { s with batch := s.batch.tail, loop := .testLocal }
  | .notCalled | .blocked | .inTaskNotify | .returned => none

def step (s : State τ) : Action τ → Option (State τ)
  | .run =>
      if s.loop = .notCalled ∨ s.loop = .returned then
        some { s with loop := .storeRunning }
      else none
  | .loop => runLoop s
  | .taskPost task =>
      if s.loop = .inTask then
        some { s with queue := s.queue ++ [task], loop := .inTaskNotify }
      else none
  | .taskStop =>
      if s.loop = .inTask then some { s with running := false, loop := .inTaskNotify }
      else none
  | .taskNotify =>
      if s.loop = .inTaskNotify then some { notifyOne s with loop := .inTask } else none
  | .post task => some { s with queue := s.queue ++ [task], posting := s.posting + 1 }
  | .postNotify =>
      if 0 < s.posting then some { notifyOne s with posting := s.posting - 1 } else none
  | .stop => some { s with running := false, stopping := s.stopping + 1 }
  | .stopNotify =>
      if 0 < s.stopping then
        some { notifyOne s with stopping := s.stopping - 1, stopped := s.stopped + 1 }
      else none
  | .spurious => if s.loop = .blocked then some { s with loop := .woken } else none

def eventLoop (τ : Type) : System (State τ) (Action τ) where
  init :=
    { queue := []
      running := false
      batch := []
      loop := .notCalled
      posting := 0
      stopping := 0
      stopped := 0 }
  step := step

inductive RunLoop (s : State τ) : State τ → Prop
  | storeRunning (pc : s.loop = .storeRunning) :
      RunLoop s { s with running := true, loop := .testRunning }
  | enter (pc : s.loop = .testRunning) (running : s.running = true) :
      RunLoop s { s with batch := [], loop := .wait }
  | leave (pc : s.loop = .testRunning) (stopped : s.running = false) :
      RunLoop s { s with loop := .returned }
  | swap (pc : s.loop = .wait ∨ s.loop = .woken) (ready : s.queue ≠ [] ∨ s.running = false) :
      RunLoop s { s with batch := s.queue, queue := s.batch, loop := .testLocal }
  | block (pc : s.loop = .wait ∨ s.loop = .woken) (empty : s.queue = [])
      (running : s.running = true) : RunLoop s { s with loop := .blocked }
  | drained (pc : s.loop = .testLocal) (empty : s.batch = []) :
      RunLoop s { s with loop := .testRunning }
  | skip {rest : List (Task τ)} (pc : s.loop = .testLocal) (front : s.batch = none :: rest) :
      RunLoop s { s with loop := .popLocal }
  | call {task : τ} {rest : List (Task τ)} (pc : s.loop = .testLocal)
      (front : s.batch = some task :: rest) : RunLoop s { s with loop := .inTask }
  | taskReturn (pc : s.loop = .inTask) : RunLoop s { s with loop := .popLocal }
  | pop (pc : s.loop = .popLocal) :
      RunLoop s { s with batch := s.batch.tail, loop := .testLocal }

theorem runLoop_wait {s t : State τ} (pc : s.loop = .wait ∨ s.loop = .woken)
    (h : (if !s.queue.isEmpty || !s.running then
        some { s with batch := s.queue, queue := s.batch, loop := .testLocal }
      else some { s with loop := .blocked }) = some t) : RunLoop s t := by
  split at h
  case isTrue hready =>
      obtain rfl := Option.some.inj h
      exact .swap pc (by simpa using hready)
  case isFalse hready =>
      obtain rfl := Option.some.inj h
      have hblocked : s.queue = [] ∧ s.running = true := by simpa using hready
      exact .block pc hblocked.1 hblocked.2

theorem runLoop_cases {s t : State τ} (h : runLoop s = some t) : RunLoop s t := by
  cases pc : s.loop with
  | storeRunning =>
      simp only [runLoop, pc] at h
      obtain rfl := Option.some.inj h
      exact .storeRunning pc
  | testRunning =>
      simp only [runLoop, pc] at h
      split at h
      case isTrue hrunning =>
          obtain rfl := Option.some.inj h
          exact .enter pc hrunning
      case isFalse hstopped =>
          obtain rfl := Option.some.inj h
          exact .leave pc (Bool.not_eq_true _ ▸ hstopped)
  | wait =>
      simp only [runLoop, pc] at h
      exact runLoop_wait (.inl pc) h
  | woken =>
      simp only [runLoop, pc] at h
      exact runLoop_wait (.inr pc) h
  | testLocal =>
      simp only [runLoop, pc] at h
      split at h
      case h_1 hempty =>
          obtain rfl := Option.some.inj h
          exact .drained pc hempty
      case h_2 rest hfront =>
          obtain rfl := Option.some.inj h
          exact .skip pc hfront
      case h_3 task rest hfront =>
          obtain rfl := Option.some.inj h
          exact .call pc hfront
  | inTask =>
      simp only [runLoop, pc] at h
      obtain rfl := Option.some.inj h
      exact .taskReturn pc
  | popLocal =>
      simp only [runLoop, pc] at h
      obtain rfl := Option.some.inj h
      exact .pop pc
  | _ => simp [runLoop, pc] at h

inductive Transition (s : State τ) : Action τ → State τ → Prop
  | run (pc : s.loop = .notCalled ∨ s.loop = .returned) :
      Transition s .run { s with loop := .storeRunning }
  | loop {t : State τ} (loop : RunLoop s t) : Transition s .loop t
  | taskPost {task : Task τ} (pc : s.loop = .inTask) :
      Transition s (.taskPost task)
        { s with queue := s.queue ++ [task], loop := .inTaskNotify }
  | taskStop (pc : s.loop = .inTask) :
      Transition s .taskStop { s with running := false, loop := .inTaskNotify }
  | taskNotify (pc : s.loop = .inTaskNotify) :
      Transition s .taskNotify { s with loop := .inTask }
  | post {task : Task τ} :
      Transition s (.post task)
        { s with queue := s.queue ++ [task], posting := s.posting + 1 }
  | postNotify (pending : 0 < s.posting) :
      Transition s .postNotify { notifyOne s with posting := s.posting - 1 }
  | stop : Transition s .stop { s with running := false, stopping := s.stopping + 1 }
  | stopNotify (pending : 0 < s.stopping) :
      Transition s .stopNotify
        { notifyOne s with stopping := s.stopping - 1, stopped := s.stopped + 1 }
  | spurious (pc : s.loop = .blocked) : Transition s .spurious { s with loop := .woken }

theorem step_cases {s t : State τ} {a : Action τ} (h : step s a = some t) :
    Transition s a t := by
  cases a with
  | run =>
      obtain ⟨hpc, rfl⟩ := guarded_step h
      exact .run hpc
  | loop => exact .loop (runLoop_cases h)
  | taskPost task =>
      obtain ⟨hpc, rfl⟩ := guarded_step h
      exact .taskPost hpc
  | taskStop =>
      obtain ⟨hpc, rfl⟩ := guarded_step h
      exact .taskStop hpc
  | taskNotify =>
      obtain ⟨hpc, rfl⟩ := guarded_step h
      exact .taskNotify hpc
  | post task =>
      obtain rfl := Option.some.inj h
      exact .post
  | postNotify =>
      obtain ⟨hpending, rfl⟩ := guarded_step h
      exact .postNotify hpending
  | stop =>
      obtain rfl := Option.some.inj h
      exact .stop
  | stopNotify =>
      obtain ⟨hpending, rfl⟩ := guarded_step h
      exact .stopNotify hpending
  | spurious =>
      obtain ⟨hpc, rfl⟩ := guarded_step h
      exact .spurious hpc

end Steps

end SkUtils.Coroutine.EventLoop
