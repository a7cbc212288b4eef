import Mathlib.Data.Fintype.Basic
import Mathlib.Logic.Function.Basic
import SkUtils.Library.TransitionSystem

/-!
`when_all(std::vector<Task<T>>)` of `task.h` over `n` tasks whose outcomes are
given. The wrappers start inline in the loop of `when_all`; a task may suspend
there and finish later on another thread. Every access to `WhenAllState` is one
action.
-/

namespace SkUtils.Coroutine.WhenAll

open SkUtils.Library.TransitionSystem

/-- Where a coroutine of `launch_wrapper` stands. `created` is its initial and
`finished` its final suspend point; in between it awaits its task and then takes
the steps `fetch_sub`, `get_continuation` and the start of the resuming thread. -/
inductive WrapperPc
  | created
  | awaiting
  | fetchSub
  | getContinuation
  | spawn
  | leave
  | finished
  deriving DecidableEq

/-- Where the coroutine of `when_all` stands. `inWrapper i` says that its thread
runs the wrapper `i` inside the call of `resume`, `done` that the result is in
the promise and the wrappers are destroyed, which follows `await_resume` at once. -/
inductive CoroutinePc (n : Nat) (T E : Type*)
  | start
  | resumeWrapper (next : Nat)
  | inWrapper (i : Fin n)
  | awaitReady
  | awaitSuspend
  | suspended
  | awaitResume
  | done (result : Except E (Fin n → T))

/-- `remaining`, `continuation` and `exception` are the fields of `WhenAllState`;
`continuation` says whether the handle has been stored. `resumers` counts the
detached threads that have still to call `cont.resume()`. -/
structure State (n : Nat) (T E : Type*) where
  remaining : Nat
  continuation : Bool
  exception : Option E
  results : Fin n → T
  wrappers : Fin n → WrapperPc
  coroutine : CoroutinePc n T E
  resumers : Nat

/-- `suspendTask i` is the suspension of the task `i` inside its first resume. -/
inductive Action (n : Nat)
  | coroutine
  | wrapper (i : Fin n)
  | suspendTask (i : Fin n)
  | resume
  deriving DecidableEq

section Steps

variable {n : Nat} {T E : Type*}

def State.goto (s : State n T E) (i : Fin n) (pc : WrapperPc) : State n T E :=
  { s with wrappers := Function.update s.wrappers i pc }

def State.store (s : State n T E) (i : Fin n) : Except E T → State n T E
  | .ok value => { s with results := Function.update s.results i value }
  | .error e => { s with exception := some e }

section Projections

variable (s : State n T E) (i : Fin n) (pc : WrapperPc) (outcome : Except E T)

@[simp] theorem State.goto_wrappers :
    (s.goto i pc).wrappers = Function.update s.wrappers i pc := rfl

@[simp] theorem State.goto_remaining : (s.goto i pc).remaining = s.remaining := rfl

@[simp] theorem State.goto_continuation :
    (s.goto i pc).continuation = s.continuation := rfl

@[simp] theorem State.goto_coroutine : (s.goto i pc).coroutine = s.coroutine := rfl

@[simp] theorem State.goto_resumers : (s.goto i pc).resumers = s.resumers := rfl

@[simp] theorem State.store_wrappers : (s.store i outcome).wrappers = s.wrappers := by
  cases outcome <;> rfl

@[simp] theorem State.store_remaining :
    (s.store i outcome).remaining = s.remaining := by
  cases outcome <;> rfl

@[simp] theorem State.store_continuation :
    (s.store i outcome).continuation = s.continuation := by
  cases outcome <;> rfl

@[simp] theorem State.store_coroutine :
    (s.store i outcome).coroutine = s.coroutine := by
  cases outcome <;> rfl

@[simp] theorem State.store_resumers : (s.store i outcome).resumers = s.resumers := by
  cases outcome <;> rfl

end Projections

/-- The thread that ran wrapper `i` inline goes on with the loop of `when_all`. -/
def CoroutinePc.leaveWrapper (i : Fin n) : CoroutinePc n T E → CoroutinePc n T E
  | .inWrapper j => if j = i then .resumeWrapper (i + 1) else .inWrapper j
  | pc => pc

def launchWrapper (outcomes : Fin n → Except E T) (s : State n T E) (i : Fin n) :
    Option (State n T E) :=
  match s.wrappers i with
  | .created => none
  | .awaiting => some ((s.store i (outcomes i)).goto i .fetchSub)
  | .fetchSub =>
      some { s.goto i (if s.remaining = 1 then .getContinuation else .leave) with
        remaining := s.remaining - 1 }
  | .getContinuation => some (s.goto i (if s.continuation then .spawn else .leave))
  | .spawn => some { s.goto i .leave with resumers := s.resumers + 1 }
  | .leave =>
      some { s.goto i .finished with coroutine := s.coroutine.leaveWrapper i }
  | .finished => none

def whenAll (s : State n T E) : Option (State n T E) :=
  match s.coroutine with
  | .start =>
      some { s with
        coroutine := if n = 0 then .done (.ok s.results) else .resumeWrapper 0 }
  | .resumeWrapper next =>
      if h : next < n then
        if s.wrappers ⟨next, h⟩ = .created then
          some { s.goto ⟨next, h⟩ .awaiting with coroutine := .inWrapper ⟨next, h⟩ }
        else none
      else some { s with coroutine := .awaitReady }
  | .inWrapper _ => none
  | .awaitReady =>
      some { s with
        coroutine := if s.remaining = 0 then .awaitResume else .awaitSuspend }
  | .awaitSuspend => some { s with continuation := true, coroutine := .suspended }
  | .suspended => none
  | .awaitResume =>
      some { s with
        coroutine := .done (match s.exception with
          | some e => .error e
          | none => .ok s.results) }
  | .done _ => none

def step (outcomes : Fin n → Except E T) (s : State n T E) :
    Action n → Option (State n T E)
  | .coroutine => whenAll s
  | .wrapper i => launchWrapper outcomes s i
  | .suspendTask i =>
      match s.coroutine with
      | .inWrapper j =>
          if j = i ∧ s.wrappers i = .awaiting then
            some { s with coroutine := .resumeWrapper (i + 1) }
          else none
      | _ => none
  | .resume =>
      if 0 < s.resumers then
        some { s with resumers := s.resumers - 1, coroutine := .awaitResume }
      else none

/-- `when_all` once it has created its wrappers. -/
def system [Inhabited T] (outcomes : Fin n → Except E T) :
    System (State n T E) (Action n) where
  init :=
    { remaining := n
      continuation := false
      exception := none
      results := fun _ => default
      wrappers := fun _ => .created
      coroutine := .start
      resumers := 0 }
  step := step outcomes

inductive Transition (outcomes : Fin n → Except E T) (s : State n T E) :
    Action n → State n T E → Prop
  | store {i : Fin n} (pc : s.wrappers i = .awaiting) :
      Transition outcomes s (.wrapper i) ((s.store i (outcomes i)).goto i .fetchSub)
  | fetchLast {i : Fin n} (pc : s.wrappers i = .fetchSub) (last : s.remaining = 1) :
      Transition outcomes s (.wrapper i)
        { s.goto i .getContinuation with remaining := s.remaining - 1 }
  | fetchOther {i : Fin n} (pc : s.wrappers i = .fetchSub) (other : s.remaining ≠ 1) :
      Transition outcomes s (.wrapper i)
        { s.goto i .leave with remaining := s.remaining - 1 }
  | load {i : Fin n} (pc : s.wrappers i = .getContinuation)
      (stored : s.continuation = true) :
      Transition outcomes s (.wrapper i) (s.goto i .spawn)
  | loadNull {i : Fin n} (pc : s.wrappers i = .getContinuation)
      (unset : s.continuation = false) :
      Transition outcomes s (.wrapper i) (s.goto i .leave)
  | spawn {i : Fin n} (pc : s.wrappers i = .spawn) :
      Transition outcomes s (.wrapper i)
        { s.goto i .leave with resumers := s.resumers + 1 }
  | leave {i : Fin n} (pc : s.wrappers i = .leave) :
      Transition outcomes s (.wrapper i)
        { s.goto i .finished with coroutine := s.coroutine.leaveWrapper i }
  | begin (pc : s.coroutine = .start) :
      Transition outcomes s .coroutine
        { s with coroutine := if n = 0 then .done (.ok s.results) else .resumeWrapper 0 }
  | resumeWrapper {i : Fin n} (pc : s.coroutine = .resumeWrapper i)
      (created : s.wrappers i = .created) :
      Transition outcomes s .coroutine
        { s.goto i .awaiting with coroutine := .inWrapper i }
  | leaveLoop {next : Nat} (pc : s.coroutine = .resumeWrapper next) (all : n ≤ next) :
      Transition outcomes s .coroutine { s with coroutine := .awaitReady }
  | ready (pc : s.coroutine = .awaitReady) (finished : s.remaining = 0) :
      Transition outcomes s .coroutine { s with coroutine := .awaitResume }
  | notReady (pc : s.coroutine = .awaitReady) (pending : s.remaining ≠ 0) :
      Transition outcomes s .coroutine { s with coroutine := .awaitSuspend }
  | awaitSuspend (pc : s.coroutine = .awaitSuspend) :
      Transition outcomes s .coroutine
        { s with continuation := true, coroutine := .suspended }
  | awaitResume (pc : s.coroutine = .awaitResume) :
      Transition outcomes s .coroutine
        { s with coroutine := .done (match s.exception with
            | some e => .error e
            | none => .ok s.results) }
  | suspendTask {i : Fin n} (pc : s.coroutine = .inWrapper i)
      (awaiting : s.wrappers i = .awaiting) :
      Transition outcomes s (.suspendTask i)
        { s with coroutine := .resumeWrapper (i + 1) }
  | resume (pending : 0 < s.resumers) :
      Transition outcomes s .resume
        { s with resumers := s.resumers - 1, coroutine := .awaitResume }

theorem launchWrapper_cases {outcomes : Fin n → Except E T} {s t : State n T E}
    {i : Fin n} (h : launchWrapper outcomes s i = some t) :
    Transition outcomes s (.wrapper i) t := by
  unfold launchWrapper at h
  split at h
  case h_1 => cases h
  case h_2 pc =>
      obtain rfl := Option.some.inj h
      exact .store pc
  case h_3 pc =>
      obtain rfl := Option.some.inj h
      by_cases hlast : s.remaining = 1
      · rw [if_pos hlast]
        exact .fetchLast pc hlast
      · rw [if_neg hlast]
        exact .fetchOther pc hlast
  case h_4 pc =>
      obtain rfl := Option.some.inj h
      cases hstored : s.continuation with
      | true => exact .load pc hstored
      | false => exact .loadNull pc hstored
  case h_5 pc =>
      obtain rfl := Option.some.inj h
      exact .spawn pc
  case h_6 pc =>
      obtain rfl := Option.some.inj h
      exact .leave pc
  case h_7 => cases h

theorem whenAll_cases {outcomes : Fin n → Except E T} {s t : State n T E}
    (h : whenAll s = some t) : Transition outcomes s .coroutine t := by
  unfold whenAll at h
  split at h
  case h_1 pc =>
      obtain rfl := Option.some.inj h
      exact .begin pc
  case h_2 next pc =>
      split at h
      case isTrue hnext =>
          obtain ⟨hcreated, rfl⟩ := guarded_step h
          exact .resumeWrapper (i := ⟨next, hnext⟩) pc hcreated
      case isFalse hnext =>
          obtain rfl := Option.some.inj h
          exact .leaveLoop pc (Nat.le_of_not_lt hnext)
  case h_3 => cases h
  case h_4 pc =>
      obtain rfl := Option.some.inj h
      by_cases hready : s.remaining = 0
      · rw [if_pos hready]
        exact .ready pc hready
      · rw [if_neg hready]
        exact .notReady pc hready
  case h_5 pc =>
      obtain rfl := Option.some.inj h
      exact .awaitSuspend pc
  case h_6 => cases h
  case h_7 pc =>
      obtain rfl := Option.some.inj h
      exact .awaitResume pc
  case h_8 => cases h

theorem step_cases {outcomes : Fin n → Except E T} {s t : State n T E} {a : Action n}
    (h : step outcomes s a = some t) : Transition outcomes s a t := by
  cases a with
  | coroutine => exact whenAll_cases h
  | wrapper i => exact launchWrapper_cases h
  | suspendTask i =>
      simp only [step] at h
      split at h
      case h_1 j pc =>
          obtain ⟨⟨rfl, hawaiting⟩, rfl⟩ := guarded_step h
          exact .suspendTask pc hawaiting
      case h_2 => cases h
  | resume =>
      obtain ⟨hpending, rfl⟩ := guarded_step h
      exact .resume hpending

end Steps

end SkUtils.Coroutine.WhenAll
