import Mathlib.Logic.Function.Basic
import SkUtils.Library.TransitionSystem

/-!
`IoUringContext` of `io_uring_async.h`: coroutines that await reads, writes and fsyncs, and the
one thread that takes completions, which is that of `start` or the one in `poll_completions`.
liburing is the environment. What its functions return is part of the actions, and any
completion may come at any time.
-/

namespace SkUtils.Coroutine.IoUring

open SkUtils.Library.TransitionSystem

structure IoResult where
  bytes : Int
  error_code : Int
deriving DecidableEq

def EAGAIN : Int := 11

/-- What a callback makes of the `res` of its completion. -/
def completed (res : Int) : IoResult :=
  ⟨res, if res < 0 then -res else 0⟩

/-- The result of an operation that gets no entry of the submission queue. -/
def refused : IoResult :=
  ⟨-1, EAGAIN⟩

/-- A `user_data` is the address of a callback. The code does not see `entry`, which is the
callback of the operation that is completed, or `none` for the NOP of `stop`. -/
structure Cqe where
  entry : Option Nat
  user_data : Option Nat
  res : Int
deriving DecidableEq

/-- The `std::function` of an awaiter, which holds the handle of its coroutine. -/
structure Callback where
  handle : Nat
  deleted : Bool
deriving DecidableEq

inductive Loop
  | poll_completions
  | thread
deriving DecidableEq

/-- Where the thread that takes the completions is: before the test of its loop, in
`io_uring_wait_cqe`, or in a call of a callback. -/
inductive Pc
  | outside
  | test (loop : Loop)
  | waiting
  | calling (loop : Loop) (cqe : Cqe) (callback : Nat)
deriving DecidableEq

/-- How far a call of `stop` is. -/
inductive Stopping
  | outside
  | entry
  | submitting
  | joining
deriving DecidableEq

section Code

variable (Op : Type)

/-- The next operation that a coroutine awaits, told by the results that it has got, or
`none` when it ends. -/
abbrev Program :=
  List IoResult → Option Op

/-- In `await_suspend` a coroutine gets an entry, prepares it, and submits it. -/
inductive Status
  | running
  | preparing (op : Op)
  | submitting (op : Op) (callback : Nat)
  | suspended (callback : Nat)
  | ended

/-- The callbacks are in the order of their `new`, and `in_ring` are those whose entries have
been submitted and whose completions have not been seen. -/
structure State where
  callbacks : List Callback
  in_ring : List Nat
  results : Nat → List IoResult
  status : Nat → Status Op
  running_ : Bool
  pc : Pc
  stopping : Stopping
  crashed : Bool

/-- `sqe` tells whether `io_uring_get_sqe` returns an entry. Without a `cqe` there is no
completion, or the wait is interrupted. -/
inductive Action
  | advance (c : Nat) (sqe : Bool)
  | start
  | poll_completions
  | turn
  | completion (cqe : Option Cqe)
  | stop (sqe : Bool)

inductive Event
  | submitted (k c : Nat) (op : Op)
  | refused (c : Nat) (op : Op)
  | resumed (k c : Nat) (result : IoResult)
  | deleted (k : Nat)

variable {Op} (programs : Nat → Program Op)

def State.setStatus (s : State Op) (c : Nat) (status : Status Op) : State Op :=
  { s with status := Function.update s.status c status }

/-- `handle.resume()`, with what the coroutine is to find in its awaiter. -/
def resume (s : State Op) (c : Nat) (result : IoResult) : State Op :=
  { s with
    results := Function.update s.results c (s.results c ++ [result])
    status := Function.update s.status c .running }

/-- The new callback becomes the `user_data` of the entry. -/
def prepare (s : State Op) (c : Nat) (op : Op) : State Op :=
  { s with
    callbacks := s.callbacks ++ [⟨c, false⟩]
    status := Function.update s.status c (.submitting op s.callbacks.length) }

def submit (s : State Op) (c k : Nat) : State Op :=
  { s with
    in_ring := s.in_ring ++ [k]
    status := Function.update s.status c (.suspended k) }

/-- A coroutine up to its next call of liburing. The `await_suspend` of the awaiters differ in
the operation alone. -/
def advance (s : State Op) (c : Nat) (sqe : Bool) : Option (State Op) :=
  match s.status c with
  | .running =>
      match programs c (s.results c) with
      | none => some (s.setStatus c .ended)
      | some op => some (if sqe then s.setStatus c (.preparing op) else resume s c refused)
  | .preparing op => some (prepare s c op)
  | .submitting _ k => some (submit s c k)
  | .suspended _ => none
  | .ended => none

/-- A callback that is deleted must not be called, and one whose entry has not been submitted
would end its awaiter while `await_suspend` still uses it. -/
def handle (s : State Op) (loop : Loop) (cqe : Cqe) : State Op :=
  match cqe.user_data with
  | none => { s with in_ring := s.in_ring.filter (cqe.entry ≠ some ·), pc := .test loop }
  | some k =>
      match s.callbacks[k]? with
      | some ⟨c, false⟩ =>
          match s.status c with
          | .suspended _ => { resume s c (completed cqe.res) with pc := .calling loop cqe k }
          | _ => { s with crashed := true }
      | _ => { s with crashed := true }

def completion (s : State Op) (cqe : Option Cqe) : Option (State Op) :=
  match s.pc, cqe with
  | .test .poll_completions, none => some { s with pc := .outside }
  | .test .poll_completions, some cqe => some (handle s .poll_completions cqe)
  | .waiting, none => some { s with pc := .test .thread }
  | .waiting, some cqe => some (handle s .thread cqe)
  | _, _ => none

/-- After the callback: `delete callback` and `io_uring_cqe_seen`. -/
def seen (s : State Op) (loop : Loop) (cqe : Cqe) (k c : Nat) : State Op :=
  { s with
    callbacks := s.callbacks.set k ⟨c, true⟩
    in_ring := s.in_ring.filter (cqe.entry ≠ some ·)
    pc := .test loop }

/-- A callback returns when its coroutine is suspended again or ends. -/
def turn (s : State Op) : Option (State Op) :=
  match s.pc with
  | .test .thread => some { s with pc := if s.running_ then .waiting else .outside }
  | .calling loop cqe k =>
      match s.callbacks[k]? with
      | none => none
      | some ⟨c, _⟩ =>
          match s.status c with
          | .suspended _ => some (seen s loop cqe k c)
          | .ended => some (seen s loop cqe k c)
          | _ => none
  | _ => none

def Pc.inThread : Pc → Bool
  | .test .thread | .waiting | .calling .thread _ _ => true
  | _ => false

/-- `stop` up to the join, after which it stops the `EventLoop` that nothing posts to. -/
def stop (s : State Op) (sqe : Bool) : Option (State Op) :=
  match s.stopping with
  | .outside => some { s with running_ := false, stopping := .entry }
  | .entry => some { s with stopping := if sqe then .submitting else .joining }
  | .submitting => some { s with stopping := .joining }
  | .joining => if s.pc.inThread then none else some { s with stopping := .outside }

/-- Completions are taken by one thread at a time. -/
def step (s : State Op) (a : Action) : Option (State Op) :=
  if s.crashed then none
  else
    match a with
    | .advance c sqe => advance programs s c sqe
    | .start =>
        if s.pc = .outside ∧ s.stopping = .outside then
          some { s with running_ := true, pc := .test .thread }
        else none
    | .poll_completions =>
        if s.pc = .outside then some { s with pc := .test .poll_completions } else none
    | .turn => turn s
    | .completion cqe => completion s cqe
    | .stop sqe => stop s sqe

/-- Every coroutine runs on the thread that has started it. -/
def context : System (State Op) Action where
  init :=
    { callbacks := []
      in_ring := []
      results := fun _ => []
      status := fun _ => .running
      running_ := false
      pc := .outside
      stopping := .outside
      crashed := false }
  step := step programs

/-- The call that a completion leads to. -/
def called (s : State Op) (cqe : Cqe) : List (Event Op) :=
  match cqe.user_data with
  | none => []
  | some k =>
      match s.callbacks[k]? with
      | some ⟨c, false⟩ =>
          match s.status c with
          | .suspended _ => [.resumed k c (completed cqe.res)]
          | _ => []
      | _ => []

/-- What happens to operations and callbacks in a step. -/
def happens (s : State Op) : Action → List (Event Op)
  | .advance c sqe =>
      match s.status c with
      | .running =>
          match programs c (s.results c) with
          | none => []
          | some op => if sqe then [] else [.refused c op]
      | .submitting op k => [.submitted k c op]
      | _ => []
  | .completion (some cqe) =>
      match s.pc with
      | .test .poll_completions | .waiting => called s cqe
      | _ => []
  | .turn =>
      match s.pc with
      | .calling _ _ k => [.deleted k]
      | _ => []
  | _ => []

/-- What liburing documents of the completion of an operation, as long as no thread calls
`io_uring_get_sqe` between that of another and its `io_uring_submit`: it is returned after the
submission and until it is seen, with the `user_data` of its entry. -/
def Promised (s : State Op) : Action → Prop
  | .completion (some cqe) =>
      ∀ k, cqe.entry = some k → k ∈ s.in_ring ∧ cqe.user_data = some k
  | _ => True

/-- The NOP of `stop` completes without an address. Nothing promises it, since `stop` does not
set the `user_data` of its entry. -/
def Cleared : Action → Prop
  | .completion (some cqe) => cqe.entry = none → cqe.user_data = none
  | _ => True

end Code

section Moves

variable {Op : Type} {programs : Nat → Program Op} {s t : State Op}

/-- What a step does, and what happens in it. -/
inductive Move (programs : Nat → Program Op) (s : State Op) :
    Action → List (Event Op) → State Op → Prop
  | ended {c : Nat} {sqe : Bool} (status : s.status c = .running)
      (program : programs c (s.results c) = none) :
      Move programs s (.advance c sqe) [] (s.setStatus c .ended)
  | got {c : Nat} {op : Op} (status : s.status c = .running)
      (program : programs c (s.results c) = some op) :
      Move programs s (.advance c true) [] (s.setStatus c (.preparing op))
  | refused {c : Nat} {op : Op} (status : s.status c = .running)
      (program : programs c (s.results c) = some op) :
      Move programs s (.advance c false) [.refused c op] (resume s c refused)
  | prepared {c : Nat} {op : Op} {sqe : Bool} (status : s.status c = .preparing op) :
      Move programs s (.advance c sqe) [] (prepare s c op)
  | submitted {c k : Nat} {op : Op} {sqe : Bool} (status : s.status c = .submitting op k) :
      Move programs s (.advance c sqe) [.submitted k c op] (submit s c k)
  | started (pc : s.pc = .outside) :
      Move programs s .start [] { s with running_ := true, pc := .test .thread }
  | polls (pc : s.pc = .outside) :
      Move programs s .poll_completions [] { s with pc := .test .poll_completions }
  | tested (pc : s.pc = .test .thread) :
      Move programs s .turn [] { s with pc := if s.running_ then .waiting else .outside }
  | empty (pc : s.pc = .test .poll_completions) :
      Move programs s (.completion none) [] { s with pc := .outside }
  | interrupted (pc : s.pc = .waiting) :
      Move programs s (.completion none) [] { s with pc := .test .thread }
  | polled {cqe : Cqe} (pc : s.pc = .test .poll_completions) :
      Move programs s (.completion (some cqe)) (called s cqe) (handle s .poll_completions cqe)
  | waited {cqe : Cqe} (pc : s.pc = .waiting) :
      Move programs s (.completion (some cqe)) (called s cqe) (handle s .thread cqe)
  | seen {loop : Loop} {cqe : Cqe} {k c : Nat} {deleted : Bool}
      (pc : s.pc = .calling loop cqe k) (callback : s.callbacks[k]? = some ⟨c, deleted⟩) :
      Move programs s .turn [.deleted k] (seen s loop cqe k c)
  | stop {sqe running_ : Bool} {stopping : Stopping}
      (flag : running_ = true → s.running_ = true) :
      Move programs s (.stop sqe) [] { s with running_, stopping }

theorem advance_cases {c : Nat} {sqe : Bool} (h : advance programs s c sqe = some t) :
    Move programs s (.advance c sqe) (happens programs s (.advance c sqe)) t := by
  unfold advance at h
  cases hc : s.status c with
  | running =>
      rw [hc] at h
      cases hprogram : programs c (s.results c) with
      | none =>
          obtain rfl := Option.some.inj (by simpa only [hprogram] using h)
          simpa only [happens, hc, hprogram] using .ended hc hprogram
      | some op =>
          obtain rfl := Option.some.inj (by simpa only [hprogram] using h)
          cases sqe with
          | true => simpa [happens, hc, hprogram] using .got hc hprogram
          | false => simpa [happens, hc, hprogram] using .refused hc hprogram
  | preparing op =>
      rw [hc] at h
      obtain rfl := Option.some.inj h
      simpa only [happens, hc] using .prepared hc
  | submitting op k =>
      rw [hc] at h
      obtain rfl := Option.some.inj h
      simpa only [happens, hc] using .submitted hc
  | suspended k =>
      rw [hc] at h
      cases h
  | ended =>
      rw [hc] at h
      cases h

theorem completion_cases {cqe : Option Cqe} (h : completion s cqe = some t) :
    Move programs s (.completion cqe) (happens programs s (.completion cqe)) t := by
  unfold completion at h
  split at h
  case h_1 hpc =>
    obtain rfl := Option.some.inj h
    exact .empty hpc
  case h_2 cqe hpc =>
    obtain rfl := Option.some.inj h
    simpa only [happens, hpc] using .polled hpc
  case h_3 hpc =>
    obtain rfl := Option.some.inj h
    exact .interrupted hpc
  case h_4 cqe hpc =>
    obtain rfl := Option.some.inj h
    simpa only [happens, hpc] using .waited hpc
  case h_5 => cases h

theorem turn_cases (h : turn s = some t) :
    Move programs s .turn (happens programs s .turn) t := by
  unfold turn at h
  split at h
  case h_1 hpc =>
    obtain rfl := Option.some.inj h
    simpa only [happens, hpc] using .tested hpc
  case h_2 loop cqe k hpc =>
    simp only [happens, hpc]
    split at h
    case h_1 => cases h
    case h_2 c deleted hk =>
      split at h
      case h_1 =>
        obtain rfl := Option.some.inj h
        exact .seen hpc hk
      case h_2 =>
        obtain rfl := Option.some.inj h
        exact .seen hpc hk
      case h_3 => cases h
  case h_3 => cases h

theorem stop_cases {sqe : Bool} (h : stop s sqe = some t) :
    Move programs s (.stop sqe) [] t := by
  unfold stop at h
  split at h
  case h_1 =>
    obtain rfl := Option.some.inj h
    exact .stop nofun
  case h_2 =>
    obtain rfl := Option.some.inj h
    exact .stop id
  case h_3 =>
    obtain rfl := Option.some.inj h
    exact .stop id
  case h_4 =>
    split at h
    · cases h
    · obtain rfl := Option.some.inj h
      exact .stop id

theorem move_of_step {a : Action} (h : step programs s a = some t) :
    Move programs s a (happens programs s a) t := by
  unfold step at h
  split at h
  case isTrue => cases h
  case isFalse =>
    cases a with
    | advance c sqe => exact advance_cases h
    | start =>
        obtain ⟨⟨hpc, -⟩, rfl⟩ := guarded_step h
        exact .started hpc
    | poll_completions =>
        obtain ⟨hpc, rfl⟩ := guarded_step h
        exact .polls hpc
    | turn => exact turn_cases h
    | completion cqe => exact completion_cases h
    | stop sqe => exact stop_cases h

/-- A completion carries no address, calls a callback, or must not come. -/
inductive Handled (s : State Op) (loop : Loop) (cqe : Cqe) : List (Event Op) → State Op → Prop
  | dropped (user_data : cqe.user_data = none) : Handled s loop cqe []
      { s with in_ring := s.in_ring.filter (cqe.entry ≠ some ·), pc := .test loop }
  | called {k c k' : Nat} (user_data : cqe.user_data = some k)
      (callback : s.callbacks[k]? = some ⟨c, false⟩) (status : s.status c = .suspended k') :
      Handled s loop cqe [.resumed k c (completed cqe.res)]
        { resume s c (completed cqe.res) with pc := .calling loop cqe k }
  | crashed : Handled s loop cqe [] { s with crashed := true }

theorem handle_cases (s : State Op) (loop : Loop) (cqe : Cqe) :
    Handled s loop cqe (called s cqe) (handle s loop cqe) := by
  cases hdata : cqe.user_data with
  | none =>
      simp only [handle, called, hdata]
      exact .dropped hdata
  | some k =>
      simp only [handle, called, hdata]
      split
      case h_1 c hc =>
        split
        case h_1 k' hsuspended => exact .called hdata hc hsuspended
        case h_2 => exact .crashed
      case h_2 => exact .crashed

end Moves

end SkUtils.Coroutine.IoUring
