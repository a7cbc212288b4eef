import Mathlib.Logic.Function.Basic
import SkUtils.Library.TransitionSystem

/-!
`ExecuteCommandPosix` of `process_executor.h` after a successful `fork`: the child, the
two pipes, a clock in milliseconds and the parent.
-/

namespace SkUtils.Process.ProcessExecutor

open SkUtils.Library.TransitionSystem

structure ExecuteResult where
  exitCode : Int
  output : List UInt8
  error : List UInt8
  success : Bool

inductive Stream
  | stdout
  | stderr
  deriving DecidableEq

/-- `buffer` is written and not yet read. `writers` says that a write end is open. -/
structure Pipe where
  buffer : List UInt8
  writers : Bool
  deriving DecidableEq

structure Revents where
  pollin : Bool
  pollhup : Bool
  pollerr : Bool
  deriving DecidableEq

inductive WaitStatus
  | exited (code : UInt8)
  | signaled (signal : Nat)
  | other
  deriving DecidableEq

/-- The next step of the parent. `poll wake` is in a call of `poll` whose timeout ends at
the instant `wake`. -/
inductive ParentPc
  | loop
  | poll (wake : Nat)
  | read (fd : Stream) (revents : Stream → Revents)
  | hangUp (revents : Stream → Revents)
  | leave
  | waitpid
  | returned

/-- `timedOut` is the instant at which the timeout branch was taken and `waits` the number
of calls of `waitpid`. -/
structure State where
  now : Nat
  pipe : Stream → Pipe
  status : Option WaitStatus
  endTime : Int
  result : ExecuteResult
  closed : Stream → Bool
  parent : ParentPc
  timedOut : Option Nat
  waits : Nat

inductive PollResult
  | interrupted
  | failed
  | ready (revents : Stream → Revents)

inductive ReadResult
  | data (bytesRead : Nat)
  | endOfFile
  | again
  | failed

/-- The first three are the child's and `elapse` is the clock's. -/
inductive Action
  | write (fd : Stream) (bytes : List UInt8)
  | close (fd : Stream)
  | exit (status : WaitStatus)
  | elapse (ms : Nat)
  | test
  | poll (result : PollResult)
  | skip
  | read (result : ReadResult)
  | hangUp
  | leave
  | waitpid

/-- `static_cast<long>(time(NULL)) * 1000`. -/
def currentTime (now : Nat) : Int :=
  ((now / 1000 : Nat) : Int) * 1000

/-- What `+= buffer` appends when `bytes` have been read into `buffer`. -/
def cString (bytes : List UInt8) : List UInt8 :=
  bytes.takeWhile (· ≠ 0)

def timeoutMessage (timeoutMs : Int) : List UInt8 :=
  ("Process execution timed out after " ++ toString timeoutMs ++ " ms.").toUTF8.toList

def ExecuteResult.text (result : ExecuteResult) : Stream → List UInt8
  | .stdout => result.output
  | .stderr => result.error

def ExecuteResult.append (result : ExecuteResult) : Stream → List UInt8 → ExecuteResult
  | .stdout, bytes => { result with output := result.output ++ bytes }
  | .stderr, bytes => { result with error := result.error ++ bytes }

/-- What `poll` may report of a pipe: data with `POLLIN`, and its end with `POLLHUP`,
with `POLLIN` or with both. -/
def Pipe.reports (pipe : Pipe) (revents : Revents) : Bool :=
  (pipe.buffer.isEmpty || revents.pollin) &&
    (!revents.pollin || !pipe.buffer.isEmpty || !pipe.writers) &&
      (!revents.pollhup || !pipe.writers)

/-- What a non-blocking `read` of at most `sizeof(buffer) - 1` bytes may return. -/
def Pipe.returns (pipe : Pipe) : ReadResult → Bool
  | .data bytesRead => decide (0 < bytesRead ∧ bytesRead ≤ 4095 ∧ bytesRead ≤ pipe.buffer.length)
  | .endOfFile => pipe.buffer.isEmpty && !pipe.writers
  | .again => pipe.buffer.isEmpty && pipe.writers
  | .failed => true

def Revents.silent (revents : Revents) : Bool :=
  !revents.pollin && !revents.pollhup && !revents.pollerr

def WaitStatus.exitCode : WaitStatus → Int
  | .exited code => code.toNat
  | .signaled signal => 128 + signal
  | .other => 1

/-- The branch `currentTime >= endTime`, in which `usleep` takes 100 ms. -/
def timeOut (timeoutMs : Int) (s : State) : State :=
  { s with
    result := { s.result.append .stderr (timeoutMessage timeoutMs) with exitCode := -1 }
    parent := .leave
    timedOut := some s.now
    now := s.now + 100 }

/-- `poll(fds, 2, remainingTimeMs > 0 ? remainingTimeMs : 100)`. -/
def callPoll (remainingTimeMs : Int) (s : State) : State :=
  { s with
    parent := .poll (s.now + (if 0 < remainingTimeMs then remainingTimeMs else 100).toNat) }

def State.reading (s : State) : Bool :=
  !s.closed .stdout || !s.closed .stderr

def State.late (timeoutMs : Int) (s : State) : Bool :=
  decide (0 < timeoutMs ∧ s.endTime ≤ currentTime s.now)

def test (timeoutMs : Int) (s : State) : State :=
  if s.reading then
    if s.late timeoutMs then timeOut timeoutMs s
    else callPoll (if 0 < timeoutMs then s.endTime - currentTime s.now else -1) s
  else { s with parent := .leave }

def poll (wake : Nat) (s : State) : PollResult → Option State
  | .interrupted => some { s with parent := .loop }
  | .failed => some { s with parent := .leave }
  | .ready revents =>
      if (s.pipe .stdout).reports (revents .stdout) ∧ (s.pipe .stderr).reports (revents .stderr) ∧
          ((revents .stdout).silent ∧ (revents .stderr).silent → wake ≤ s.now) then
        some { s with parent := .read .stdout revents }
      else none

def afterRead (revents : Stream → Revents) : Stream → ParentPc
  | .stdout => .read .stderr revents
  | .stderr => .hangUp revents

/-- The condition under which `fd` is read. -/
def State.reads (s : State) (fd : Stream) (revents : Stream → Revents) : Bool :=
  !s.closed fd && (revents fd).pollin

def read (fd : Stream) (revents : Stream → Revents) (s : State) : ReadResult → State
  | .data bytesRead =>
      { s with
        result := s.result.append fd (cString ((s.pipe fd).buffer.take bytesRead))
        pipe := Function.update s.pipe fd
          { s.pipe fd with buffer := (s.pipe fd).buffer.drop bytesRead }
        parent := afterRead revents fd }
  | .again => { s with parent := afterRead revents fd }
  | .endOfFile | .failed =>
      { s with closed := Function.update s.closed fd true, parent := afterRead revents fd }

def hangUp (revents : Stream → Revents) (s : State) : State :=
  { s with
    closed := fun fd =>
      s.closed fd || (((revents fd).pollhup || (revents fd).pollerr) && !(revents fd).pollin)
    parent := .loop }

def leave (s : State) : State :=
  { s with parent := if s.result.exitCode ≠ -1 then .waitpid else .returned }

def waitpid (status : WaitStatus) (s : State) : State :=
  { s with
    result := { s.result with exitCode := status.exitCode }
    waits := s.waits + 1
    parent := .returned }

def step (timeoutMs : Int) (s : State) : Action → Option State
  | .write fd bytes =>
      if (s.pipe fd).writers then
        some { s with
          pipe := Function.update s.pipe fd
            { s.pipe fd with buffer := (s.pipe fd).buffer ++ bytes } }
      else none
  | .close fd =>
      some { s with pipe := Function.update s.pipe fd { s.pipe fd with writers := false } }
  | .exit status =>
      if s.status.isNone then some { s with status := some status } else none
  | .elapse ms => some { s with now := s.now + ms }
  | .test =>
      match s.parent with
      | .loop => some (test timeoutMs s)
      | _ => none
  | .poll result =>
      match s.parent with
      | .poll wake => poll wake s result
      | _ => none
  | .skip =>
      match s.parent with
      | .read fd revents =>
          if s.reads fd revents then none else some { s with parent := afterRead revents fd }
      | _ => none
  | .read result =>
      match s.parent with
      | .read fd revents =>
          if s.reads fd revents ∧ (s.pipe fd).returns result then
            some (read fd revents s result)
          else none
      | _ => none
  | .hangUp =>
      match s.parent with
      | .hangUp revents => some (hangUp revents s)
      | _ => none
  | .leave =>
      match s.parent with
      | .leave => some (leave s)
      | _ => none
  | .waitpid =>
      match s.parent, s.status with
      | .waitpid, some status => some (waitpid status s)
      | _, _ => none

/-- `start` is the instant at which the end time is computed. -/
def endTime (start : Nat) (timeoutMs : Int) : Int :=
  if 0 < timeoutMs then currentTime start + timeoutMs else -1

def executeCommandPosix (start : Nat) (timeoutMs : Int) : System State Action where
  init :=
    { now := start
      pipe := fun _ => { buffer := [], writers := true }
      status := none
      endTime := endTime start timeoutMs
      result := { exitCode := 0, output := [], error := [], success := true }
      closed := fun _ => false
      parent := .loop
      timedOut := none
      waits := 0 }
  step := step timeoutMs

inductive Step (timeoutMs : Int) (s : State) : Action → State → Prop
  | write {fd : Stream} {bytes : List UInt8} (writers : (s.pipe fd).writers = true) :
      Step timeoutMs s (.write fd bytes)
        { s with
          pipe := Function.update s.pipe fd
            { s.pipe fd with buffer := (s.pipe fd).buffer ++ bytes } }
  | close {fd : Stream} :
      Step timeoutMs s (.close fd)
        { s with pipe := Function.update s.pipe fd { s.pipe fd with writers := false } }
  | exit {status : WaitStatus} (running : s.status = none) :
      Step timeoutMs s (.exit status) { s with status := some status }
  | elapse {ms : Nat} : Step timeoutMs s (.elapse ms) { s with now := s.now + ms }
  | drained (pc : s.parent = .loop) (done : s.reading = false) :
      Step timeoutMs s .test { s with parent := .leave }
  | timeOut (pc : s.parent = .loop) (reading : s.reading = true)
      (late : s.late timeoutMs = true) : Step timeoutMs s .test (timeOut timeoutMs s)
  | callPoll {remainingTimeMs : Int} (pc : s.parent = .loop) (reading : s.reading = true)
      (inTime : s.late timeoutMs = false)
      (remaining : remainingTimeMs =
        if 0 < timeoutMs then s.endTime - currentTime s.now else -1) :
      Step timeoutMs s .test (callPoll remainingTimeMs s)
  | interrupted {wake : Nat} (pc : s.parent = .poll wake) :
      Step timeoutMs s (.poll .interrupted) { s with parent := .loop }
  | pollFailed {wake : Nat} (pc : s.parent = .poll wake) :
      Step timeoutMs s (.poll .failed) { s with parent := .leave }
  | ready {wake : Nat} {revents : Stream → Revents} (pc : s.parent = .poll wake)
      (reports : ∀ fd, (s.pipe fd).reports (revents fd) = true)
      (waited : (∀ fd, (revents fd).silent = true) → wake ≤ s.now) :
      Step timeoutMs s (.poll (.ready revents)) { s with parent := .read .stdout revents }
  | skip {fd : Stream} {revents : Stream → Revents} (pc : s.parent = .read fd revents)
      (skips : s.reads fd revents = false) :
      Step timeoutMs s .skip { s with parent := afterRead revents fd }
  | read {fd : Stream} {revents : Stream → Revents} {result : ReadResult}
      (pc : s.parent = .read fd revents) (reads : s.reads fd revents = true)
      (returns : (s.pipe fd).returns result = true) :
      Step timeoutMs s (.read result) (read fd revents s result)
  | hangUp {revents : Stream → Revents} (pc : s.parent = .hangUp revents) :
      Step timeoutMs s .hangUp (hangUp revents s)
  | leave (pc : s.parent = .leave) : Step timeoutMs s .leave (leave s)
  | waitpid {status : WaitStatus} (pc : s.parent = .waitpid) (exited : s.status = some status) :
      Step timeoutMs s .waitpid (waitpid status s)

theorem forall_stream {P : Stream → Prop} : (∀ fd, P fd) ↔ P .stdout ∧ P .stderr := by
  constructor
  · intro h
    exact ⟨h .stdout, h .stderr⟩
  · rintro ⟨hout, herr⟩ fd
    cases fd with
    | stdout => exact hout
    | stderr => exact herr

theorem test_cases {timeoutMs : Int} {s : State} (pc : s.parent = .loop) :
    Step timeoutMs s .test (test timeoutMs s) := by
  unfold test
  by_cases hreading : s.reading = true
  · by_cases hlate : s.late timeoutMs = true
    · simp only [hreading, hlate, if_true]
      exact .timeOut pc hreading hlate
    · simp only [hreading, hlate, if_true]
      exact .callPoll pc hreading (by simpa using hlate) rfl
  · simp only [hreading]
    exact .drained pc (by simpa using hreading)

theorem poll_cases {timeoutMs : Int} {s t : State} {wake : Nat} {result : PollResult}
    (pc : s.parent = .poll wake) (h : poll wake s result = some t) :
    Step timeoutMs s (.poll result) t := by
  cases result with
  | interrupted =>
      obtain rfl := Option.some.inj h
      exact .interrupted pc
  | failed =>
      obtain rfl := Option.some.inj h
      exact .pollFailed pc
  | ready revents =>
      obtain ⟨⟨hout, herr, hwait⟩, rfl⟩ : (_ ∧ _ ∧ _) ∧ _ := by simpa [poll] using h
      refine .ready pc (forall_stream.mpr ⟨hout, herr⟩) fun hsilent => ?_
      exact hwait (hsilent .stdout) (hsilent .stderr)

theorem step_cases {timeoutMs : Int} {s t : State} {a : Action}
    (h : step timeoutMs s a = some t) : Step timeoutMs s a t := by
  cases a with
  | write fd bytes =>
      obtain ⟨hwriters, rfl⟩ : _ ∧ _ := by simpa [step] using h
      exact .write hwriters
  | close fd =>
      obtain rfl := Option.some.inj h
      exact .close
  | exit status =>
      obtain ⟨hrunning, rfl⟩ : _ ∧ _ := by simpa [step] using h
      exact .exit hrunning
  | elapse ms =>
      obtain rfl := Option.some.inj h
      exact .elapse
  | test =>
      cases hpc : s.parent <;> simp only [step, hpc, Option.some.injEq, reduceCtorEq] at h
      subst h
      exact test_cases hpc
  | poll result =>
      cases hpc : s.parent <;> simp only [step, hpc, reduceCtorEq] at h
      exact poll_cases hpc h
  | skip =>
      cases hpc : s.parent <;> simp only [step, hpc, reduceCtorEq] at h
      split at h
      · cases h
      · next hskips =>
          obtain rfl := Option.some.inj h
          exact .skip hpc (by simpa using hskips)
  | read result =>
      cases hpc : s.parent <;> simp only [step, hpc, reduceCtorEq] at h
      split at h
      · next hreads =>
          obtain rfl := Option.some.inj h
          exact .read hpc hreads.1 hreads.2
      · cases h
  | hangUp =>
      cases hpc : s.parent <;> simp only [step, hpc, Option.some.injEq, reduceCtorEq] at h
      subst h
      exact .hangUp hpc
  | leave =>
      cases hpc : s.parent <;> simp only [step, hpc, Option.some.injEq, reduceCtorEq] at h
      subst h
      exact .leave hpc
  | waitpid =>
      cases hpc : s.parent <;> cases hstatus : s.status <;>
        simp only [step, hpc, hstatus, Option.some.injEq, reduceCtorEq] at h
      subst h
      exact .waitpid hpc hstatus

end SkUtils.Process.ProcessExecutor
