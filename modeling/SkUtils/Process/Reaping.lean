import SkUtils.Process.ProcessExecutor

/-!
`waitpid` is called unless `exitCode` is `-1`, the value that the timeout branch stores.
-/

namespace SkUtils.Process.ProcessExecutor

open SkUtils.Library.TransitionSystem

/-- The parent, `exitCode`, the calls of `waitpid` and `timedOut`. -/
inductive Phase : ParentPc → Int → Nat → Option Nat → Prop
  | running {parent : ParentPc} (pc : parent ≠ .returned) : Phase parent 0 0 none
  | killed {instant : Nat} : Phase .leave (-1) 0 (some instant)
  | reaped {exitCode : Int} : Phase .returned exitCode 1 none
  | zombie {instant : Nat} : Phase .returned (-1) 0 (some instant)

namespace Phase

variable {parent : ParentPc} {exitCode : Int} {waits : Nat} {timedOut : Option Nat}

theorem of_ne_leave (h : Phase parent exitCode waits timedOut) (hleave : parent ≠ .leave)
    (hreturned : parent ≠ .returned) : exitCode = 0 ∧ waits = 0 ∧ timedOut = none := by
  cases h with
  | running => exact ⟨rfl, rfl, rfl⟩
  | killed => exact absurd rfl hleave
  | reaped => exact absurd rfl hreturned
  | zombie => exact absurd rfl hreturned

/-- The flag tells the two ways out of the loop apart. -/
theorem leave (h : Phase .leave exitCode waits timedOut) :
    Phase (if exitCode ≠ -1 then .waitpid else .returned) exitCode waits timedOut := by
  cases h with
  | running => exact .running (by simp)
  | killed => exact .zombie

theorem waits_of_returned (h : Phase .returned exitCode waits timedOut) :
    waits = 1 ↔ timedOut = none := by
  cases h with
  | running pc => exact absurd rfl pc
  | reaped => simp
  | zombie => simp

end Phase

@[simp] theorem exitCode_append (result : ExecuteResult) (fd : Stream) (bytes : List UInt8) :
    (result.append fd bytes).exitCode = result.exitCode := by
  cases fd <;> rfl

theorem afterRead_ne_returned (revents : Stream → Revents) (fd : Stream) :
    afterRead revents fd ≠ .returned := by
  cases fd <;> simp [afterRead]

def State.Phased (s : State) : Prop :=
  Phase s.parent s.result.exitCode s.waits s.timedOut

/-- Inside of the loop and in `waitpid` nothing has set the flag. -/
theorem State.Phased.running {s : State} (hs : s.Phased) (hleave : s.parent ≠ .leave)
    (hreturned : s.parent ≠ .returned) {parent : ParentPc} (pc : parent ≠ .returned) :
    Phase parent s.result.exitCode s.waits s.timedOut := by
  obtain ⟨hexit, hwaits, htimed⟩ := hs.of_ne_leave hleave hreturned
  rw [hexit, hwaits, htimed]
  exact .running pc

theorem State.Phased.step {timeoutMs : Int} {s t : State} {a : Action} (hs : s.Phased)
    (h : Step timeoutMs s a t) : t.Phased := by
  cases h with
  | write | close | exit | elapse => exact hs
  | drained pc | interrupted pc | pollFailed pc | ready pc | callPoll pc | hangUp pc =>
      exact hs.running (by simp [pc]) (by simp [pc]) (by rintro ⟨⟩)
  | timeOut pc =>
      obtain ⟨-, hwaits, -⟩ := hs.of_ne_leave (by simp [pc]) (by simp [pc])
      unfold Phased timeOut
      simp only [hwaits]
      exact .killed
  | skip pc =>
      exact hs.running (by simp [pc]) (by simp [pc]) (afterRead_ne_returned _ _)
  | @read fd revents result pc =>
      have hphase := hs.running (by simp [pc]) (by simp [pc]) (afterRead_ne_returned revents fd)
      cases result with
      | data bytesRead => simpa [Phased, ProcessExecutor.read] using hphase
      | endOfFile | again | failed => exact hphase
  | leave pc =>
      unfold Phased at hs
      rw [pc] at hs
      exact hs.leave
  | waitpid pc =>
      obtain ⟨-, hwaits, htimed⟩ := hs.of_ne_leave (by simp [pc]) (by simp [pc])
      unfold Phased ProcessExecutor.waitpid
      simp only [hwaits, htimed]
      exact .reaped

theorem phased_of_reachable {start : Nat} {timeoutMs : Int} {s : State}
    (h : Reachable (executeCommandPosix start timeoutMs) s) : s.Phased := by
  apply h.invariant State.Phased
  · change Phase .loop 0 0 none
    exact .running (by simp)
  · intro s a t hstep hs
    exact hs.step (step_cases hstep)

/-- `a` does not take the timeout branch. -/
def InTime (timeoutMs : Int) (s : State) (a : Action) : Prop :=
  a = .test → s.reading = true → s.late timeoutMs = false

theorem Step.timedOut_eq_none_iff {timeoutMs : Int} {s t : State} {a : Action}
    (h : Step timeoutMs s a t) :
    t.timedOut = none ↔ s.timedOut = none ∧ InTime timeoutMs s a := by
  cases h with
  | timeOut _ hreading hlate =>
      simp [ProcessExecutor.timeOut, InTime, hreading, hlate]
  | drained _ hdone => simp [InTime, hdone]
  | callPoll _ _ hinTime => simp [ProcessExecutor.callPoll, InTime, hinTime]
  | @read _ _ result => cases result <;> simp [ProcessExecutor.read, InTime]
  | hangUp => simp [ProcessExecutor.hangUp, InTime]
  | leave => simp [ProcessExecutor.leave, InTime]
  | waitpid => simp [ProcessExecutor.waitpid, InTime]
  | _ => simp [InTime]

theorem timedOut_eq_none_iff {start : Nat} {timeoutMs : Int} {as : List Action} {s : State}
    (run : Run (executeCommandPosix start timeoutMs) Unrestricted as s) :
    s.timedOut = none ↔ Run (executeCommandPosix start timeoutMs) (InTime timeoutMs) as s := by
  refine run.iff_run_of_step (fun _ s => s.timedOut = none) rfl fun as s a t _ hstep => ?_
  exact (step_cases hstep).timedOut_eq_none_iff

theorem child_reaped_iff (start : Nat) (timeoutMs : Int) (as : List Action) (s : State)
    (run : Run (executeCommandPosix start timeoutMs) Unrestricted as s)
    (returned : s.parent = .returned) :
    s.waits = 1 ↔ Run (executeCommandPosix start timeoutMs) (InTime timeoutMs) as s := by
  have hphase := phased_of_reachable run.reachable
  unfold State.Phased at hphase
  rw [returned] at hphase
  rw [hphase.waits_of_returned, timedOut_eq_none_iff run]

/-- The child closes both pipes and ends, and the parent sees the ends with `POLLHUP`. -/
def quietChild : List Action :=
  let hup : Revents := { pollin := false, pollhup := true, pollerr := false }
  [.close .stdout, .close .stderr, .exit (.exited 0), .test, .poll (.ready fun _ => hup),
    .skip, .skip, .hangUp, .test, .leave, .waitpid]

theorem exec_quietChild :
    ∃ s, exec (executeCommandPosix 0 (-1)) (executeCommandPosix 0 (-1)).init quietChild = some s ∧
      s.parent = .returned :=
  ⟨_, rfl, rfl⟩

theorem child_reaped_iff_of_quietChild :
    ∃ s, Run (executeCommandPosix 0 (-1)) Unrestricted quietChild s ∧ s.parent = .returned ∧
      (s.waits = 1 ↔ Run (executeCommandPosix 0 (-1)) (InTime (-1)) quietChild s) := by
  obtain ⟨s, hexec, hreturned⟩ := exec_quietChild
  have hrun := run_of_exec hexec
  exact ⟨s, hrun, hreturned, child_reaped_iff 0 (-1) quietChild s hrun hreturned⟩

/-- A child that outlives its timeout is killed and left as a zombie. -/
theorem child_not_reaped :
    ¬ ∀ (start : Nat) (timeoutMs : Int) (as : List Action) (s : State),
      Run (executeCommandPosix start timeoutMs) Unrestricted as s →
        s.parent = .returned → s.waits = 1 := by
  intro h
  have hexec : ∃ s, exec (executeCommandPosix 0 1000) (executeCommandPosix 0 1000).init
      [.test, .elapse 1000, .poll (.ready fun _ => ⟨false, false, false⟩), .skip, .skip,
        .hangUp, .test, .leave] = some s ∧ s.parent = .returned ∧ s.waits = 0 :=
    ⟨_, rfl, rfl, rfl⟩
  obtain ⟨s, hexec, hreturned, hwaits⟩ := hexec
  have := h 0 1000 _ s (run_of_exec hexec) hreturned
  omega

end SkUtils.Process.ProcessExecutor
