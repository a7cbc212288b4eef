import SkUtils.Process.WindowsPipes

/-!
`ExecuteCommandPosix` with a child that does what it has to do over bounded pipes. The
parent polls both pipes, so that none of them can hold the child back for ever.
-/

namespace SkUtils.Process.PosixPipes

open SkUtils.Library.TransitionSystem
open SkUtils.Process.ProcessExecutor
open SkUtils.Process.WindowsPipes (ChildAction)

section Code

/-- `child` is what the child has still to do before it exits. -/
structure State where
  os : ProcessExecutor.State
  child : List ChildAction

inductive Action
  | child
  | parent (a : ProcessExecutor.Action)

/-- The actions that are not the child's. -/
def ofParent : ProcessExecutor.Action → Bool
  | .write _ _ | .close _ | .exit _ => false
  | _ => true

variable (capacity : Stream → Nat) (timeoutMs : Int) (exitCode : UInt8)

/-- The exit of a process closes its streams. -/
def exit (s : State) : Option State :=
  if s.os.status.isNone then
    some { s with
      os := { s.os with
        status := some (.exited exitCode)
        pipe := fun fd => { s.os.pipe fd with writers := false } } }
  else none

/-- A write to a pipe that is full waits, and one to a stream that is closed fails. -/
def child (s : State) : Option State :=
  match s.child with
  | [] => exit exitCode s
  | .close fd :: rest => (ProcessExecutor.step timeoutMs s.os (.close fd)).map (⟨·, rest⟩)
  | .write fd byte :: rest =>
      if (s.os.pipe fd).writers then
        if (s.os.pipe fd).buffer.length < capacity fd then
          (ProcessExecutor.step timeoutMs s.os (.write fd [byte])).map (⟨·, rest⟩)
        else none
      else some { s with child := rest }

def step (s : State) : Action → Option State
  | .child => child capacity timeoutMs exitCode s
  | .parent a =>
      if ofParent a then (ProcessExecutor.step timeoutMs s.os a).map (⟨·, s.child⟩) else none

def boundedPosix (start : Nat) (script : List ChildAction) : System State Action where
  init := ⟨(executeCommandPosix start timeoutMs).init, script⟩
  step := step capacity timeoutMs exitCode

/-- Neither `poll` nor `read` fails. -/
def Sound : State → Action → Prop
  | _, .parent (.poll .failed) => False
  | _, .parent (.poll (.ready revents)) => ∀ fd, (revents fd).pollerr = false
  | _, .parent (.read .failed) => False
  | _, _ => True

end Code

section Invariant

variable {capacity : Stream → Nat} {timeoutMs : Int} {exitCode : UInt8} {s t : State}
  {script : List ChildAction} {a : Action}

def Drained (os : ProcessExecutor.State) (fd : Stream) : Prop :=
  (os.pipe fd).writers = false ∧ (os.pipe fd).buffer = []

/-- The reports of the last `poll`, while they are used. -/
def reported : ParentPc → Option (Stream → Revents)
  | .read _ revents | .hangUp revents => some revents
  | _ => none

/-- The parent closes only what has come to its end. -/
structure Kept (os : ProcessExecutor.State) : Prop where
  closed : ∀ fd, os.closed fd = true → Drained os fd
  exited : os.status.isSome = true → ∀ fd, (os.pipe fd).writers = false
  hup : ∀ revents, reported os.parent = some revents → ∀ fd, (revents fd).pollerr = false ∧
    ((revents fd).pollhup = true → (revents fd).pollin = false → Drained os fd)

variable {os os' : ProcessExecutor.State} {act : ProcessExecutor.Action} {fd : Stream}

theorem Drained.step (h : Drained os fd) (hstep : Step timeoutMs os act os') : Drained os' fd := by
  obtain ⟨hwriters, hbuffer⟩ := h
  cases hstep with
  | @write fd' bytes writers =>
      have hne : fd ≠ fd' := by
        rintro rfl
        cases hwriters.symm.trans writers
      exact ⟨by simpa [hne] using hwriters, by simpa [hne] using hbuffer⟩
  | @close fd' =>
      rcases eq_or_ne fd fd' with rfl | hne
      · exact ⟨by simp, by simpa using hbuffer⟩
      · exact ⟨by simpa [hne] using hwriters, by simpa [hne] using hbuffer⟩
  | @read fd' revents result pc reads returns =>
      cases result with
      | data bytesRead =>
          rcases eq_or_ne fd fd' with rfl | hne
          · exact ⟨by simpa [ProcessExecutor.read] using hwriters,
              by simp [ProcessExecutor.read, hbuffer]⟩
          · exact ⟨by simpa [ProcessExecutor.read, hne] using hwriters,
              by simpa [ProcessExecutor.read, hne] using hbuffer⟩
      | again => exact ⟨hwriters, hbuffer⟩
      | endOfFile => exact ⟨hwriters, hbuffer⟩
      | failed => exact ⟨hwriters, hbuffer⟩
  | exit running => exact ⟨hwriters, hbuffer⟩
  | elapse => exact ⟨hwriters, hbuffer⟩
  | drained pc done => exact ⟨hwriters, hbuffer⟩
  | timeOut pc reading late => exact ⟨hwriters, hbuffer⟩
  | callPoll pc reading inTime remaining => exact ⟨hwriters, hbuffer⟩
  | interrupted pc => exact ⟨hwriters, hbuffer⟩
  | pollFailed pc => exact ⟨hwriters, hbuffer⟩
  | ready pc reports waited => exact ⟨hwriters, hbuffer⟩
  | skip pc skips => exact ⟨hwriters, hbuffer⟩
  | hangUp pc => exact ⟨hwriters, hbuffer⟩
  | leave pc =>
      unfold leave
      exact ⟨hwriters, hbuffer⟩
  | waitpid pc exited => exact ⟨hwriters, hbuffer⟩

theorem reported_afterRead (revents : Stream → Revents) (fd : Stream) :
    reported (afterRead revents fd) = some revents := by
  cases fd <;> rfl

/-- The parent goes on with the reports that it has. -/
theorem Kept.keep (h : Kept os) (hstep : Step timeoutMs os act os')
    (hclosed : ∀ fd, os'.closed fd = true → os.closed fd = true ∨ Drained os fd)
    (hstatus : os'.status = os.status)
    (hpipe : ∀ fd, (os.pipe fd).writers = false → (os'.pipe fd).writers = false)
    (hreported : ∀ revents, reported os'.parent = some revents →
      reported os.parent = some revents) : Kept os' := by
  constructor
  case closed =>
    intro fd hfd
    rcases hclosed fd hfd with hold | hdrained
    · exact (h.closed fd hold).step hstep
    · exact hdrained.step hstep
  case exited =>
    intro hexited fd
    rw [hstatus] at hexited
    exact hpipe fd (h.exited hexited fd)
  case hup =>
    intro revents hrevents fd
    obtain ⟨herr, hdrained⟩ := h.hup revents (hreported revents hrevents) fd
    exact ⟨herr, fun hhup hin => (hdrained hhup hin).step hstep⟩

theorem Kept.read (h : Kept os) {revents : Stream → Revents} {result : ReadResult}
    (pc : os.parent = .read fd revents) (returns : (os.pipe fd).returns result = true)
    (hsound : result ≠ .failed)
    (hstep : Step timeoutMs os act (ProcessExecutor.read fd revents os result)) :
    Kept (ProcessExecutor.read fd revents os result) := by
  have hreported : ∀ revents', reported (afterRead revents fd) = some revents' →
      reported os.parent = some revents' := by
    intro revents' hrevents
    rwa [reported_afterRead, ← show reported os.parent = some revents by rw [pc]; rfl] at hrevents
  cases result with
  | failed => exact absurd rfl hsound
  | again => exact h.keep hstep (fun _ => .inl) rfl (fun _ => id) hreported
  | data bytesRead =>
      refine h.keep hstep (fun _ => .inl) rfl (fun fd' hfd' => ?_) hreported
      rcases eq_or_ne fd' fd with rfl | hne
      · simpa [ProcessExecutor.read] using hfd'
      · simpa [ProcessExecutor.read, hne] using hfd'
  | endOfFile =>
      refine h.keep hstep (fun fd' hfd' => ?_) rfl (fun _ => id) hreported
      rcases eq_or_ne fd' fd with rfl | hne
      · simp only [Pipe.returns, Bool.and_eq_true, List.isEmpty_iff, Bool.not_eq_true'] at returns
        exact .inr ⟨returns.2, returns.1⟩
      · exact .inl (by simpa [ProcessExecutor.read, hne] using hfd')

theorem Kept.step (h : Kept os) (hexit : ∀ status, act ≠ .exit status)
    (hsound : ofParent act = true → Sound s (.parent act)) (hstep : Step timeoutMs os act os') :
    Kept os' := by
  have hs := hstep
  cases hstep with
  | exit running => exact absurd rfl (hexit _)
  | @write fd' bytes writers =>
      refine h.keep hs (fun _ => .inl) rfl (fun fd hfd => ?_) fun _ => id
      rcases eq_or_ne fd fd' with rfl | hne
      · simpa using hfd
      · simpa [hne] using hfd
  | @close fd' =>
      refine h.keep hs (fun _ => .inl) rfl (fun fd hfd => ?_) fun _ => id
      rcases eq_or_ne fd fd' with rfl | hne
      · simp
      · simpa [hne] using hfd
  | elapse => exact h.keep hs (fun _ => .inl) rfl (fun _ => id) fun _ => id
  | drained pc done =>
      refine h.keep hs (fun _ => .inl) rfl (fun _ => id) fun _ hr => ?_
      cases hr
  | timeOut pc reading late =>
      refine h.keep hs (fun _ => .inl) rfl (fun _ => id) fun _ hr => ?_
      cases hr
  | callPoll pc reading inTime remaining =>
      refine h.keep hs (fun _ => .inl) rfl (fun _ => id)
        fun _ hr => ?_
      cases hr
  | interrupted pc =>
      refine h.keep hs (fun _ => .inl) rfl (fun _ => id) fun _ hr => ?_
      cases hr
  | pollFailed pc => exact (hsound rfl).elim
  | @ready wake revents pc reports waited =>
      have herr : ∀ fd, (revents fd).pollerr = false := hsound rfl
      refine { h with hup := fun revents' hrevents fd => ?_ }
      obtain rfl := Option.some.inj hrevents
      refine ⟨herr fd, fun hhup hin => ?_⟩
      have hreports := reports fd
      simp only [Pipe.reports, hhup, hin, Bool.and_eq_true] at hreports
      simpa [Drained, and_comm] using hreports
  | skip pc skips =>
      refine h.keep hs (fun _ => .inl) rfl (fun _ => id) fun revents' hrevents => ?_
      rw [reported_afterRead] at hrevents
      rw [pc]
      exact hrevents
  | @read fd revents result pc reads returns =>
      refine h.read pc returns ?_ hs
      rintro rfl
      exact hsound rfl
  | @hangUp revents pc =>
      refine h.keep hs (fun fd hfd => ?_) rfl (fun _ => id) fun _ hr => ?_
      · obtain ⟨herr, hdrained⟩ := h.hup revents (by rw [pc]; rfl) fd
        simp only [hangUp, herr, Bool.or_false, Bool.or_eq_true, Bool.and_eq_true,
          Bool.not_eq_true'] at hfd
        exact hfd.imp_right fun hhup => hdrained hhup.1 hhup.2
      · cases hr
  | leave pc =>
      refine h.keep hs (fun _ => .inl) rfl (fun _ => id) fun _ hr => ?_
      unfold leave at hr
      dsimp only at hr
      split at hr <;> cases hr
  | waitpid pc exited =>
      refine h.keep hs (fun _ => .inl) rfl (fun _ => id) fun _ hr => ?_
      cases hr

/-- The parent leaves its loop when it is too late or when both pipes are closed, and waits
for its child only then. -/
structure Leaving (os : ProcessExecutor.State) : Prop where
  leave : os.parent = .leave → os.result.exitCode = -1 ∨ ∀ fd, os.closed fd = true
  waitpid : os.parent = .waitpid → ∀ fd, os.closed fd = true

theorem Leaving.of_ne (hleave : os.parent ≠ .leave) (hwaitpid : os.parent ≠ .waitpid) :
    Leaving os :=
  ⟨fun hpc => absurd hpc hleave, fun hpc => absurd hpc hwaitpid⟩

theorem Leaving.step (h : Leaving os)
    (hsound : ofParent act = true → Sound s (.parent act)) (hstep : Step timeoutMs os act os') :
    Leaving os' := by
  cases hstep with
  | write writers => exact ⟨h.leave, h.waitpid⟩
  | close => exact ⟨h.leave, h.waitpid⟩
  | exit running => exact ⟨h.leave, h.waitpid⟩
  | elapse => exact ⟨h.leave, h.waitpid⟩
  | drained pc done =>
      simp only [State.reading, Bool.or_eq_false_iff, Bool.not_eq_false'] at done
      exact ⟨fun _ => .inr (forall_stream.mpr done), fun hpc => by cases hpc⟩
  | timeOut pc reading late => exact ⟨fun _ => .inl rfl, fun hpc => by cases hpc⟩
  | pollFailed pc => exact (hsound rfl).elim
  | leave pc =>
      rcases h.leave pc with hcode | hclosed
      · exact .of_ne (by simp [ProcessExecutor.leave, hcode])
          (by simp [ProcessExecutor.leave, hcode])
      · exact ⟨fun _ => .inr hclosed, fun _ => hclosed⟩
  | callPoll pc reading inTime remaining => exact .of_ne (by simp [callPoll]) (by simp [callPoll])
  | interrupted pc => exact .of_ne (by simp) (by simp)
  | ready pc reports waited => exact .of_ne (by simp) (by simp)
  | @skip fd revents pc skips =>
      exact .of_ne (by cases fd <;> simp [afterRead]) (by cases fd <;> simp [afterRead])
  | @read fd revents result pc reads returns =>
      refine .of_ne ?_ ?_ <;> cases result <;> cases fd <;>
        simp [ProcessExecutor.read, afterRead]
  | hangUp pc => exact .of_ne (by simp [hangUp]) (by simp [hangUp])
  | waitpid pc exited =>
      exact .of_ne (by simp [ProcessExecutor.waitpid]) (by simp [ProcessExecutor.waitpid])

/-- What is true of the parent and its child in every run. -/
structure Good (s : State) : Prop where
  kept : Kept s.os
  leaving : Leaving s.os

theorem step_parent (hact : ofParent act = true) :
    step capacity timeoutMs exitCode s (.parent act) =
      (ProcessExecutor.step timeoutMs s.os act).map (⟨·, s.child⟩) :=
  if_pos hact

theorem Good.exit (h : Good s) (hstep : exit exitCode s = some t) : Good t := by
  unfold PosixPipes.exit at hstep
  split at hstep
  case isFalse => cases hstep
  case isTrue =>
    obtain rfl := Option.some.inj hstep
    refine ⟨⟨fun fd hfd => ⟨rfl, (h.kept.closed fd hfd).2⟩, fun _ _ => rfl, ?_⟩,
      ⟨h.leaving.leave, h.leaving.waitpid⟩⟩
    intro revents hrevents fd
    obtain ⟨herr, hdrained⟩ := h.kept.hup revents hrevents fd
    exact ⟨herr, fun hhup hin => ⟨rfl, (hdrained hhup hin).2⟩⟩

/-- A step of the child that is a step of its model. -/
theorem Good.child (h : Good s) (hexit : ∀ status, act ≠ .exit status)
    (hact : ofParent act = false) {rest : List ChildAction}
    (hstep : (ProcessExecutor.step timeoutMs s.os act).map (State.mk · rest) = some t) :
    Good t := by
  obtain ⟨os, hos, rfl⟩ := Option.map_eq_some_iff.mp hstep
  have hsound : ofParent act = true → Sound s (.parent act) := by
    intro hparent
    cases hact.symm.trans hparent
  exact ⟨h.kept.step hexit hsound (step_cases hos), h.leaving.step hsound (step_cases hos)⟩

theorem Good.step (h : Good s) (hsound : Sound s a)
    (hstep : step capacity timeoutMs exitCode s a = some t) : Good t := by
  cases a with
  | child =>
      simp only [PosixPipes.step, PosixPipes.child] at hstep
      split at hstep
      case h_1 => exact h.exit hstep
      case h_2 fd rest hchild => exact h.child (by simp) rfl hstep
      case h_3 fd byte rest hchild =>
        split at hstep
        case isTrue =>
          split at hstep
          case isTrue => exact h.child (by simp) rfl hstep
          case isFalse => cases hstep
        case isFalse =>
          obtain rfl := Option.some.inj hstep
          exact ⟨h.kept, h.leaving⟩
  | parent act =>
      simp only [PosixPipes.step] at hstep
      split at hstep
      case isFalse => cases hstep
      case isTrue hact =>
        obtain ⟨os, hos, rfl⟩ := Option.map_eq_some_iff.mp hstep
        have hexit : ∀ status, act ≠ .exit status := by
          rintro status rfl
          cases hact
        exact ⟨h.kept.step hexit (fun _ => hsound) (step_cases hos),
          h.leaving.step (fun _ => hsound) (step_cases hos)⟩

theorem good_of_reachable {start : Nat}
    (hs : ReachableUnder (boundedPosix capacity timeoutMs exitCode start script) Sound s) :
    Good s := by
  refine hs.invariant Good ?_ fun s a t hsound hstep hs => hs.step hsound hstep
  refine ⟨⟨fun fd hfd => ?_, fun hexited => ?_, fun revents hrevents => ?_⟩,
    .of_ne (by simp [boundedPosix, executeCommandPosix])
      (by simp [boundedPosix, executeCommandPosix])⟩
  · cases hfd
  · cases hexited
  · cases hrevents

end Invariant

section Progress

variable {capacity : Stream → Nat} {timeoutMs : Int} {exitCode : UInt8} {s t u : State}
  {start : Nat} {script rest : List ChildAction} {os os' : ProcessExecutor.State}
  {act : ProcessExecutor.Action} {fd : Stream} {revents : Stream → Revents}

/-- Some run of sound steps goes from the first to the second state. -/
def Leads (capacity : Stream → Nat) (timeoutMs : Int) (exitCode : UInt8) (s t : State) : Prop :=
  ∃ as, exec (boundedPosix capacity timeoutMs exitCode 0 []) s as = some t ∧ (Good s → Good t)

theorem Leads.refl (s : State) : Leads capacity timeoutMs exitCode s s :=
  ⟨[], rfl, id⟩

theorem Leads.trans (h : Leads capacity timeoutMs exitCode s t)
    (h' : Leads capacity timeoutMs exitCode t u) : Leads capacity timeoutMs exitCode s u := by
  obtain ⟨as, hexec, hgood⟩ := h
  obtain ⟨as', hexec', hgood'⟩ := h'
  exact ⟨as ++ as', exec_append hexec hexec', hgood' ∘ hgood⟩

theorem Leads.of_step {a : Action} (hsound : Sound s a)
    (hstep : step capacity timeoutMs exitCode s a = some t) :
    Leads capacity timeoutMs exitCode s t :=
  ⟨[a], exec_singleton hstep, fun hs => hs.step hsound hstep⟩

theorem Leads.of_child (hstep : step capacity timeoutMs exitCode s .child = some t) :
    Leads capacity timeoutMs exitCode s t :=
  have hsound : Sound s .child := trivial
  .of_step hsound hstep

theorem Leads.parent (hstep : ProcessExecutor.step timeoutMs os act = some os')
    (hact : ofParent act = true) (hsound : Sound ⟨os, rest⟩ (.parent act)) :
    Leads capacity timeoutMs exitCode ⟨os, rest⟩ ⟨os', rest⟩ := by
  refine .of_step hsound ?_
  rw [step_parent hact, hstep]
  rfl

theorem Leads.good (h : Leads capacity timeoutMs exitCode s t) (hs : Good s) : Good t := by
  obtain ⟨-, -, hgood⟩ := h
  exact hgood hs

def weight (os : ProcessExecutor.State) (fd : Stream) : Nat :=
  (os.pipe fd).buffer.length + if os.closed fd then 0 else 1

def left (s : State) : Nat :=
  2 * s.child.length + (if s.os.status.isSome then 0 else 1) + weight s.os .stdout +
    weight s.os .stderr

/-- What a step of the child leaves as it is. -/
structure Beside (s t : State) : Prop where
  parent : t.os.parent = s.os.parent
  result : t.os.result = s.os.result
  closed : t.os.closed = s.os.closed
  writers : ∀ fd, (s.os.pipe fd).writers = false → (t.os.pipe fd).writers = false

theorem Beside.trans (h : Beside s t) (h' : Beside t u) : Beside s u :=
  ⟨h'.parent.trans h.parent, h'.result.trans h.result, h'.closed.trans h.closed,
    fun fd hfd => h'.writers fd (h.writers fd hfd)⟩

/-- The child can go on unless it writes to a full pipe. -/
theorem exists_child (hrunning : s.os.status.isSome = false)
    (hroom : ∀ fd byte rest, s.child = .write fd byte :: rest → (s.os.pipe fd).writers = true →
      (s.os.pipe fd).buffer.length < capacity fd) :
    ∃ t, Leads capacity timeoutMs exitCode s t ∧ Beside s t ∧ left t < left s := by
  cases hchild : s.child with
  | nil =>
      have hnone : s.os.status.isNone = true := by simpa using hrunning
      have hstep : step capacity timeoutMs exitCode s .child = some
          { s with
            os := { s.os with
              status := some (.exited exitCode)
              pipe := fun fd => { s.os.pipe fd with writers := false } } } := by
        simp [step, child, hchild, exit, hnone]
      exact ⟨_, .of_child hstep, ⟨rfl, rfl, rfl, fun _ _ => rfl⟩,
        by simp [left, weight, hrunning]⟩
  | cons action rest =>
      cases action with
      | close fd =>
          have hstep : step capacity timeoutMs exitCode s .child = some
              { os := { s.os with
                  pipe := Function.update s.os.pipe fd { s.os.pipe fd with writers := false } }
                child := rest } := by
            simp [step, child, hchild, ProcessExecutor.step]
          refine ⟨_, .of_child hstep, ⟨rfl, rfl, rfl, fun fd' hfd' => ?_⟩, ?_⟩
          · rcases eq_or_ne fd' fd with rfl | hne
            · simp
            · simpa [hne] using hfd'
          · cases fd <;> simp [left, weight, hchild]
      | write fd byte =>
          cases hwriters : (s.os.pipe fd).writers with
          | true =>
              have hlt := hroom fd byte rest hchild hwriters
              have hstep : step capacity timeoutMs exitCode s .child = some
                  { os := { s.os with
                      pipe := Function.update s.os.pipe fd
                        { s.os.pipe fd with buffer := (s.os.pipe fd).buffer ++ [byte] } }
                    child := rest } := by
                simp [step, child, hchild, hwriters, hlt, ProcessExecutor.step]
              refine ⟨_, .of_child hstep, ⟨rfl, rfl, rfl, fun fd' hfd' => ?_⟩, ?_⟩
              · rcases eq_or_ne fd' fd with rfl | hne
                · simpa using hfd'
                · simpa [hne] using hfd'
              · cases fd <;> simp [left, weight, hchild] <;> omega
          | false =>
              have hstep : step capacity timeoutMs exitCode s .child =
                  some { s with child := rest } := by
                simp [step, child, hchild, hwriters]
              exact ⟨_, .of_child hstep, ⟨rfl, rfl, rfl, fun _ => id⟩,
                by simp [left, hchild]⟩

/-- When both streams are at their end the child cannot be held back. -/
theorem exists_exited (hwriters : ∀ fd, (s.os.pipe fd).writers = false) :
    ∃ t, Leads capacity timeoutMs exitCode s t ∧ Beside s t ∧ t.os.status.isSome = true := by
  induction hn : left s using Nat.strongRecOn generalizing s with
  | ind n ih =>
      subst hn
      cases hexited : s.os.status.isSome with
      | true => exact ⟨s, .refl s, ⟨rfl, rfl, rfl, fun _ => id⟩, hexited⟩
      | false =>
          obtain ⟨t, hlead, hbeside, hless⟩ : ∃ t, Leads capacity timeoutMs exitCode s t ∧
              Beside s t ∧ left t < left s :=
            exists_child hexited fun fd _ _ _ hopen => by cases (hwriters fd).symm.trans hopen
          obtain ⟨u, hlead', hbeside', hu⟩ :=
            ih _ hless (fun fd => hbeside.writers fd (hwriters fd)) rfl
          exact ⟨u, hlead.trans hlead', hbeside.trans hbeside', hu⟩

theorem exists_returned_of_waitpid (h : Good s) (hpc : s.os.parent = .waitpid) :
    ∃ t, Leads capacity timeoutMs exitCode s t ∧ t.os.parent = .returned := by
  have hclosed := h.leaving.waitpid hpc
  obtain ⟨⟨os, rest⟩, hlead, hbeside, hexited⟩ : ∃ t,
      Leads capacity timeoutMs exitCode s t ∧ Beside s t ∧ t.os.status.isSome = true :=
    exists_exited fun fd => (h.kept.closed fd (hclosed fd)).1
  obtain ⟨status, hstatus⟩ := Option.isSome_iff_exists.mp hexited
  have hwait : os.parent = .waitpid := hbeside.parent.trans hpc
  have hwaitpid : ProcessExecutor.step timeoutMs os .waitpid = some (waitpid status os) := by
    rw [ProcessExecutor.step, hwait, show os.status = some status from hstatus]
  exact ⟨_, hlead.trans (.parent hwaitpid rfl trivial), rfl⟩

theorem exists_returned_of_leave (h : Good s) (hpc : s.os.parent = .leave) :
    ∃ t, Leads capacity timeoutMs exitCode s t ∧ t.os.parent = .returned := by
  obtain ⟨os, rest⟩ := s
  have hleave : ProcessExecutor.step timeoutMs os .leave = some (leave os) := by
    rw [ProcessExecutor.step, show os.parent = .leave from hpc]
  have hlead : Leads capacity timeoutMs exitCode ⟨os, rest⟩ ⟨leave os, rest⟩ :=
    .parent hleave rfl trivial
  by_cases hcode : os.result.exitCode = -1
  · exact ⟨_, hlead, by simp [leave, hcode]⟩
  · obtain ⟨t, hlead', ht⟩ := exists_returned_of_waitpid (hlead.good h) (by simp [leave, hcode])
    exact ⟨t, hlead.trans hlead', ht⟩

/-- The reports with which the parent reads all that there is, and all ends of pipes. -/
def reports (os : ProcessExecutor.State) (fd : Stream) : Revents :=
  { pollin := !os.closed fd && (!(os.pipe fd).buffer.isEmpty || !(os.pipe fd).writers)
    pollhup := false
    pollerr := false }

/-- The parent reads the stream as far as it has been reported. -/
theorem exists_served (hpc : os.parent = .read fd revents) (hrevents : revents fd = reports os fd) :
    ∃ os', Leads capacity timeoutMs exitCode ⟨os, rest⟩ ⟨os', rest⟩ ∧
      os'.parent = afterRead revents fd ∧ os'.status = os.status ∧
      (∀ fd', fd' ≠ fd → os'.pipe fd' = os.pipe fd' ∧ os'.closed fd' = os.closed fd') ∧
      weight os' fd + (if (reports os fd).pollin then 1 else 0) ≤ weight os fd := by
  cases hpollin : (reports os fd).pollin with
  | false =>
      have hstep : ProcessExecutor.step timeoutMs os .skip =
          some { os with parent := afterRead revents fd } := by
        simp [ProcessExecutor.step, hpc, State.reads, hrevents, hpollin]
      exact ⟨_, .parent hstep rfl trivial, rfl, rfl, fun _ _ => ⟨rfl, rfl⟩, by simp [weight]⟩
  | true =>
      have hparts := hpollin
      simp only [reports, Bool.and_eq_true, Bool.not_eq_true', Bool.or_eq_true] at hparts
      obtain ⟨hopen, hready⟩ := hparts
      cases hempty : (os.pipe fd).buffer.isEmpty with
      | false =>
          have hpos : 0 < (os.pipe fd).buffer.length := by
            rw [List.length_pos_iff]
            simpa using hempty
          have hstep : ProcessExecutor.step timeoutMs os (.read (.data 1)) =
              some (ProcessExecutor.read fd revents os (.data 1)) := by
            simp [ProcessExecutor.step, hpc, State.reads, hrevents, hpollin, hopen, Pipe.returns,
              Nat.succ_le_of_lt hpos]
          refine ⟨_, .parent hstep rfl trivial, rfl, rfl, fun fd' hne => ?_, ?_⟩
          · simp [ProcessExecutor.read, hne]
          · simp [ProcessExecutor.read, weight]
            omega
      | true =>
          have hclosed : (os.pipe fd).writers = false := by simpa [hempty] using hready
          have hstep : ProcessExecutor.step timeoutMs os (.read .endOfFile) =
              some (ProcessExecutor.read fd revents os .endOfFile) := by
            simp [ProcessExecutor.step, hpc, State.reads, hrevents, hpollin, hopen, Pipe.returns,
              hempty, hclosed]
          refine ⟨_, .parent hstep rfl trivial, rfl, rfl, fun fd' hne => ?_, ?_⟩
          · simp [ProcessExecutor.read, hne]
          · simp [ProcessExecutor.read, weight, hopen]

theorem reports_of_kept (h : Kept os) (fd : Stream) :
    (os.pipe fd).reports (reports os fd) = true := by
  cases hclosed : os.closed fd with
  | true => simp [Pipe.reports, reports, hclosed, (h.closed fd hclosed).2]
  | false =>
      cases hempty : (os.pipe fd).buffer.isEmpty <;> cases hwriters : (os.pipe fd).writers <;>
        simp [Pipe.reports, reports, hclosed, hempty, hwriters]

/-- `poll` returns, and the parent reads `stdout` first. -/
theorem leads_polled (h : Kept os) (hpc : os.parent = .loop) (hreading : os.reading = true)
    (hlate : os.late timeoutMs = false) (hready : ∃ fd, (reports os fd).pollin = true) :
    Leads capacity timeoutMs exitCode ⟨os, rest⟩
      ⟨{ os with parent := .read .stdout (reports os) }, rest⟩ := by
  obtain ⟨fd, hfd⟩ := hready
  have htest : ProcessExecutor.step timeoutMs os .test = some
      (callPoll (if 0 < timeoutMs then os.endTime - currentTime os.now else -1) os) := by
    simp [ProcessExecutor.step, hpc, test, hreading, hlate]
  have hsilent : ¬((reports os .stdout).silent = true ∧ (reports os .stderr).silent = true) := by
    rintro ⟨hout, herr⟩
    cases fd
    · simp [Revents.silent, hfd] at hout
    · simp [Revents.silent, hfd] at herr
  have hpoll : ProcessExecutor.step timeoutMs
      (callPoll (if 0 < timeoutMs then os.endTime - currentTime os.now else -1) os)
      (.poll (.ready (reports os))) = some { os with parent := .read .stdout (reports os) } := by
    simp only [ProcessExecutor.step, callPoll, poll, reports_of_kept h, true_and]
    rw [if_pos fun hboth => absurd hboth hsilent]
  exact (Leads.parent htest rfl trivial).trans (.parent hpoll rfl fun _ => rfl)

/-- One turn of the loop, when there is something to read. -/
theorem exists_turn (h : Kept os) (hpc : os.parent = .loop) (hreading : os.reading = true)
    (hlate : os.late timeoutMs = false) (hready : ∃ fd, (reports os fd).pollin = true) :
    ∃ os', Leads capacity timeoutMs exitCode ⟨os, rest⟩ ⟨os', rest⟩ ∧ os'.parent = .loop ∧
      left ⟨os', rest⟩ < left ⟨os, rest⟩ := by
  have hpolled : Leads capacity timeoutMs exitCode ⟨os, rest⟩
      ⟨{ os with parent := .read .stdout (reports os) }, rest⟩ :=
    leads_polled h hpc hreading hlate hready
  obtain ⟨os₁, hlead₁, hpc₁, hstatus₁, hother₁, hweight₁⟩ := @exists_served capacity timeoutMs
    exitCode rest { os with parent := .read .stdout (reports os) } .stdout (reports os) rfl rfl
  obtain ⟨hpipe₁, hclosed₁⟩ := hother₁ .stderr (by decide)
  have hreports : reports os .stderr = reports os₁ .stderr := by
    simp [reports, hpipe₁, hclosed₁]
  obtain ⟨os₂, hlead₂, hpc₂, hstatus₂, hother₂, hweight₂⟩ := @exists_served capacity timeoutMs
    exitCode rest os₁ .stderr (reports os) hpc₁ hreports
  obtain ⟨hpipe₂, hclosed₂⟩ := hother₂ .stdout (by decide)
  have hhangUp : ProcessExecutor.step timeoutMs os₂ .hangUp =
      some { os₂ with parent := .loop } := by
    simp only [ProcessExecutor.step, hpc₂, afterRead, hangUp, reports, Bool.false_and,
      Bool.or_false]
  refine ⟨_, hpolled.trans (hlead₁.trans (hlead₂.trans (.parent hhangUp rfl trivial))), rfl, ?_⟩
  have hout : weight os₁ .stdout + (if (reports os .stdout).pollin then 1 else 0) ≤
      weight os .stdout := hweight₁
  have hkept : weight os₂ .stdout = weight os₁ .stdout := by simp [weight, hpipe₂, hclosed₂]
  have hkept' : weight os₁ .stderr = weight os .stderr := by simp [weight, hpipe₁, hclosed₁]
  have hone : 1 ≤ (if (reports os .stdout).pollin then 1 else 0) +
      (if (reports os₁ .stderr).pollin then 1 else 0) := by
    obtain ⟨fd, hfd⟩ := hready
    rw [← hreports]
    cases fd <;> simp [hfd]
  have hstatus : os₂.status = os.status := hstatus₂.trans hstatus₁
  change 2 * rest.length + (if os₂.status.isSome then 0 else 1) + weight os₂ .stdout +
    weight os₂ .stderr < 2 * rest.length + (if os.status.isSome then 0 else 1) +
    weight os .stdout + weight os .stderr
  rw [hstatus]
  omega

/-- While there is nothing to read, no pipe is full and the child can go on. -/
theorem exists_child_of_quiet (hcapacity : ∀ fd, 0 < capacity fd) (h : Kept s.os)
    (hreading : s.os.reading = true) (hquiet : ∀ fd, (reports s.os fd).pollin = false) :
    ∃ t, Leads capacity timeoutMs exitCode s t ∧ Beside s t ∧ left t < left s := by
  have hopen : ∀ fd, s.os.closed fd = false →
      (s.os.pipe fd).buffer = [] ∧ (s.os.pipe fd).writers = true := by
    intro fd hfd
    have hfd' := hquiet fd
    simpa [reports, hfd] using hfd'
  refine exists_child ?_ fun fd byte rest _ hwriters => ?_
  · by_contra hexited
    have hwriters := h.exited ((Bool.not_eq_false _).mp hexited)
    simp only [State.reading, Bool.or_eq_true, Bool.not_eq_true'] at hreading
    rcases hreading with hfd | hfd
    · cases (hwriters _).symm.trans (hopen _ hfd).2
    · cases (hwriters _).symm.trans (hopen _ hfd).2
  · cases hclosed : s.os.closed fd with
    | true => cases (h.closed fd hclosed).1.symm.trans hwriters
    | false =>
        rw [(hopen fd hclosed).1]
        exact hcapacity fd

theorem exists_returned_of_loop (hcapacity : ∀ fd, 0 < capacity fd) (h : Good s)
    (hpc : s.os.parent = .loop) :
    ∃ t, Leads capacity timeoutMs exitCode s t ∧ t.os.parent = .returned := by
  induction hn : left s using Nat.strongRecOn generalizing s with
  | ind n ih =>
      subst hn
      obtain ⟨os, rest⟩ := s
      by_cases hstay : os.reading = true ∧ os.late timeoutMs = false
      · obtain ⟨hreading, hlate⟩ := hstay
        by_cases hready : ∃ fd, (reports os fd).pollin = true
        · obtain ⟨os', hlead, hpc', hless⟩ : ∃ os',
              Leads capacity timeoutMs exitCode ⟨os, rest⟩ ⟨os', rest⟩ ∧ os'.parent = .loop ∧
                left ⟨os', rest⟩ < left ⟨os, rest⟩ :=
            exists_turn h.kept hpc hreading hlate hready
          obtain ⟨t, hlead', ht⟩ := ih _ hless (hlead.good h) hpc' rfl
          exact ⟨t, hlead.trans hlead', ht⟩
        · have hquiet : ∀ fd, (reports os fd).pollin = false := by simpa using hready
          obtain ⟨u, hlead, hbeside, hless⟩ : ∃ u,
              Leads capacity timeoutMs exitCode ⟨os, rest⟩ u ∧ Beside ⟨os, rest⟩ u ∧
                left u < left ⟨os, rest⟩ :=
            exists_child_of_quiet hcapacity h.kept hreading hquiet
          obtain ⟨t, hlead', ht⟩ :=
            ih _ hless (hlead.good h) (hbeside.parent.trans hpc) rfl
          exact ⟨t, hlead.trans hlead', ht⟩
      · have hstep : ProcessExecutor.step timeoutMs os .test = some (test timeoutMs os) := by
          rw [ProcessExecutor.step, show os.parent = .loop from hpc]
        have hlead : Leads capacity timeoutMs exitCode ⟨os, rest⟩ ⟨test timeoutMs os, rest⟩ :=
          .parent hstep rfl trivial
        have hleave : (test timeoutMs os).parent = .leave := by
          unfold test
          split
          case isTrue hreading =>
            split
            case isTrue => rfl
            case isFalse hlate => exact absurd ⟨hreading, by simpa using hlate⟩ hstay
          case isFalse => rfl
        obtain ⟨t, hlead', ht⟩ := exists_returned_of_leave (hlead.good h) hleave
        exact ⟨t, hlead.trans hlead', ht⟩

/-- The parent goes on to the next stream with whatever it has been told. -/
theorem exists_afterRead (hpc : os.parent = .read fd revents) : ∃ os',
    Leads capacity timeoutMs exitCode ⟨os, rest⟩ ⟨os', rest⟩ ∧
      os'.parent = afterRead revents fd := by
  cases hreads : os.reads fd revents with
  | false =>
      have hstep : ProcessExecutor.step timeoutMs os .skip =
          some { os with parent := afterRead revents fd } := by
        simp [ProcessExecutor.step, hpc, hreads]
      exact ⟨_, .parent hstep rfl trivial, rfl⟩
  | true =>
      obtain ⟨result, hreturns, hsound, hnext⟩ : ∃ result, (os.pipe fd).returns result = true ∧
          result ≠ .failed ∧
          (ProcessExecutor.read fd revents os result).parent = afterRead revents fd := by
        cases hempty : (os.pipe fd).buffer.isEmpty with
        | false =>
            have hpos : 0 < (os.pipe fd).buffer.length := by
              rw [List.length_pos_iff]
              simpa using hempty
            exact ⟨.data 1, by simp [Pipe.returns, Nat.succ_le_of_lt hpos], by simp, rfl⟩
        | true =>
            cases hwriters : (os.pipe fd).writers with
            | false => exact ⟨.endOfFile, by simp [Pipe.returns, hempty, hwriters], by simp, rfl⟩
            | true => exact ⟨.again, by simp [Pipe.returns, hempty, hwriters], by simp, rfl⟩
      have hstep : ProcessExecutor.step timeoutMs os (.read result) =
          some (ProcessExecutor.read fd revents os result) := by
        simp [ProcessExecutor.step, hpc, hreads, hreturns]
      refine ⟨_, .parent hstep rfl ?_, hnext⟩
      cases result
      case failed => exact absurd rfl hsound
      all_goals exact trivial

theorem exists_loop_of_hangUp (hpc : os.parent = .hangUp revents) : ∃ os',
    Leads capacity timeoutMs exitCode ⟨os, rest⟩ ⟨os', rest⟩ ∧ os'.parent = .loop := by
  have hstep : ProcessExecutor.step timeoutMs os .hangUp = some (hangUp revents os) := by
    rw [ProcessExecutor.step, hpc]
  exact ⟨_, .parent hstep rfl trivial, rfl⟩

theorem exists_loop_of_stderr (hpc : os.parent = .read .stderr revents) : ∃ os',
    Leads capacity timeoutMs exitCode ⟨os, rest⟩ ⟨os', rest⟩ ∧ os'.parent = .loop := by
  obtain ⟨os₁, hlead, hpc₁⟩ : ∃ os',
      Leads capacity timeoutMs exitCode ⟨os, rest⟩ ⟨os', rest⟩ ∧
        os'.parent = .hangUp revents := exists_afterRead hpc
  obtain ⟨os₂, hlead', hpc₂⟩ : ∃ os',
      Leads capacity timeoutMs exitCode ⟨os₁, rest⟩ ⟨os', rest⟩ ∧ os'.parent = .loop :=
    exists_loop_of_hangUp hpc₁
  exact ⟨os₂, hlead.trans hlead', hpc₂⟩

theorem exists_returned (hcapacity : ∀ fd, 0 < capacity fd) (h : Good s) :
    ∃ t, Leads capacity timeoutMs exitCode s t ∧ t.os.parent = .returned := by
  have hloop : ∀ {os rest}, (∃ os', Leads capacity timeoutMs exitCode ⟨os, rest⟩ ⟨os', rest⟩ ∧
      os'.parent = .loop) → Good ⟨os, rest⟩ →
      ∃ t, Leads capacity timeoutMs exitCode ⟨os, rest⟩ t ∧ t.os.parent = .returned := by
    rintro os rest ⟨os', hlead, hpc⟩ hgood
    obtain ⟨t, hlead', ht⟩ := exists_returned_of_loop hcapacity (hlead.good hgood) hpc
    exact ⟨t, hlead.trans hlead', ht⟩
  obtain ⟨os, rest⟩ := s
  cases hpc : os.parent with
  | loop => exact exists_returned_of_loop hcapacity h hpc
  | poll wake =>
      have hstep : ProcessExecutor.step timeoutMs os (.poll .interrupted) =
          some { os with parent := .loop } := by
        simp only [ProcessExecutor.step, hpc, poll]
      exact hloop ⟨_, .parent hstep rfl trivial, rfl⟩ h
  | read fd revents =>
      cases fd with
      | stderr => exact hloop (exists_loop_of_stderr hpc) h
      | stdout =>
          obtain ⟨os₁, hlead, hpc₁⟩ : ∃ os',
              Leads capacity timeoutMs exitCode ⟨os, rest⟩ ⟨os', rest⟩ ∧
                os'.parent = .read .stderr revents := exists_afterRead hpc
          obtain ⟨t, hlead', ht⟩ := hloop (exists_loop_of_stderr hpc₁) (hlead.good h)
          exact ⟨t, hlead.trans hlead', ht⟩
  | hangUp revents => exact hloop (exists_loop_of_hangUp hpc) h
  | leave => exact exists_returned_of_leave h hpc
  | waitpid => exact exists_returned_of_waitpid h hpc
  | returned => exact ⟨⟨os, rest⟩, .refl _, hpc⟩

theorem exec_boundedPosix (start : Nat) (script : List ChildAction) (s : State)
    (as : List Action) : exec (boundedPosix capacity timeoutMs exitCode start script) s as =
      exec (boundedPosix capacity timeoutMs exitCode 0 []) s as := by
  induction as generalizing s with
  | nil => rfl
  | cons a as ih =>
      refine congrArg (Option.bind (step capacity timeoutMs exitCode s a)) ?_
      exact funext ih

/-- Whatever the child writes and however small the pipes are, the parent can come to its
return in every state that a run without failing calls leads to. -/
theorem never_deadlocked (hcapacity : ∀ fd, 0 < capacity fd)
    (hs : ReachableUnder (boundedPosix capacity timeoutMs exitCode start script) Sound s) :
    ∃ as t, exec (boundedPosix capacity timeoutMs exitCode start script) s as = some t ∧
      t.os.parent = .returned := by
  obtain ⟨t, ⟨as, hexec, -⟩, ht⟩ := exists_returned hcapacity (good_of_reachable hs)
  exact ⟨as, t, (exec_boundedPosix start script s as).trans hexec, ht⟩

/-- Five bytes of messages and a pipe of four. -/
theorem never_deadlocked_four : ∃ as t,
    exec (boundedPosix (fun _ => 4) (-1) 0 0 (List.replicate 5 (.write .stderr 65)))
      (boundedPosix (fun _ => 4) (-1) 0 0 (List.replicate 5 (.write .stderr 65))).init as =
        some t ∧ t.os.parent = .returned :=
  never_deadlocked (fun _ => by decide) ⟨[], .start⟩

end Progress

end SkUtils.Process.PosixPipes
