import SkUtils.Process.CapturedOutput

/-!
`ExecuteCommandWindows` of `process_executor.h` after a successful `CreateProcessA`. The
parent reads `stdout` to its end before it reads `stderr`, and the pipes are bounded.
-/

namespace SkUtils.Process.WindowsPipes

open SkUtils.Library.TransitionSystem
open SkUtils.Process.ProcessExecutor

inductive ChildAction
  | write (fd : Stream) (byte : UInt8)
  | close (fd : Stream)
deriving DecidableEq

inductive ParentPc
  | readFile (fd : Stream)
  | waitForSingleObject
  | returned
deriving DecidableEq

/-- `child` is what the child has still to do before it exits. -/
structure State where
  child : List ChildAction
  exited : Bool
  pipe : Stream → Pipe
  result : ExecuteResult
  parent : ParentPc

/-- `child` is the next action of the child or its exit. In `readNothing` a `ReadFile` fails, or
gives no bytes because the child has written none to the pipe. -/
inductive Action
  | child
  | readFile (bytesRead : Nat)
  | readNothing
  | wait (timedOut : Bool)

def infinite : UInt32 := 0xFFFFFFFF

section Code

variable (capacity : Stream → Nat) (timeoutMs : UInt32) (exitCode : Int)

/-- The handles of a process are closed when it ends. -/
def exit (s : State) : State :=
  { s with
    exited := true
    pipe := fun fd => { s.pipe fd with writers := false } }

/-- A write to a pipe that is full waits, and one to a stream that is closed fails. -/
def child (s : State) : Option State :=
  if s.exited then none
  else
    match s.child with
    | [] => some (exit s)
    | .close fd :: rest =>
        some { s with
          child := rest
          pipe := Function.update s.pipe fd { s.pipe fd with writers := false } }
    | .write fd byte :: rest =>
        if (s.pipe fd).writers then
          if (s.pipe fd).buffer.length < capacity fd then
            some { s with
              child := rest
              pipe := Function.update s.pipe fd
                { s.pipe fd with buffer := (s.pipe fd).buffer ++ [byte] } }
          else none
        else some { s with child := rest }

def afterReadFile : Stream → ParentPc
  | .stdout => .readFile .stderr
  | .stderr => .waitForSingleObject

/-- `ReadFile` waits for data or for the end of the pipe, which ends the loop. -/
def readFile (fd : Stream) (s : State) (bytesRead : Nat) : Option State :=
  if (s.pipe fd).buffer.isEmpty then
    if (s.pipe fd).writers then none else some { s with parent := afterReadFile fd }
  else if 0 < bytesRead ∧ bytesRead ≤ 4095 ∧ bytesRead ≤ (s.pipe fd).buffer.length then
    some { s with
      result := s.result.append fd (cString ((s.pipe fd).buffer.take bytesRead))
      pipe := Function.update s.pipe fd
        { s.pipe fd with buffer := (s.pipe fd).buffer.drop bytesRead } }
  else none

/-- `WaitForSingleObject` and what comes after it, with `TerminateProcess`. -/
def wait (s : State) (timedOut : Bool) : Option State :=
  if timedOut then
    if ¬s.exited ∧ timeoutMs ≠ infinite then
      some { exit s with
        result :=
          { s.result.append .stderr (timeoutMessage timeoutMs.toNat) with exitCode := -1 }
        parent := .returned }
    else none
  else if s.exited then
    some { s with result := { s.result with exitCode }, parent := .returned }
  else none

def step (s : State) : Action → Option State
  | .child => child capacity s
  | .readFile bytesRead =>
      match s.parent with
      | .readFile fd => readFile fd s bytesRead
      | _ => none
  | .readNothing =>
      match s.parent with
      | .readFile fd => some { s with parent := afterReadFile fd }
      | _ => none
  | .wait timedOut =>
      match s.parent with
      | .waitForSingleObject => wait timeoutMs exitCode s timedOut
      | _ => none

def executeCommandWindows (script : List ChildAction) : System State Action where
  init :=
    { child := script
      exited := false
      pipe := fun _ => { buffer := [], writers := true }
      result := { exitCode := 0, output := [], error := [], success := true }
      parent := .readFile .stdout }
  step := step capacity timeoutMs exitCode

end Code

/-- Every `ReadFile` waits for data or for the end of its pipe. -/
def ReadsAll (_ : State) : Action → Prop
  | .readNothing => False
  | _ => True

section Script

/-- The bytes for `stderr` that the child writes before it closes `stdout`. -/
def ahead : (stderrOpen : Bool) → List ChildAction → Nat
  | _, [] => 0
  | stderrOpen, .write .stdout _ :: rest => ahead stderrOpen rest
  | stderrOpen, .write .stderr _ :: rest => (if stderrOpen then 1 else 0) + ahead stderrOpen rest
  | _, .close .stdout :: _ => 0
  | _, .close .stderr :: rest => ahead false rest

/-- The bytes that come through the stream `fd`. -/
def through (fd : Stream) : (isOpen : Bool) → List ChildAction → List UInt8
  | _, [] => []
  | isOpen, .write fd' byte :: rest =>
      (if fd' = fd ∧ isOpen then [byte] else []) ++ through fd isOpen rest
  | isOpen, .close fd' :: rest => through fd (isOpen && fd' ≠ fd) rest

end Script

section Steps

variable {capacity : Stream → Nat} {timeoutMs : UInt32} {exitCode : Int} {s t : State}

inductive Step (capacity : Stream → Nat) (timeoutMs : UInt32) (exitCode : Int) (s : State) :
    Action → State → Prop
  | exit (child : s.child = []) (running : s.exited = false) :
      Step capacity timeoutMs exitCode s .child (WindowsPipes.exit s)
  | close {fd : Stream} {rest : List ChildAction} (child : s.child = .close fd :: rest) :
      Step capacity timeoutMs exitCode s .child
        { s with
          child := rest
          pipe := Function.update s.pipe fd { s.pipe fd with writers := false } }
  | write {fd : Stream} {byte : UInt8} {rest : List ChildAction}
      (child : s.child = .write fd byte :: rest) (writers : (s.pipe fd).writers = true)
      (room : (s.pipe fd).buffer.length < capacity fd) :
      Step capacity timeoutMs exitCode s .child
        { s with
          child := rest
          pipe := Function.update s.pipe fd
            { s.pipe fd with buffer := (s.pipe fd).buffer ++ [byte] } }
  | fail {fd : Stream} {byte : UInt8} {rest : List ChildAction}
      (child : s.child = .write fd byte :: rest) (closed : (s.pipe fd).writers = false) :
      Step capacity timeoutMs exitCode s .child { s with child := rest }
  | endOfPipe {fd : Stream} {bytesRead : Nat} (pc : s.parent = .readFile fd)
      (empty : (s.pipe fd).buffer = []) (closed : (s.pipe fd).writers = false) :
      Step capacity timeoutMs exitCode s (.readFile bytesRead)
        { s with parent := afterReadFile fd }
  | read {fd : Stream} {bytesRead : Nat} (pc : s.parent = .readFile fd) (some : 0 < bytesRead)
      (available : bytesRead ≤ (s.pipe fd).buffer.length) :
      Step capacity timeoutMs exitCode s (.readFile bytesRead)
        { s with
          result := s.result.append fd (cString ((s.pipe fd).buffer.take bytesRead))
          pipe := Function.update s.pipe fd
            { s.pipe fd with buffer := (s.pipe fd).buffer.drop bytesRead } }
  | readNothing {fd : Stream} (pc : s.parent = .readFile fd) :
      Step capacity timeoutMs exitCode s .readNothing { s with parent := afterReadFile fd }
  | timedOut (pc : s.parent = .waitForSingleObject) (running : s.exited = false) :
      Step capacity timeoutMs exitCode s (.wait true)
        { WindowsPipes.exit s with
          result :=
            { s.result.append .stderr (timeoutMessage timeoutMs.toNat) with exitCode := -1 }
          parent := .returned }
  | waited (pc : s.parent = .waitForSingleObject) (exited : s.exited = true) :
      Step capacity timeoutMs exitCode s (.wait false)
        { s with result := { s.result with exitCode }, parent := .returned }

theorem child_cases (h : child capacity s = some t) :
    Step capacity timeoutMs exitCode s .child t := by
  unfold child at h
  obtain ⟨hrunning, h⟩ := Option.ite_none_left_eq_some.mp h
  split at h
  case h_1 hchild =>
    obtain rfl := Option.some.inj h
    exact .exit hchild (by simpa using hrunning)
  case h_2 fd rest hchild =>
    obtain rfl := Option.some.inj h
    exact .close hchild
  case h_3 fd byte rest hchild =>
    split at h
    case isTrue hwriters =>
      obtain ⟨hroom, rfl⟩ := guarded_step h
      exact .write hchild hwriters hroom
    case isFalse hclosed =>
      obtain rfl := Option.some.inj h
      exact .fail hchild (by simpa using hclosed)

theorem readFile_cases {fd : Stream} {bytesRead : Nat} (pc : s.parent = .readFile fd)
    (h : readFile fd s bytesRead = some t) :
    Step capacity timeoutMs exitCode s (.readFile bytesRead) t := by
  unfold readFile at h
  split at h
  case isTrue hempty =>
    split at h
    case isTrue => cases h
    case isFalse hclosed =>
      obtain rfl := Option.some.inj h
      exact .endOfPipe pc (List.isEmpty_iff.mp hempty) (by simpa using hclosed)
  case isFalse =>
    obtain ⟨⟨hsome, -, havailable⟩, rfl⟩ := guarded_step h
    exact .read pc hsome havailable

theorem wait_cases {timedOut : Bool} (pc : s.parent = .waitForSingleObject)
    (h : wait timeoutMs exitCode s timedOut = some t) :
    Step capacity timeoutMs exitCode s (.wait timedOut) t := by
  cases timedOut with
  | true =>
      obtain ⟨⟨hrunning, -⟩, rfl⟩ := guarded_step h
      exact .timedOut pc (by simpa using hrunning)
  | false =>
      obtain ⟨hexited, rfl⟩ := guarded_step h
      exact .waited pc hexited

theorem step_cases {a : Action} (h : step capacity timeoutMs exitCode s a = some t) :
    Step capacity timeoutMs exitCode s a t := by
  cases a with
  | child => exact child_cases h
  | readFile bytesRead =>
      simp only [step] at h
      split at h
      case h_1 pc => exact readFile_cases pc h
      case h_2 => cases h
  | readNothing =>
      simp only [step] at h
      split at h
      case h_1 pc =>
        obtain rfl := Option.some.inj h
        exact .readNothing pc
      case h_2 => cases h
  | wait timedOut =>
      simp only [step] at h
      split at h
      case h_1 pc => exact wait_cases pc h
      case h_2 => cases h

/-- How far the parent is at most from its return. -/
def parentLeft : ParentPc → Nat
  | .readFile .stdout => 3
  | .readFile .stderr => 2
  | .waitForSingleObject => 1
  | .returned => 0

def left (s : State) : Nat :=
  2 * s.child.length + (if s.exited then 0 else 1) + (s.pipe .stdout).buffer.length +
    (s.pipe .stderr).buffer.length + parentLeft s.parent

theorem left_step {a : Action} (h : Step capacity timeoutMs exitCode s a t) :
    left t < left s := by
  cases h with
  | exit child running => simp [left, WindowsPipes.exit, running]
  | @close fd rest child => cases fd <;> simp [left, child]
  | @write fd byte rest child writers room =>
      cases fd <;> simp [left, child] <;> omega
  | fail child closed => simp [left, child]
  | @endOfPipe fd _ pc empty closed => cases fd <;> simp [left, pc, afterReadFile, parentLeft]
  | @read fd _ pc some available =>
      cases fd <;> simp [left, pc] <;> omega
  | @readNothing fd pc => cases fd <;> simp [left, pc, afterReadFile, parentLeft]
  | timedOut pc running =>
      simp only [left, WindowsPipes.exit, pc, running, parentLeft, if_true, Bool.false_eq_true,
        if_false]
      omega
  | waited pc exited => simp [left, pc, parentLeft]

end Steps

section Invariant

variable {capacity : Stream → Nat} {timeoutMs : UInt32} {exitCode : Int} {s t : State}
  {script : List ChildAction} {a : Action}

def State.Drained (s : State) (fd : Stream) : Prop :=
  (s.pipe fd).writers = false ∧ (s.pipe fd).buffer = []

/-- The parent has read the stream to its end. -/
def Past : ParentPc → Stream → Prop
  | .readFile .stdout, _ => False
  | .readFile .stderr, fd => fd = .stdout
  | .waitForSingleObject, _ => True
  | .returned, _ => True

theorem past_afterReadFile {fd fd' : Stream} (h : Past (afterReadFile fd) fd') :
    fd' = fd ∨ Past (.readFile fd) fd' := by
  cases fd <;> cases fd' <;> simp [afterReadFile, Past] at h ⊢

theorem Step.drained (h : Step capacity timeoutMs exitCode s a t) {fd : Stream}
    (hfd : s.Drained fd) : t.Drained fd := by
  obtain ⟨hwriters, hbuffer⟩ := hfd
  cases h with
  | exit child running => exact ⟨rfl, hbuffer⟩
  | @close fd' rest child =>
      rcases eq_or_ne fd fd' with rfl | hne
      · exact ⟨by simp, by simpa using hbuffer⟩
      · exact ⟨by simpa [hne] using hwriters, by simpa [hne] using hbuffer⟩
  | @write fd' byte rest child writers room =>
      have hne : fd ≠ fd' := by
        rintro rfl
        cases hwriters.symm.trans writers
      exact ⟨by simpa [hne] using hwriters, by simpa [hne] using hbuffer⟩
  | fail child closed => exact ⟨hwriters, hbuffer⟩
  | endOfPipe pc empty closed => exact ⟨hwriters, hbuffer⟩
  | @read fd' _ pc some available =>
      rcases eq_or_ne fd fd' with rfl | hne
      · rw [hbuffer] at available
        exact absurd available (Nat.not_le_of_lt some)
      · exact ⟨by simpa [hne] using hwriters, by simpa [hne] using hbuffer⟩
  | readNothing pc => exact ⟨hwriters, hbuffer⟩
  | timedOut pc running => exact ⟨rfl, hbuffer⟩
  | waited pc exited => exact ⟨hwriters, hbuffer⟩

/-- What the parent has passed is drained, and a process that has exited writes nothing. -/
structure Ordered (s : State) : Prop where
  past : ∀ fd, Past s.parent fd → s.Drained fd
  exited : s.exited = true → ∀ fd, (s.pipe fd).writers = false

theorem Ordered.step (h : Ordered s) (hreads : ReadsAll s a)
    (hstep : Step capacity timeoutMs exitCode s a t) : Ordered t := by
  have hdrained : ∀ fd, Past s.parent fd → t.Drained fd :=
    fun fd hfd => hstep.drained (h.past fd hfd)
  cases hstep with
  | exit child running => exact ⟨hdrained, fun _ _ => rfl⟩
  | @close fd' rest child =>
      refine ⟨hdrained, fun hexited fd => ?_⟩
      rcases eq_or_ne fd fd' with rfl | hne
      · simp
      · simpa [hne] using h.exited hexited fd
  | @write fd' byte rest child writers room =>
      refine ⟨hdrained, fun hexited => ?_⟩
      cases (h.exited hexited fd').symm.trans writers
  | fail child closed => exact ⟨hdrained, h.exited⟩
  | @endOfPipe fd _ pc empty closed =>
      refine ⟨fun fd' hfd' => ?_, h.exited⟩
      rcases past_afterReadFile hfd' with rfl | hpast
      · exact ⟨closed, empty⟩
      · rw [← pc] at hpast
        exact h.past fd' hpast
  | @read fd' _ pc some available =>
      refine ⟨hdrained, fun hexited fd => ?_⟩
      rcases eq_or_ne fd fd' with rfl | hne
      · simpa using h.exited hexited fd
      · simpa [hne] using h.exited hexited fd
  | readNothing pc => exact hreads.elim
  | timedOut pc running => exact ⟨fun fd _ => hdrained fd (pc ▸ trivial), fun _ _ => rfl⟩
  | waited pc exited =>
      exact ⟨fun fd _ => h.past fd (pc ▸ trivial), h.exited⟩

/-- As long as `stdout` is open, the parent takes nothing from `stderr`. -/
def Backlog (script : List ChildAction) (s : State) : Prop :=
  s.parent = .readFile .stdout → (s.pipe .stdout).writers = true →
    (s.pipe .stderr).buffer.length + ahead (s.pipe .stderr).writers s.child = ahead true script

theorem Backlog.step (h : Backlog script s)
    (hstep : Step capacity timeoutMs exitCode s a t) : Backlog script t := by
  intro hpc hwriters
  cases hstep with
  | exit child running => cases hwriters
  | @close fd rest child =>
      cases fd with
      | stdout => simp at hwriters
      | stderr =>
          have hs := h hpc (by simpa using hwriters)
          simpa [child, ahead] using hs
  | @write fd byte rest child writers room =>
      cases fd with
      | stdout =>
          have hs := h hpc writers
          simpa [child, ahead] using hs
      | stderr =>
          have hs := h hpc (by simpa using hwriters)
          rw [child, ahead, if_pos writers] at hs
          simp only [Function.update_self, List.length_append, List.length_singleton]
          omega
  | @fail fd byte rest child closed =>
      cases fd with
      | stdout => cases closed.symm.trans hwriters
      | stderr =>
          have hs := h hpc hwriters
          simpa [child, ahead, closed] using hs
  | @endOfPipe fd _ pc empty closed => cases fd <;> cases hpc
  | @read fd _ pc some available =>
      obtain rfl := ParentPc.readFile.inj (pc.symm.trans hpc)
      have hs := h hpc (by simpa using hwriters)
      simpa using hs
  | @readNothing fd pc => cases fd <;> cases hpc
  | timedOut pc running => cases hpc
  | waited pc exited => cases hpc

theorem through_closed (fd : Stream) (rest : List ChildAction) : through fd false rest = [] := by
  induction rest with
  | nil => rfl
  | cons action rest ih => cases action <;> simpa [through] using ih

/-- What has been captured of a stream, what is in its pipe and what will come through it. -/
def Captured (timeoutMs : UInt32) (script : List ChildAction) (s : State) (fd : Stream) : Prop :=
  ∃ chunks : List (List UInt8),
    chunks.flatten ++ ((s.pipe fd).buffer ++ through fd (s.pipe fd).writers s.child) =
      through fd true script ∧
    (s.result.text fd = (chunks.map cString).flatten ∨
      s.parent = .returned ∧ fd = .stderr ∧
        s.result.text fd = (chunks.map cString).flatten ++ timeoutMessage timeoutMs.toNat)

theorem Captured.step {fd : Stream} (h : Captured timeoutMs script s fd) (hordered : Ordered s)
    (hreads : ReadsAll s a) (hstep : Step capacity timeoutMs exitCode s a t) :
    Captured timeoutMs script t fd := by
  obtain ⟨chunks, hscript, htext⟩ := h
  cases hstep with
  | exit child running =>
      refine ⟨chunks, ?_, htext⟩
      rw [child] at hscript
      simpa [WindowsPipes.exit, child, through] using hscript
  | @close fd' rest child =>
      refine ⟨chunks, ?_, htext⟩
      rw [child, through] at hscript
      rcases eq_or_ne fd' fd with rfl | hne
      · simpa [through_closed] using hscript
      · simpa [hne, hne.symm] using hscript
  | @write fd' byte rest child writers room =>
      refine ⟨chunks, ?_, htext⟩
      rw [child, through] at hscript
      rcases eq_or_ne fd' fd with rfl | hne
      · simpa [writers] using hscript
      · simpa [hne, hne.symm] using hscript
  | @fail fd' byte rest child closed =>
      refine ⟨chunks, ?_, htext⟩
      rw [child, through] at hscript
      have hlost : ¬(fd' = fd ∧ (s.pipe fd).writers = true) := by
        rintro ⟨rfl, hwriters⟩
        cases closed.symm.trans hwriters
      rwa [if_neg hlost] at hscript
  | endOfPipe pc empty closed =>
      refine ⟨chunks, hscript, .inl ?_⟩
      rcases htext with htext | ⟨hreturned, -⟩
      · exact htext
      · cases pc.symm.trans hreturned
  | @read fd' bytesRead pc some available =>
      rcases htext with htext | ⟨hreturned, -⟩
      · rcases eq_or_ne fd' fd with rfl | hne
        · refine ⟨chunks ++ [(s.pipe fd').buffer.take bytesRead], ?_, .inl ?_⟩
          · simp only [Function.update_self, List.flatten_append, List.flatten_singleton,
              List.append_assoc]
            rw [← List.append_assoc (List.take bytesRead _), List.take_append_drop]
            exact hscript
          · simp [text_append, htext]
        · refine ⟨chunks, ?_, .inl ?_⟩
          · simpa [hne.symm] using hscript
          · simp [text_append, htext, hne]
      · cases pc.symm.trans hreturned
  | readNothing pc => exact hreads.elim
  | timedOut pc running =>
      have hclosed := (hordered.past fd (pc ▸ trivial)).1
      rw [hclosed] at hscript
      refine ⟨chunks, hscript, ?_⟩
      rcases htext with htext | ⟨hreturned, -⟩
      · cases fd with
        | stdout => exact .inl htext
        | stderr => exact .inr ⟨rfl, rfl, congrArg (· ++ _) htext⟩
      · cases pc.symm.trans hreturned
  | waited pc exited =>
      refine ⟨chunks, hscript, .inl ?_⟩
      rcases htext with htext | ⟨hreturned, -⟩
      · cases fd <;> exact htext
      · cases pc.symm.trans hreturned

structure Kept (capacity : Stream → Nat) (timeoutMs : UInt32) (script : List ChildAction)
    (s : State) : Prop extends Ordered s where
  backlog : Backlog script s
  room : (s.pipe .stderr).buffer.length ≤ capacity .stderr
  captured : ∀ fd, Captured timeoutMs script s fd

theorem Step.room (h : Step capacity timeoutMs exitCode s a t)
    (hs : (s.pipe .stderr).buffer.length ≤ capacity .stderr) :
    (t.pipe .stderr).buffer.length ≤ capacity .stderr := by
  cases h with
  | @close fd rest child => cases fd <;> simpa using hs
  | @write fd byte rest child writers room =>
      cases fd with
      | stdout => simpa using hs
      | stderr => simpa using Nat.succ_le_of_lt room
  | @read fd bytesRead pc some available =>
      cases fd with
      | stdout => simpa using hs
      | stderr =>
          simp only [Function.update_self, List.length_drop]
          omega
  | exit child running => exact hs
  | fail child closed => exact hs
  | endOfPipe pc empty closed => exact hs
  | readNothing pc => exact hs
  | timedOut pc running => exact hs
  | waited pc exited => exact hs

theorem kept_of_reachable
    (hs : ReachableUnder (executeCommandWindows capacity timeoutMs exitCode script) ReadsAll s) :
    Kept capacity timeoutMs script s := by
  refine hs.invariant (Kept capacity timeoutMs script) ?_ fun s a t hreads hstep hs => ?_
  · exact {
      past := fun fd hfd => hfd.elim
      exited := fun hexited => by cases hexited
      backlog := fun _ _ => Nat.zero_add _
      room := Nat.zero_le _
      captured := fun fd => ⟨[], rfl, .inl (by cases fd <;> rfl)⟩ }
  · have hcases := step_cases hstep
    exact { hs.toOrdered.step hreads hcases with
      backlog := hs.backlog.step hcases
      room := hcases.room hs.room
      captured := fun fd => (hs.captured fd).step hs.toOrdered hreads hcases }

end Invariant

section Deadlock

variable {capacity : Stream → Nat} {timeoutMs : UInt32} {exitCode : Int} {s t : State}
  {script : List ChildAction}

/-- The child can go on unless it writes to a full pipe. -/
theorem exists_child_step (hexited : s.exited = false)
    (hroom : ∀ fd byte rest, s.child = .write fd byte :: rest → (s.pipe fd).writers = true →
      (s.pipe fd).buffer.length < capacity fd) : ∃ t, child capacity s = some t := by
  cases hchild : s.child with
  | nil => exact ⟨_, by simp only [child, hchild, hexited, Bool.false_eq_true, if_false]; rfl⟩
  | cons action rest =>
      cases action with
      | close fd =>
          exact ⟨_, by simp only [child, hchild, hexited, Bool.false_eq_true, if_false]; rfl⟩
      | write fd byte =>
          cases hwriters : (s.pipe fd).writers with
          | true =>
              have hlt := hroom fd byte rest hchild hwriters
              exact ⟨_, by
                simp only [child, hchild, hexited, hwriters, Bool.false_eq_true, if_false, if_true,
                  if_pos hlt]
                rfl⟩
          | false =>
              exact ⟨_, by simp only [child, hchild, hexited, hwriters, Bool.false_eq_true,
                if_false]; rfl⟩

/-- While the parent waits for data, the pipe that it does not read has room. -/
theorem room_of_kept (hcapacity : ∀ fd, 0 < capacity fd)
    (hahead : ahead true script ≤ capacity .stderr) (h : Kept capacity timeoutMs script s)
    {fd fd' : Stream} (hpc : s.parent = .readFile fd) (hempty : (s.pipe fd).buffer = [])
    (hopen : (s.pipe fd).writers = true) {byte : UInt8} {rest : List ChildAction}
    (hchild : s.child = .write fd' byte :: rest) (hwriters : (s.pipe fd').writers = true) :
    (s.pipe fd').buffer.length < capacity fd' := by
  rcases eq_or_ne fd' fd with rfl | hne
  · rw [hempty]
    exact hcapacity fd'
  · cases fd with
    | stdout =>
        cases fd' with
        | stdout => exact absurd rfl hne
        | stderr =>
            have hbacklog := h.backlog hpc hopen
            rw [hchild, ahead, if_pos hwriters] at hbacklog
            omega
    | stderr =>
        cases fd' with
        | stdout =>
            have hdrained := h.past .stdout (by rw [hpc]; rfl)
            cases hdrained.1.symm.trans hwriters
        | stderr => exact absurd rfl hne

theorem exists_step (hcapacity : ∀ fd, 0 < capacity fd)
    (hahead : ahead true script ≤ capacity .stderr) (h : Kept capacity timeoutMs script s)
    (hleft : s.parent ≠ .returned) :
    ∃ a t, ReadsAll s a ∧ step capacity timeoutMs exitCode s a = some t := by
  cases hpc : s.parent with
  | returned => exact absurd hpc hleft
  | waitForSingleObject =>
      cases hexited : s.exited with
      | true =>
          have hwait : ∃ t, wait timeoutMs exitCode s false = some t := by simp [wait, hexited]
          obtain ⟨t, ht⟩ := hwait
          exact ⟨.wait false, t, trivial, by simpa only [step, hpc] using ht⟩
      | false =>
          obtain ⟨t, ht⟩ : ∃ t, child capacity s = some t := by
            refine exists_child_step hexited fun fd _ _ _ hwriters => ?_
            cases (h.past fd (hpc ▸ trivial)).1.symm.trans hwriters
          exact ⟨.child, t, trivial, ht⟩
  | readFile fd =>
      by_cases hempty : (s.pipe fd).buffer = []
      · cases hwriters : (s.pipe fd).writers with
        | true =>
            have hexited : s.exited = false := by
              by_contra hexited
              have hclosed := h.exited (by simpa using hexited) fd
              cases hclosed.symm.trans hwriters
            obtain ⟨t, ht⟩ := exists_child_step hexited fun fd' byte rest hchild hopen =>
              room_of_kept hcapacity hahead h hpc hempty hwriters hchild hopen
            exact ⟨.child, t, trivial, ht⟩
        | false =>
            exact ⟨.readFile 0, { s with parent := afterReadFile fd }, trivial,
              by simp [step, hpc, readFile, hempty, hwriters]⟩
      · have hpos : 1 ≤ (s.pipe fd).buffer.length := List.length_pos_iff.mpr hempty
        obtain ⟨t, ht⟩ : ∃ t, readFile fd s 1 = some t := by simp [readFile, hempty, hpos]
        exact ⟨.readFile 1, t, trivial, by simpa only [step, hpc] using ht⟩

theorem exists_stuck
    (hs : ReachableUnder (executeCommandWindows capacity timeoutMs exitCode script) ReadsAll s) :
    ∃ t, ReachableUnder (executeCommandWindows capacity timeoutMs exitCode script) ReadsAll t ∧
      ∀ a, ReadsAll t a → step capacity timeoutMs exitCode t a = none := by
  induction hn : left s using Nat.strongRecOn generalizing s with
  | ind n ih =>
      subst hn
      by_cases hstuck : ∀ a, ReadsAll s a → step capacity timeoutMs exitCode s a = none
      · exact ⟨s, hs, hstuck⟩
      · simp only [not_forall] at hstuck
        obtain ⟨a, hreads, ha⟩ := hstuck
        obtain ⟨t, hstep⟩ := Option.ne_none_iff_exists'.mp ha
        obtain ⟨as, run⟩ := hs
        exact ih _ (left_step (step_cases hstep)) ⟨_, run.extend hreads hstep⟩ rfl

/-- A child that writes more than fits before it closes `stdout` never closes it. -/
def Blocked (s : State) : Prop :=
  s.parent = .readFile .stdout ∧ (s.pipe .stdout).writers = true

theorem Blocked.step (h : Blocked s) (hkept : Kept capacity timeoutMs script s)
    (hahead : capacity .stderr < ahead true script) {a : Action} (hreads : ReadsAll s a)
    (hstep : Step capacity timeoutMs exitCode s a t) : Blocked t := by
  have hbacklog := hkept.backlog h.1 h.2
  have hroom := hkept.room
  cases hstep with
  | exit child running =>
      rw [child, ahead] at hbacklog
      omega
  | @close fd rest child =>
      cases fd with
      | stdout =>
          rw [child, ahead] at hbacklog
          omega
      | stderr => exact ⟨h.1, by simpa using h.2⟩
  | @write fd byte rest child writers room => cases fd <;> exact ⟨h.1, by simpa using h.2⟩
  | fail child closed => exact h
  | @endOfPipe fd _ pc empty closed =>
      obtain rfl := ParentPc.readFile.inj (pc.symm.trans h.1)
      cases closed.symm.trans h.2
  | @read fd _ pc some available =>
      obtain rfl := ParentPc.readFile.inj (pc.symm.trans h.1)
      exact ⟨h.1, by simpa using h.2⟩
  | readNothing pc => exact hreads.elim
  | timedOut pc running => cases pc.symm.trans h.1
  | waited pc exited => cases pc.symm.trans h.1

theorem blocked_of_reachable (hahead : capacity .stderr < ahead true script)
    (hs : ReachableUnder (executeCommandWindows capacity timeoutMs exitCode script) ReadsAll s) :
    Blocked s := by
  obtain ⟨as, run⟩ := hs
  refine run.invariant (fun _ => Blocked) ⟨rfl, rfl⟩ fun as s a t run hreads hstep hs => ?_
  exact hs.step (kept_of_reachable ⟨as, run⟩) hahead hreads (step_cases hstep)

theorem length_add_left_le {as : List Action}
    (run : Run (executeCommandWindows capacity timeoutMs exitCode script) Unrestricted as s) :
    as.length + left s ≤ 2 * script.length + 4 := by
  refine run.invariant (fun as s => as.length + left s ≤ 2 * script.length + 4) ?_ ?_
  · simp [left, executeCommandWindows, parentLeft]
  · intro as s a t _ _ hstep hs
    have hless := left_step (step_cases hstep)
    rw [List.length_append, List.length_singleton]
    omega

/-- What a call that returns has captured. -/
theorem text_of_returned
    (hs : ReachableUnder (executeCommandWindows capacity timeoutMs exitCode script) ReadsAll s)
    (hreturned : s.parent = .returned) (fd : Stream) (hzero : 0 ∉ through fd true script) :
    s.result.text fd = through fd true script ∨
      fd = .stderr ∧
        s.result.text fd = through fd true script ++ timeoutMessage timeoutMs.toNat := by
  have hkept := kept_of_reachable hs
  obtain ⟨hclosed, hempty⟩ := hkept.past fd (hreturned ▸ trivial)
  obtain ⟨chunks, hscript, htext⟩ := hkept.captured fd
  rw [hclosed, hempty, through_closed, List.append_nil, List.append_nil] at hscript
  rw [← hscript] at hzero ⊢
  rw [captured_eq_iff.mpr hzero] at htext
  exact htext.imp_right And.right

/-- Every run comes to an end. If no `ReadFile` fails or reads nothing, the call returns at the
end of all of them exactly if the pipe of `stderr` holds what the child writes to it before it
closes `stdout`; otherwise it never returns, whatever the timeout is. -/
theorem returns_iff (hcapacity : ∀ fd, 0 < capacity fd) :
    (∀ as s, Run (executeCommandWindows capacity timeoutMs exitCode script) Unrestricted as s →
      as.length ≤ 2 * script.length + 4) ∧
    ((∀ s, ReachableUnder (executeCommandWindows capacity timeoutMs exitCode script) ReadsAll s →
        (∀ a, ReadsAll s a → step capacity timeoutMs exitCode s a = none) →
        s.parent = .returned) ↔
      ahead true script ≤ capacity .stderr) ∧
    (capacity .stderr < ahead true script →
      ∀ s, ReachableUnder (executeCommandWindows capacity timeoutMs exitCode script) ReadsAll s →
        s.parent = .readFile .stdout) ∧
    ∀ s, ReachableUnder (executeCommandWindows capacity timeoutMs exitCode script) ReadsAll s →
      s.parent = .returned → ∀ fd, 0 ∉ through fd true script →
        s.result.text fd = through fd true script ∨ fd = .stderr ∧
          s.result.text fd = through fd true script ++ timeoutMessage timeoutMs.toNat := by
  refine ⟨fun as s run => Nat.le_of_add_right_le (length_add_left_le run), ?_,
    fun hahead s hs => (blocked_of_reachable hahead hs).1, fun s hs => text_of_returned hs⟩
  constructor
  · intro hreturns
    by_contra hahead
    have hinit : ReachableUnder (executeCommandWindows capacity timeoutMs exitCode script) ReadsAll
        (executeCommandWindows capacity timeoutMs exitCode script).init := ⟨[], .start⟩
    obtain ⟨s, hs, hstuck⟩ := exists_stuck hinit
    have hblocked := blocked_of_reachable (Nat.lt_of_not_le hahead) hs
    cases hblocked.1.symm.trans (hreturns s hs hstuck)
  · intro hahead s hs hstuck
    by_contra hreturned
    obtain ⟨a, t, hreads, hstep⟩ := exists_step hcapacity hahead (kept_of_reachable hs) hreturned
    cases (hstuck a hreads).symm.trans hstep

/-- A pipe of four bytes, and five bytes of messages before the end of the output. -/
theorem returns_iff_four : ¬∀ s,
    ReachableUnder (executeCommandWindows (fun _ => 4) 1000 0
      (List.replicate 5 (.write .stderr 65))) ReadsAll s →
    (∀ a, ReadsAll s a → step (fun _ => 4) 1000 0 s a = none) → s.parent = .returned := by
  refine mt (returns_iff fun _ => ?_).2.1.mp (by decide)
  decide

end Deadlock

end SkUtils.Process.WindowsPipes
