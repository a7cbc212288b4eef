import Mathlib.Data.Fin.Basic
import SkUtils.Concurrency.ThreadPool
import SkUtils.Library.Processes

/-!
Wakeups of `ThreadPool`. The push of `submit` and its `notify_one` are not made
under `mtx_`, so the notification may fall between the empty test of a worker
and its wait. It is lost only when every worker stands there, which the mutex
excludes as soon as there are two of them.
-/

namespace SkUtils.Concurrency.ThreadPoolWakeup

open SkUtils.Library.Processes
open SkUtils.Library.TransitionSystem
open SkUtils.Concurrency.ThreadPool

variable {n : Nat} {τ : Type*}

/-- A task is queued, every worker is blocked in `cv_.wait`, and no `submit` has
its `notify_one` still to come. -/
def LostWakeup (s : State n τ) : Prop :=
  s.workQueue ≠ [] ∧ (∀ w, s.workers w = .blocked) ∧ s.submitting = 0

def IsAttentive (pc : WorkerPc τ) : Prop :=
  pc ≠ .wait ∧ pc ≠ .blocked ∧ pc ≠ .exited

/-- A `notify_one` is heard when it finds a worker that is not between its empty
test and its wait. -/
def NotifyHeard (s : State n τ) : Action n τ → Prop
  | .notifyOne _ => ∃ w, s.workers w ≠ .wait
  | _ => True

def Heard (s : State n τ) : Prop :=
  s.workQueue = [] ∨ 0 < s.submitting ∨ ∃ w, IsAttentive (s.workers w)

theorem Heard.not_lostWakeup {s : State n τ} (h : Heard s) : ¬ LostWakeup s := by
  rintro ⟨hqueue, hblocked, hsubmitting⟩
  rcases h with hempty | hpending | ⟨w, hw⟩
  · exact hqueue hempty
  · omega
  · exact hw.2.1 (hblocked w)

theorem isAttentive_of_goto {s t : State n τ} {w : Fin n} {pc : WorkerPc τ}
    (ht : t.workers = Function.update s.workers w pc) (hpc : IsAttentive pc) :
    Heard t :=
  .inr (.inr ⟨w, by simpa [ht] using hpc⟩)

structure WakeupInvariant (s : State n τ) : Prop where
  lockHeld : LockHeld s
  isRunning : s.shutdown = .notCalled → s.isRunning = true
  nobodyExited : s.shutdown = .notCalled → ∀ w, s.workers w ≠ .exited
  heard : s.shutdown = .notCalled → Heard s

theorem wakeupInvariant_init : WakeupInvariant (pool n τ).init where
  lockHeld := by
    intro w hw
    simp [pool, WorkerPc.holdsLock] at hw
  isRunning := fun _ => rfl
  nobodyExited := by
    intro _ w
    simp [pool]
  heard := fun _ => .inl rfl

theorem wakeupInvariant_of_called {s : State n τ} (hlock : LockHeld s)
    (called : s.shutdown ≠ .notCalled) : WakeupInvariant s where
  lockHeld := hlock
  isRunning := fun halive => absurd halive called
  nobodyExited := fun halive => absurd halive called
  heard := fun halive => absurd halive called

theorem nobodyExited_goto {s : State n τ} (h : ∀ w, s.workers w ≠ .exited)
    {w : Fin n} {pc : WorkerPc τ} (hpc : pc ≠ .exited) :
    ∀ v, (s.goto w pc).workers v ≠ .exited :=
  forall_update (P := fun pc : WorkerPc τ => pc ≠ .exited) h hpc

/-- A worker only stops being attentive by seeing the queue empty, or because
the pool has been stopped. -/
theorem WakeupInvariant.work {s t : State n τ} {w : Fin n} (h : WakeupInvariant s)
    (hwork : Work s w t) : WakeupInvariant t where
  lockHeld := h.lockHeld.work hwork
  isRunning := by
    cases hwork <;> exact h.isRunning
  nobodyExited := by
    intro halive
    cases hwork with
    | leave _ stopped =>
        have hrunning := h.isRunning halive
        simp [stopped] at hrunning
    | _ => exact nobodyExited_goto (h.nobodyExited halive) (by simp)
  heard := by
    intro halive
    cases hwork with
    | leave _ stopped =>
        have hrunning := h.isRunning halive
        simp [stopped] at hrunning
    | seeEmpty _ empty => exact .inl empty
    | block pc =>
        rcases h.heard halive with hempty | hpending | ⟨v, hv⟩
        · exact .inl hempty
        · exact .inr (.inl hpending)
        · have hvw : v ≠ w := by
            rintro rfl
            exact hv.1 pc
          exact .inr (.inr ⟨v, by simpa [Function.update_of_ne hvw] using hv⟩)
    | _ => exact isAttentive_of_goto rfl (by simp [IsAttentive])

theorem WakeupInvariant.transition {s t : State n τ} {a : Action n τ}
    (h : WakeupInvariant s) (hheard : NotifyHeard s a) (htransition : Transition s a t) :
    WakeupInvariant t := by
  have hlock := h.lockHeld.transition htransition
  cases htransition with
  | push _ =>
      exact
        { lockHeld := hlock
          isRunning := h.isRunning
          nobodyExited := h.nobodyExited
          heard := fun _ => .inr (.inl (Nat.succ_pos _)) }
  | notifyOne _ _ =>
      exact
        { lockHeld := hlock
          isRunning := h.isRunning
          nobodyExited := fun halive =>
            nobodyExited_goto (h.nobodyExited halive) (by simp)
          heard := fun _ => isAttentive_of_goto rfl (by simp [IsAttentive]) }
  | notifyNobody _ nobody =>
      obtain ⟨w, hw⟩ := hheard
      have hblocked : s.workers w ≠ .blocked := by
        intro hpc
        have := nobody w
        simp [hpc, WorkerPc.isBlocked] at this
      exact
        { lockHeld := hlock
          isRunning := h.isRunning
          nobodyExited := h.nobodyExited
          heard := fun halive =>
            .inr (.inr ⟨w, hw, hblocked, h.nobodyExited halive w⟩) }
  | work hwork => exact h.work hwork
  | spurious _ =>
      exact
        { lockHeld := hlock
          isRunning := h.isRunning
          nobodyExited := fun halive =>
            nobodyExited_goto (h.nobodyExited halive) (by simp)
          heard := fun _ => isAttentive_of_goto rfl (by simp [IsAttentive]) }
  | stop _ => exact wakeupInvariant_of_called hlock (by simp)
  | notifyAll _ => exact wakeupInvariant_of_called hlock (by simp)
  | join _ _ _ => exact wakeupInvariant_of_called hlock (by simp)

theorem not_lostWakeup_of_notifyHeard {s : State n τ}
    (h : ReachableUnder (pool n τ) NotifyHeard s) (alive : s.shutdown = .notCalled) :
    ¬ LostWakeup s := by
  have hinv : WakeupInvariant s :=
    h.invariant WakeupInvariant wakeupInvariant_init
      fun _ _ _ hheard hstep hs => hs.transition hheard (step_cases hstep)
  exact (hinv.heard alive).not_lostWakeup

theorem notifyHeard_of_two_le (hn : 2 ≤ n) {s : State n τ} (h : LockHeld s)
    (a : Action n τ) : NotifyHeard s a := by
  cases a with
  | notifyOne woken =>
      by_contra hnobody
      have hwait : ∀ w, s.workers w = .wait := by
        simpa [NotifyHeard] using hnobody
      have hfirst := h ⟨0, by omega⟩ (by simp [hwait, WorkerPc.holdsLock])
      have hsecond := h ⟨1, by omega⟩ (by simp [hwait, WorkerPc.holdsLock])
      simp [hfirst] at hsecond
  | _ => trivial

theorem reachableUnder_notifyHeard (hn : 2 ≤ n) {s : State n τ}
    (h : Reachable (pool n τ) s) : ReachableUnder (pool n τ) NotifyHeard s := by
  obtain ⟨as, run⟩ := h
  have hboth : LockHeld s ∧ Run (pool n τ) NotifyHeard as s := by
    refine run.invariant (fun as s => LockHeld s ∧ Run (pool n τ) NotifyHeard as s)
      ⟨wakeupInvariant_init.lockHeld, .start⟩ ?_
    rintro as s a t _ _ hstep ⟨hlock, hrun⟩
    exact ⟨hlock.transition (step_cases hstep),
      hrun.extend (notifyHeard_of_two_le hn hlock a) hstep⟩
  exact ⟨as, hboth.2⟩

/-- The only worker has seen the queue empty when the task is pushed and
notified, and blocks after the notification. -/
def lostSchedule (task : τ) : List (Action 1 τ) :=
  [.work (Fin.last 0), .work (Fin.last 0), .work (Fin.last 0), .push task, .notifyOne none,
    .work (Fin.last 0)]

theorem lostWakeup_one_worker (task : τ) :
    ∃ s, Reachable (pool 1 τ) s ∧ s.shutdown = .notCalled ∧ LostWakeup s := by
  have hrun : exec (pool 1 τ) (pool 1 τ).init (lostSchedule task) = some _ := rfl
  refine ⟨_, reachable_of_exec hrun, rfl, ?_, ?_, rfl⟩
  · simp
  · intro w
    rw [Subsingleton.elim w 0]
    rfl

theorem lostWakeup_no_worker (task : τ) :
    ∃ s, Reachable (pool 0 τ) s ∧ s.shutdown = .notCalled ∧ LostWakeup s := by
  have hrun : exec (pool 0 τ) (pool 0 τ).init [.push task, .notifyOne none] = some _ := rfl
  refine ⟨_, reachable_of_exec hrun, rfl, ?_, ?_, rfl⟩
  · simp
  · exact fun w => w.elim0

/-- The pool keeps every wakeup in each run whose notifications are heard, and
keeps them in all runs exactly when it has at least two workers. -/
theorem lostWakeup_free_iff (n : Nat) (task : τ) :
    (∀ s, ReachableUnder (pool n τ) NotifyHeard s → s.shutdown = .notCalled →
      ¬ LostWakeup s) ∧
    ((∀ s, Reachable (pool n τ) s → s.shutdown = .notCalled → ¬ LostWakeup s) ↔
      2 ≤ n) := by
  refine ⟨fun s h alive => not_lostWakeup_of_notifyHeard h alive, ?_, ?_⟩
  · intro hfree
    by_contra hn
    obtain rfl | rfl : n = 0 ∨ n = 1 := by omega
    · obtain ⟨s, hs, halive, hlost⟩ := lostWakeup_no_worker task
      exact hfree s hs halive hlost
    · obtain ⟨s, hs, halive, hlost⟩ := lostWakeup_one_worker task
      exact hfree s hs halive hlost
  · intro hn s hs alive
    exact not_lostWakeup_of_notifyHeard (reachableUnder_notifyHeard hn hs) alive

theorem lostWakeup_reachable :
    ∃ s, Reachable (pool 1 Nat) s ∧ s.shutdown = .notCalled ∧ LostWakeup s :=
  lostWakeup_one_worker 7

end SkUtils.Concurrency.ThreadPoolWakeup
