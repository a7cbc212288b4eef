import SkUtils.Concurrency.ThreadPoolTasks
import SkUtils.Concurrency.ThreadPoolWakeup

/-!
A thread that submits its tasks to a `ThreadPool`, one after the other, and then gets all their
futures. A worker that invokes a task takes the steps of its body on a state that all share; the
steps of the pool are those of `doWork` and `submit`.
-/

namespace SkUtils.Concurrency.PoolFutures

open SkUtils.Library.Processes
open SkUtils.Library.TransitionSystem
open SkUtils.Concurrency.ThreadPool
open SkUtils.Concurrency.ThreadPoolTasks
open SkUtils.Concurrency.ThreadPoolWakeup

/-- The caller is about to push task `i`, to notify a worker of it, or to get its future; or it has
all futures. -/
inductive CallerPc
  | push (i : Nat)
  | notify (i : Nat)
  | get (i : Nat)
  | returned
  deriving DecidableEq

variable {n : Nat} {σ α : Type*}

/-- `bodies` are the steps that the tasks have still to do, `ready` the tasks whose futures are
ready. -/
structure State (n : Nat) (σ α : Type*) where
  pool : ThreadPool.State n Nat
  shared : σ
  bodies : List (List α)
  ready : List Nat
  caller : CallerPc

/-- `caller` has the worker that a `notify_one` wakes. -/
inductive Action (n : Nat)
  | caller (woken : Option (Fin n))
  | work (w : Fin n)
  | spurious (w : Fin n)

def Action.isSpurious : Action n → Bool
  | .spurious _ => true
  | _ => false

section Code

variable (perform : σ → α → Option σ)

def callerStep (s : State n σ α) (woken : Option (Fin n)) : Option (State n σ α) :=
  match s.caller with
  | .push i =>
      if i < s.bodies.length then
        (ThreadPool.step s.pool (.push i)).map fun pool => { s with pool, caller := .notify i }
      else some { s with caller := .get 0 }
  | .notify i =>
      (ThreadPool.step s.pool (.notifyOne woken)).map fun pool =>
        { s with pool, caller := .push (i + 1) }
  | .get i =>
      if i < s.bodies.length then
        if i ∈ s.ready then some { s with caller := .get (i + 1) } else none
      else some { s with caller := .returned }
  | .returned => none

/-- The future of a task is ready when its `std::packaged_task` returns. -/
def workerStep (s : State n σ α) (w : Fin n) : Option (State n σ α) :=
  match s.pool.workers w with
  | .invoke i =>
      match s.bodies[i]? with
      | some (next :: rest) =>
          (perform s.shared next).map fun shared => { s with shared, bodies := s.bodies.set i rest }
      | _ =>
          (ThreadPool.step s.pool (.work w)).map fun pool =>
            { s with pool, ready := s.ready ++ [i] }
  | _ => (ThreadPool.step s.pool (.work w)).map fun pool => { s with pool }

def step (s : State n σ α) : Action n → Option (State n σ α)
  | .caller woken => callerStep s woken
  | .work w => workerStep perform s w
  | .spurious w => (ThreadPool.step s.pool (.spurious w)).map fun pool => { s with pool }

/-- The caller with a new pool of `n` workers. -/
def client (n : Nat) (shared : σ) (bodies : List (List α)) : System (State n σ α) (Action n) where
  init := { pool := (pool n Nat).init, shared, bodies, ready := [], caller := .push 0 }
  step := step perform

end Code

section Moves

variable {perform : σ → α → Option σ} {s t : State n σ α}

/-- What a step does to the pool, the bodies and the caller. -/
inductive Move (perform : σ → α → Option σ) (s : State n σ α) : Action n → State n σ α → Prop
  | push {i : Nat} {woken : Option (Fin n)} {pool : ThreadPool.State n Nat}
      (pc : s.caller = .push i) (hi : i < s.bodies.length)
      (hpool : ThreadPool.step s.pool (.push i) = some pool) :
      Move perform s (.caller woken) { s with pool, caller := .notify i }
  | submitted {i : Nat} {woken : Option (Fin n)} (pc : s.caller = .push i)
      (hi : s.bodies.length ≤ i) : Move perform s (.caller woken) { s with caller := .get 0 }
  | notify {i : Nat} {woken : Option (Fin n)} {pool : ThreadPool.State n Nat}
      (pc : s.caller = .notify i) (hpool : ThreadPool.step s.pool (.notifyOne woken) = some pool) :
      Move perform s (.caller woken) { s with pool, caller := .push (i + 1) }
  | get {i : Nat} {woken : Option (Fin n)} (pc : s.caller = .get i) (hi : i < s.bodies.length)
      (ready : i ∈ s.ready) : Move perform s (.caller woken) { s with caller := .get (i + 1) }
  | returned {i : Nat} {woken : Option (Fin n)} (pc : s.caller = .get i)
      (hi : s.bodies.length ≤ i) : Move perform s (.caller woken) { s with caller := .returned }
  | body {w : Fin n} {i : Nat} {next : α} {rest : List α} {shared : σ}
      (pc : s.pool.workers w = .invoke i) (hbody : s.bodies[i]? = some (next :: rest))
      (hperform : perform s.shared next = some shared) :
      Move perform s (.work w) { s with shared, bodies := s.bodies.set i rest }
  | finish {w : Fin n} {i : Nat} {pool : ThreadPool.State n Nat}
      (pc : s.pool.workers w = .invoke i)
      (hbody : ∀ next rest, s.bodies[i]? ≠ some (next :: rest))
      (hpool : ThreadPool.step s.pool (.work w) = some pool) :
      Move perform s (.work w) { s with pool, ready := s.ready ++ [i] }
  | work {w : Fin n} {pool : ThreadPool.State n Nat} (pc : ∀ i, s.pool.workers w ≠ .invoke i)
      (hpool : ThreadPool.step s.pool (.work w) = some pool) :
      Move perform s (.work w) { s with pool }
  | spurious {w : Fin n} {pool : ThreadPool.State n Nat}
      (hpool : ThreadPool.step s.pool (.spurious w) = some pool) :
      Move perform s (.spurious w) { s with pool }

theorem callerStep_cases {woken : Option (Fin n)} (h : callerStep s woken = some t) :
    Move perform s (.caller woken) t := by
  unfold callerStep at h
  split at h
  case h_1 i pc =>
    split at h
    case isTrue hi =>
      obtain ⟨pool, hpool, rfl⟩ := Option.map_eq_some_iff.mp h
      exact .push pc hi hpool
    case isFalse hi =>
      obtain rfl := Option.some.inj h
      exact .submitted pc (Nat.not_lt.mp hi)
  case h_2 i pc =>
    obtain ⟨pool, hpool, rfl⟩ := Option.map_eq_some_iff.mp h
    exact .notify pc hpool
  case h_3 i pc =>
    split at h
    case isTrue hi =>
      obtain ⟨hready, rfl⟩ := guarded_step h
      exact .get pc hi hready
    case isFalse hi =>
      obtain rfl := Option.some.inj h
      exact .returned pc (Nat.not_lt.mp hi)
  case h_4 => cases h

theorem workerStep_cases {w : Fin n} (h : workerStep perform s w = some t) :
    Move perform s (.work w) t := by
  unfold workerStep at h
  split at h
  case h_1 i pc =>
    split at h
    case h_1 next rest hbody =>
      obtain ⟨shared, hperform, rfl⟩ := Option.map_eq_some_iff.mp h
      exact .body pc hbody hperform
    case h_2 hbody =>
      obtain ⟨pool, hpool, rfl⟩ := Option.map_eq_some_iff.mp h
      exact .finish pc hbody hpool
  case h_2 pc =>
    obtain ⟨pool, hpool, rfl⟩ := Option.map_eq_some_iff.mp h
    exact .work pc hpool

theorem move_of_step {a : Action n} (h : step perform s a = some t) : Move perform s a t := by
  cases a with
  | caller woken => exact callerStep_cases h
  | work w => exact workerStep_cases h
  | spurious w =>
      obtain ⟨pool, hpool, rfl⟩ := Option.map_eq_some_iff.mp h
      exact .spurious hpool

theorem Move.caller_eq {a : Action n} (h : Move perform s a t)
    (hother : ∀ woken, a ≠ .caller woken) : t.caller = s.caller := by
  cases h with
  | body _ _ _ => rfl
  | finish _ _ _ => rfl
  | work _ _ => rfl
  | spurious _ => rfl
  | _ => exact absurd rfl (hother _)

theorem Move.shutdown_eq {a : Action n} (h : Move perform s a t) :
    t.pool.shutdown = s.pool.shutdown := by
  cases h with
  | push _ _ hpool =>
      cases step_cases hpool with
      | push _ => rfl
  | notify _ hpool => cases step_cases hpool <;> rfl
  | finish _ _ hpool =>
      cases step_cases hpool with
      | work hwork => exact hwork.shutdown_eq
  | work _ hpool =>
      cases step_cases hpool with
      | work hwork => exact hwork.shutdown_eq
  | spurious hpool =>
      cases step_cases hpool with
      | spurious _ => rfl
  | _ => rfl

end Moves

section Invariant

/-- The tasks that have been pushed. -/
def State.submitted (s : State n σ α) : Nat :=
  match s.caller with
  | .push i => i
  | .notify i => i + 1
  | .get _ => s.bodies.length
  | .returned => s.bodies.length

/-- The calls of `submit` between their push and their `notify_one`. -/
def CallerPc.submitting : CallerPc → Nat
  | .notify _ => 1
  | _ => 0

/-- What the caller has behind it. -/
def CallerPc.HasGot (count : Nat) (ready : List Nat) : CallerPc → Prop
  | .push i => i ≤ count
  | .notify i => i < count
  | .get i => ∀ j < i, j ∈ ready
  | .returned => ∀ j < count, j ∈ ready

/-- The pool has been given the submitted tasks in order, and has invoked those whose futures are
ready. -/
structure Consistent (s : State n σ α) : Prop where
  run : ∃ as, Run (pool n Nat) Unrestricted as s.pool ∧ pushed as = List.range s.submitted ∧
    invoked as = s.ready
  alive : s.pool.shutdown = .notCalled
  submitting : s.pool.submitting = s.caller.submitting
  done : ∀ i ∈ s.ready, s.bodies[i]? = some []
  caller : s.caller.HasGot s.bodies.length s.ready

variable {perform : σ → α → Option σ} {s t : State n σ α}

theorem consistent_init (shared : σ) (bodies : List (List α)) :
    Consistent (client perform n shared bodies).init where
  run := ⟨[], .start, rfl, rfl⟩
  alive := rfl
  submitting := rfl
  done := fun _ h => nomatch h
  caller := Nat.zero_le _

theorem Consistent.submitted_le (h : Consistent s) : s.submitted ≤ s.bodies.length := by
  have hcaller := h.caller
  rw [State.submitted]
  cases hpc : s.caller with
  | push i =>
      rw [hpc] at hcaller
      exact hcaller
  | notify i =>
      rw [hpc] at hcaller
      exact Nat.succ_le_of_lt hcaller
  | get i => exact le_rfl
  | returned => exact le_rfl

/-- Every submitted task is ready, in the hands of one worker or queued. -/
theorem Consistent.conserved (h : Consistent s) :
    (s.ready : Multiset Nat) + ∑ w, held (s.pool.workers w) + (s.pool.workQueue : Multiset Nat) =
      Multiset.range s.submitted := by
  obtain ⟨as, run, hpushed, hinvoked⟩ := h.run
  have hconserved := conserved_of_run run
  rw [Conserved, hpushed, hinvoked] at hconserved
  exact hconserved

theorem Consistent.lt_of_held (h : Consistent s) {w : Fin n} {i : Nat}
    (hi : i ∈ held (s.pool.workers w)) : i < s.bodies.length := by
  have hle : held (s.pool.workers w) ≤ ∑ v, held (s.pool.workers v) :=
    Finset.single_le_sum (f := fun v => held (s.pool.workers v)) (fun _ _ => Multiset.zero_le _)
      (Finset.mem_univ w)
  have hmem : i ∈ Multiset.range s.submitted := by
    rw [← h.conserved]
    exact Multiset.mem_add.mpr (.inl (Multiset.mem_add.mpr (.inr (Multiset.mem_of_le hle hi))))
  exact (Multiset.mem_range.mp hmem).trans_le h.submitted_le

/-- The run of the pool behind a step that is none of the caller's pushes. -/
theorem Consistent.extend (h : Consistent s) {a : ThreadPool.Action n Nat}
    {pool' : ThreadPool.State n Nat} (hpool : ThreadPool.step s.pool a = some pool') :
    ∃ as, Run (pool n Nat) Unrestricted as pool' ∧
      pushed as = List.range s.submitted ++ pushedTask a ∧
      invoked as = s.ready ++ invokedTask s.pool a := by
  obtain ⟨as, run, hpushed, hinvoked⟩ := h.run
  refine ⟨as ++ [a], run.extend trivial hpool, ?_, ?_⟩
  · rw [pushed_extend, hpushed]
  · rw [invoked, run.outputs_extend, ← invoked, hinvoked]

theorem HasGot.append {pc : CallerPc} {count : Nat} {ready : List Nat}
    (h : pc.HasGot count ready) (i : Nat) : pc.HasGot count (ready ++ [i]) := by
  cases pc with
  | push j => exact h
  | notify j => exact h
  | get j => exact fun k hk => List.mem_append_left _ (h k hk)
  | returned => exact fun k hk => List.mem_append_left _ (h k hk)

theorem Consistent.worker (h : Consistent s) {w : Fin n} {pool' : ThreadPool.State n Nat}
    (hpool : ThreadPool.step s.pool (.work w) = some pool')
    (hdone : ∀ i ∈ s.ready ++ invokedTask s.pool (.work w), s.bodies[i]? = some [])
    (hcaller : s.caller.HasGot s.bodies.length (s.ready ++ invokedTask s.pool (.work w))) :
    Consistent { s with pool := pool', ready := s.ready ++ invokedTask s.pool (.work w) } := by
  obtain ⟨as, run, hpushed, hinvoked⟩ := h.extend hpool
  cases step_cases hpool with
  | work hwork =>
      refine ⟨⟨as, run, ?_, hinvoked⟩, hwork.shutdown_eq.trans h.alive,
        hwork.submitting_eq.trans h.submitting, hdone, hcaller⟩
      rw [hpushed]
      exact List.append_nil _

theorem Consistent.notify (h : Consistent s) {i : Nat} {woken : Option (Fin n)}
    {pool' : ThreadPool.State n Nat} (pc : s.caller = .notify i)
    (hpool : ThreadPool.step s.pool (.notifyOne woken) = some pool') :
    Consistent { s with pool := pool', caller := .push (i + 1) } := by
  obtain ⟨as, run, hpushed, hinvoked⟩ := h.extend hpool
  have hsubmitting := h.submitting
  have hcaller := h.caller
  rw [pc] at hsubmitting hcaller
  have hkept : pool'.shutdown = s.pool.shutdown ∧ pool'.submitting = s.pool.submitting - 1 := by
    cases step_cases hpool with
    | notifyOne _ _ => exact ⟨rfl, rfl⟩
    | notifyNobody _ _ => exact ⟨rfl, rfl⟩
  refine ⟨⟨as, run, ?_, ?_⟩, hkept.1.trans h.alive, ?_, h.done, hcaller⟩
  · rw [hpushed, State.submitted, pc]
    exact List.append_nil _
  · rw [hinvoked]
    exact List.append_nil _
  · rw [hkept.2, hsubmitting]
    rfl

theorem Consistent.body (h : Consistent s) {i : Nat} {next : α} {rest : List α}
    (hbody : s.bodies[i]? = some (next :: rest)) (shared : σ) :
    Consistent { s with shared, bodies := s.bodies.set i rest } := by
  have hlength : (s.bodies.set i rest).length = s.bodies.length := List.length_set
  obtain ⟨as, run, hpushed, hinvoked⟩ := h.run
  refine ⟨⟨as, run, ?_, hinvoked⟩, h.alive, h.submitting, ?_, ?_⟩
  · rw [hpushed, State.submitted, State.submitted, hlength]
  · intro j hj
    have hdone := h.done j hj
    have hij : i ≠ j := by
      rintro rfl
      cases hbody.symm.trans hdone
    rw [List.getElem?_set_ne hij]
    exact hdone
  · rw [hlength]
    exact h.caller

theorem Consistent.move {a : Action n} (h : Consistent s) (hmove : Move perform s a t) :
    Consistent t := by
  have hsubmitting := h.submitting
  have hcaller := h.caller
  cases hmove with
  | push pc hi hpool =>
      obtain ⟨as, run, hpushed, hinvoked⟩ := h.extend hpool
      rw [pc] at hsubmitting
      cases step_cases hpool with
      | push alive =>
          refine ⟨⟨as, run, ?_, ?_⟩, h.alive, congrArg (· + 1) hsubmitting, h.done, hi⟩
          · rw [hpushed, State.submitted, pc]
            exact List.range_succ.symm
          · rw [hinvoked]
            exact List.append_nil _
  | submitted pc hi =>
      obtain ⟨as, run, hpushed, hinvoked⟩ := h.run
      rw [pc] at hsubmitting hcaller
      refine ⟨⟨as, run, ?_, hinvoked⟩, h.alive, hsubmitting, h.done, fun _ hj => nomatch hj⟩
      rw [hpushed, State.submitted, pc]
      exact congrArg List.range (Nat.le_antisymm hcaller hi)
  | notify pc hpool => exact h.notify pc hpool
  | get pc hi ready =>
      obtain ⟨as, run, hpushed, hinvoked⟩ := h.run
      rw [State.submitted, pc] at hpushed
      rw [pc] at hsubmitting hcaller
      refine ⟨⟨as, run, hpushed, hinvoked⟩, h.alive, hsubmitting, h.done, fun j hj => ?_⟩
      rcases Nat.lt_succ_iff_lt_or_eq.mp hj with hlt | rfl
      · exact hcaller j hlt
      · exact ready
  | returned pc hi =>
      obtain ⟨as, run, hpushed, hinvoked⟩ := h.run
      rw [State.submitted, pc] at hpushed
      rw [pc] at hsubmitting hcaller
      exact ⟨⟨as, run, hpushed, hinvoked⟩, h.alive, hsubmitting, h.done,
        fun j hj => hcaller j (hj.trans_le hi)⟩
  | body pc hbody hperform => exact h.body hbody _
  | @finish w i pool' pc hbody hpool =>
      have hinvoked : invokedTask s.pool (.work w) = [i] := by rw [invokedTask, pc]
      have hlt : i < s.bodies.length :=
        h.lt_of_held (by rw [pc]; exact Multiset.mem_singleton_self i)
      have hempty : s.bodies[i]? = some [] := by
        cases hget : s.bodies[i]? with
        | none => exact absurd hlt (Nat.not_lt.mpr (List.getElem?_eq_none_iff.mp hget))
        | some body =>
            cases body with
            | nil => rfl
            | cons next rest => exact absurd hget (hbody next rest)
      have hworker := h.worker hpool
      rw [hinvoked] at hworker
      refine hworker (fun j hj => ?_) (HasGot.append hcaller i)
      rcases List.mem_append.mp hj with hj | hj
      · exact h.done j hj
      · rw [List.mem_singleton.mp hj]
        exact hempty
  | @work w pool' pc hpool =>
      have hinvoked : invokedTask s.pool (.work w) = [] := by
        rw [invokedTask]
        split
        case h_1 i hpc => exact absurd hpc (pc i)
        case h_2 => rfl
      have hworker := h.worker hpool
      rw [hinvoked, List.append_nil] at hworker
      exact hworker h.done hcaller
  | spurious hpool =>
      obtain ⟨as, run, hpushed, hinvoked⟩ := h.extend hpool
      cases step_cases hpool with
      | spurious blocked =>
          refine ⟨⟨as, run, hpushed.trans (List.append_nil _), hinvoked.trans (List.append_nil _)⟩,
            h.alive, hsubmitting, h.done, hcaller⟩

theorem Consistent.of_reachable {shared : σ} {bodies : List (List α)}
    (h : Reachable (client perform n shared bodies) s) : Consistent s :=
  h.invariant Consistent (consistent_init shared bodies)
    fun _ _ _ hstep hs => hs.move (move_of_step hstep)

/-- When the caller has all futures, every task has been invoked once, and the pool is idle. -/
theorem Consistent.returned (h : Consistent s) (hcaller : s.caller = .returned) :
    s.ready.Perm (List.range s.bodies.length) ∧ s.pool.workQueue = [] ∧
      (∀ w, held (s.pool.workers w) = 0) ∧ ∀ body ∈ s.bodies, body = [] := by
  have hgot := h.caller
  have hconserved := h.conserved
  rw [State.submitted, hcaller] at hconserved
  rw [hcaller] at hgot
  have hle : Multiset.range s.bodies.length ≤ (s.ready : Multiset Nat) :=
    (Multiset.le_iff_subset (Multiset.nodup_range _)).mpr fun i hi =>
      Multiset.mem_coe.mpr (hgot i (Multiset.mem_range.mp hi))
  have hrest : ∑ w, held (s.pool.workers w) + (s.pool.workQueue : Multiset Nat) = 0 := by
    rw [← hconserved, add_assoc] at hle
    exact Multiset.le_zero.mp ((add_le_iff_nonpos_right _).mp hle)
  have hready : (s.ready : Multiset Nat) = Multiset.range s.bodies.length := by
    rw [add_assoc, hrest, add_zero] at hconserved
    exact hconserved
  obtain ⟨hheld, hqueue⟩ := add_eq_zero.mp hrest
  refine ⟨Multiset.coe_eq_coe.mp hready, Multiset.coe_eq_zero _ |>.mp hqueue,
    fun w => Finset.sum_eq_zero_iff.mp hheld w (Finset.mem_univ w), fun body hbody => ?_⟩
  obtain ⟨i, hi, hget⟩ := List.mem_iff_getElem.mp hbody
  have hdone := h.done i (hgot i hi)
  rw [List.getElem?_eq_getElem hi, hget] at hdone
  exact Option.some.inj hdone

end Invariant

section Progress

/-- Whoever has locked `mtx_` stands in its critical section. -/
def HolderInside (s : ThreadPool.State n Nat) : Prop :=
  ∀ v, s.mtx = some v → (s.workers v).holdsLock = true

variable {p q : ThreadPool.State n Nat}

theorem HolderInside.goto (h : HolderInside p) {w : Fin n} {pc : WorkerPc Nat}
    (hpc : (p.workers w).holdsLock = true → pc.holdsLock = true) : HolderInside (p.goto w pc) := by
  intro v hv
  have hheld := h v hv
  rw [State.goto_workers]
  rcases eq_or_ne v w with rfl | hvw
  · rw [Function.update_self]
    exact hpc hheld
  · rw [Function.update_of_ne hvw]
    exact hheld

theorem holderInside_acquire (w : Fin n) {pc : WorkerPc Nat} (hpc : pc.holdsLock = true) :
    HolderInside { p.goto w pc with mtx := some w } := by
  intro v hv
  obtain rfl : w = v := Option.some.inj hv
  change (Function.update p.workers w pc w).holdsLock = true
  rw [Function.update_self]
  exact hpc

theorem holderInside_of_free (h : q.mtx = none) : HolderInside q := by
  intro v hv
  rw [h] at hv
  cases hv

theorem HolderInside.work {w : Fin n} (h : HolderInside p) (hwork : Work p w q) :
    HolderInside q := by
  cases hwork with
  | enter pc _ => exact h.goto (by simp [pc, WorkerPc.holdsLock])
  | leave pc _ => exact h.goto (by simp [pc, WorkerPc.holdsLock])
  | acquire _ _ => exact holderInside_acquire w rfl
  | seeEmpty _ _ => exact h.goto fun _ => rfl
  | seeTask _ _ => exact h.goto fun _ => rfl
  | block _ => exact holderInside_of_free rfl
  | reacquire _ _ => exact holderInside_acquire w rfl
  | pop _ => exact h.goto fun _ => rfl
  | retry _ => exact holderInside_of_free rfl
  | start _ => exact holderInside_of_free rfl
  | finish pc => exact h.goto (by simp [pc, WorkerPc.holdsLock])

theorem HolderInside.transition {a : ThreadPool.Action n Nat} (h : HolderInside p)
    (htransition : Transition p a q) : HolderInside q := by
  cases htransition with
  | notifyOne _ blocked =>
      exact h.goto (by simp [eq_blocked_of_isBlocked blocked, WorkerPc.holdsLock])
  | work hwork => exact h.work hwork
  | spurious blocked =>
      exact h.goto (by simp [eq_blocked_of_isBlocked blocked, WorkerPc.holdsLock])
  | notifyAll _ =>
      intro v hv
      have hheld := h v hv
      rcases notifyAll_workers p v with ⟨hblocked, -⟩ | ⟨-, hsame⟩
      · rw [hblocked] at hheld
        cases hheld
      · exact hsame ▸ hheld
  | _ => exact h

theorem exists_doWork_of_holdsLock {w : Fin n} (h : (p.workers w).holdsLock = true) :
    ∃ q, doWork p w = some q := by
  rw [doWork]
  cases hpc : p.workers w with
  | testEmpty => exact ⟨_, rfl⟩
  | wait => exact ⟨_, rfl⟩
  | pop => exact ⟨_, rfl⟩
  | unlock taskOpt =>
      cases taskOpt with
      | none => exact ⟨_, rfl⟩
      | some task => exact ⟨_, rfl⟩
  | _ =>
      rw [hpc] at h
      cases h

/-- A worker that is neither blocked nor gone can step, or waits for one that can. -/
theorem exists_doWork {w : Fin n} (h : HolderInside p) (hblocked : p.workers w ≠ .blocked)
    (hexited : p.workers w ≠ .exited) : ∃ v q, doWork p v = some q := by
  cases hmtx : p.mtx with
  | some v =>
      obtain ⟨q, hstep⟩ := exists_doWork_of_holdsLock (h v hmtx)
      exact ⟨v, q, hstep⟩
  | none =>
      refine ⟨w, ?_⟩
      rw [doWork]
      cases hpc : p.workers w with
      | blocked => exact absurd hpc hblocked
      | exited => exact absurd hpc hexited
      | lock => exact ⟨_, if_pos hmtx⟩
      | woken => exact ⟨_, if_pos hmtx⟩
      | unlock taskOpt =>
          cases taskOpt with
          | none => exact ⟨_, rfl⟩
          | some task => exact ⟨_, rfl⟩
      | _ => exact ⟨_, rfl⟩

variable {perform : σ → α → Option σ} {s t : State n σ α} {shared : σ} {bodies : List (List α)}

/-- No step of a body fails in this state. -/
def BodiesSafe (perform : σ → α → Option σ) (s : State n σ α) : Prop :=
  ∀ (i : Nat) next rest, s.bodies[i]? = some (next :: rest) →
    ∃ shared, perform s.shared next = some shared

theorem exists_workerStep (hsafe : BodiesSafe perform s) {w : Fin n}
    (h : ∃ q, doWork s.pool w = some q) : ∃ t, step perform s (.work w) = some t := by
  obtain ⟨q, hpool⟩ := h
  have hpool' : ThreadPool.step s.pool (.work w) = some q := hpool
  rw [step, workerStep, hpool']
  split
  case h_1 i pc =>
    split
    case h_1 next rest hbody =>
      obtain ⟨shared, hperform⟩ := hsafe i next rest hbody
      rw [hperform]
      exact ⟨_, rfl⟩
    case h_2 => exact ⟨_, rfl⟩
  case h_2 => exact ⟨_, rfl⟩

/-- The run of the pool in a run of the client, which never shuts it down. -/
theorem reachable_pool (h : Reachable (client perform n shared bodies) s) :
    Reachable (pool n Nat) s.pool :=
  let ⟨as, run, _⟩ := (Consistent.of_reachable h).run
  ⟨as, run⟩

theorem holderInside_of_reachable (h : Reachable (pool n Nat) p) : HolderInside p := by
  refine h.invariant HolderInside ?_ fun _ _ _ hstep hs => hs.transition (step_cases hstep)
  intro v hv
  simp [pool] at hv

theorem wakeupInvariant_of_reachable (hn : 2 ≤ n) (h : Reachable (pool n Nat) p) :
    WakeupInvariant p :=
  (reachableUnder_notifyHeard hn h).invariant WakeupInvariant wakeupInvariant_init
    fun _ _ _ hheard hstep hs => hs.transition hheard (step_cases hstep)

variable (perform) in
/-- The caller can go on, unless it waits for a future that is not ready. -/
theorem Consistent.exists_callerStep (h : Consistent s) (hcaller : s.caller ≠ .returned)
    (hready : ∀ i, s.caller = .get i → i < s.bodies.length → i ∈ s.ready) :
    ∃ woken t, step perform s (.caller woken) = some t := by
  have hsubmitting := h.submitting
  cases hpc : s.caller with
  | push i =>
      refine ⟨none, ?_⟩
      rw [step, callerStep, hpc]
      dsimp only
      split
      · have hpush : ThreadPool.step s.pool (.push i) = some _ := if_pos (.inl h.alive)
        rw [hpush]
        exact ⟨_, rfl⟩
      · exact ⟨_, rfl⟩
  | notify i =>
      rw [hpc] at hsubmitting
      have hpending : 0 < s.pool.submitting := by
        rw [hsubmitting]
        exact Nat.one_pos
      rcases em (∃ w, (s.pool.workers w).isBlocked = true) with ⟨w, hw⟩ | hnobody
      · refine ⟨some w, ?_⟩
        have hnotify : ThreadPool.step s.pool (.notifyOne (some w)) = some _ :=
          (if_pos hpending).trans (if_pos hw)
        rw [step, callerStep, hpc]
        dsimp only
        rw [hnotify]
        exact ⟨_, rfl⟩
      · refine ⟨none, ?_⟩
        have hnotify : ThreadPool.step s.pool (.notifyOne none) = some _ :=
          (if_pos hpending).trans (if_pos fun w => by simpa using not_exists.mp hnobody w)
        rw [step, callerStep, hpc]
        dsimp only
        rw [hnotify]
        exact ⟨_, rfl⟩
  | get i =>
      refine ⟨none, ?_⟩
      rw [step, callerStep, hpc]
      dsimp only
      split
      case isTrue hi =>
        rw [if_pos (hready i hpc hi)]
        exact ⟨_, rfl⟩
      case isFalse => exact ⟨_, rfl⟩
  | returned => exact absurd hpc hcaller

/-- No future is waited for in vain, as long as every `notify_one` is heard. -/
theorem Consistent.exists_step (h : Consistent s) (hinside : HolderInside s.pool)
    (hinv : WakeupInvariant s.pool) (hsafe : BodiesSafe perform s)
    (hcaller : s.caller ≠ .returned) :
    ∃ a t, Action.isSpurious a = false ∧ step perform s a = some t := by
  have hworker : ∀ w, s.pool.workers w ≠ .blocked → s.pool.workers w ≠ .exited →
      ∃ a t, Action.isSpurious a = false ∧ step perform s a = some t := by
    intro w hblocked hexited
    obtain ⟨v, hv⟩ := exists_doWork hinside hblocked hexited
    obtain ⟨t, ht⟩ := exists_workerStep hsafe hv
    exact ⟨.work v, t, rfl, ht⟩
  rcases em (∀ i, s.caller = .get i → i < s.bodies.length → i ∈ s.ready) with hready | hready
  · obtain ⟨woken, t, ht⟩ := h.exists_callerStep perform hcaller hready
    exact ⟨.caller woken, t, rfl, ht⟩
  · obtain ⟨i, hpc, hi, hnot⟩ : ∃ i, s.caller = .get i ∧ i < s.bodies.length ∧ i ∉ s.ready := by
      simpa using hready
    have hsubmitting := h.submitting
    rw [hpc] at hsubmitting
    rcases hinv.heard h.alive with hempty | hpending | ⟨w, -, hblocked, hexited⟩
    · -- the task of the future is in the hands of a worker
      have hmem : i ∈ Multiset.range s.submitted := by
        rw [State.submitted, hpc]
        exact Multiset.mem_range.mpr hi
      rw [← h.conserved, hempty, Multiset.coe_nil, add_zero] at hmem
      rcases Multiset.mem_add.mp hmem with hmem | hmem
      · exact absurd (Multiset.mem_coe.mp hmem) hnot
      · obtain ⟨w, -, hw⟩ := Multiset.mem_sum.mp hmem
        refine hworker w ?_ ?_
        · intro hblocked
          rw [hblocked] at hw
          exact absurd hw (Multiset.notMem_zero i)
        · intro hexited
          rw [hexited] at hw
          exact absurd hw (Multiset.notMem_zero i)
    · exact absurd hsubmitting (Nat.ne_of_gt hpending)
    · exact hworker w hblocked hexited

/-- With two workers every `notify_one` is heard. -/
theorem exists_step_of_two_le (hn : 2 ≤ n) (h : Reachable (client perform n shared bodies) s)
    (hsafe : BodiesSafe perform s) (hcaller : s.caller ≠ .returned) :
    ∃ a t, Action.isSpurious a = false ∧ step perform s a = some t :=
  (Consistent.of_reachable h).exists_step (holderInside_of_reachable (reachable_pool h))
    (wakeupInvariant_of_reachable hn (reachable_pool h)) hsafe hcaller

end Progress

section Length

/-- The steps of a worker until it blocks, as long as it finds no task. -/
def workerCost : WorkerPc Nat → Nat
  | .testRunning => 4
  | .lock => 3
  | .testEmpty => 2
  | .wait => 1
  | .blocked => 0
  | .woken => 8
  | .pop => 7
  | .unlock none => 5
  | .unlock (some _) => 6
  | .invoke _ => 5
  | .exited => 0

def isPopping : WorkerPc Nat → Nat
  | .pop => 1
  | _ => 0

/-- A queued task costs as long as no worker is about to pop it. -/
def poolCost (p : ThreadPool.State n Nat) : Nat :=
  ∑ w, workerCost (p.workers w) +
    10 * (p.workQueue.length - ∑ w, isPopping (p.workers w))

def callerCost (count : Nat) : CallerPc → Nat
  | .push i => 20 * (count - i) + count + 2
  | .notify i => 20 * (count - (i + 1)) + 9 + count + 2
  | .get i => count - i + 1
  | .returned => 0

def cost (s : State n σ α) : Nat :=
  poolCost s.pool + callerCost s.bodies.length s.caller + s.bodies.flatten.length

variable {p q : ThreadPool.State n Nat}

theorem poolCost_move {w : Fin n} {pc : WorkerPc Nat}
    (hworkers : q.workers = Function.update p.workers w pc) :
    ∑ v, workerCost (q.workers v) + workerCost (p.workers w) =
        ∑ v, workerCost (p.workers v) + workerCost pc ∧
      ∑ v, isPopping (q.workers v) + isPopping (p.workers w) =
        ∑ v, isPopping (p.workers v) + isPopping pc := by
  rw [hworkers]
  exact ⟨sum_update_weight workerCost p.workers w pc, sum_update_weight isPopping p.workers w pc⟩

theorem poolCost_lt {w : Fin n} {pc : WorkerPc Nat}
    (hworkers : q.workers = Function.update p.workers w pc)
    (hqueue : q.workQueue = p.workQueue) (hcost : workerCost pc < workerCost (p.workers w))
    (hpop : isPopping (p.workers w) ≤ isPopping pc) : poolCost q < poolCost p := by
  obtain ⟨hcosts, hpops⟩ := poolCost_move hworkers
  rw [poolCost, poolCost, hqueue]
  omega

/-- While a worker is in its critical section no other one is about to pop. -/
theorem isPopping_eq_zero (h : LockHeld p) {w : Fin n} (hw : (p.workers w).holdsLock = true)
    (hpop : p.workers w ≠ .pop) : ∑ v, isPopping (p.workers v) = 0 := by
  refine Finset.sum_eq_zero fun v _ => ?_
  cases hpc : p.workers v with
  | pop =>
      have hv := h v (by rw [hpc]; rfl)
      obtain rfl : v = w := Option.some.inj (hv.symm.trans (h w hw))
      exact absurd hpc hpop
  | _ => rfl

theorem poolCost_work (h : LockHeld p) {w : Fin n} (hwork : Work p w q) :
    poolCost q < poolCost p := by
  cases hwork with
  | enter pc _ => exact poolCost_lt rfl rfl (by rw [pc]; decide) (by rw [pc]; decide)
  | leave pc _ => exact poolCost_lt rfl rfl (by rw [pc]; decide) (by rw [pc]; decide)
  | acquire pc _ => exact poolCost_lt rfl rfl (by rw [pc]; decide) (by rw [pc]; decide)
  | seeEmpty pc _ => exact poolCost_lt rfl rfl (by rw [pc]; decide) (by rw [pc]; decide)
  | block pc => exact poolCost_lt rfl rfl (by rw [pc]; decide) (by rw [pc]; decide)
  | reacquire pc _ => exact poolCost_lt rfl rfl (by rw [pc]; decide) (by rw [pc]; decide)
  | retry pc => exact poolCost_lt rfl rfl (by rw [pc]; decide) (by rw [pc]; decide)
  | start pc =>
      exact poolCost_lt rfl rfl (by rw [pc]; exact Nat.lt_add_one 5) (by rw [pc]; exact le_rfl)
  | finish pc =>
      exact poolCost_lt rfl rfl (by rw [pc]; exact Nat.lt_add_one 4) (by rw [pc]; exact le_rfl)
  | seeTask pc hne =>
      -- the task that has been seen is not counted any more
      have hnone := isPopping_eq_zero h (w := w) (by rw [pc]; rfl) (by rw [pc]; nofun)
      have hlength := List.length_pos_of_ne_nil hne
      obtain ⟨hcosts, hpops⟩ := poolCost_move (p := p) (q := p.goto w .pop) rfl
      rw [pc] at hcosts hpops
      change _ + 2 = _ + 7 at hcosts
      change _ + 0 = _ + 1 at hpops
      rw [poolCost, poolCost]
      change _ + 10 * (p.workQueue.length - _) < _
      omega
  | pop pc =>
      obtain ⟨hcosts, hpops⟩ := poolCost_move (p := p) (q :=
        { p.goto w (.unlock p.workQueue.head?) with workQueue := p.workQueue.tail }) rfl
      rw [pc] at hcosts hpops
      have hunlock : workerCost (.unlock p.workQueue.head?) ≤ 6 := by
        cases p.workQueue.head? with
        | none => exact Nat.le_succ 5
        | some task => exact le_rfl
      change _ + 7 = _ + workerCost _ at hcosts
      change _ + 1 = _ + 0 at hpops
      rw [poolCost, poolCost, List.length_tail]
      omega

/-- Only `push`, `notify_one` and a spurious wakeup make the pool do more. -/
theorem poolCost_push {i : Nat} (h : ThreadPool.step p (.push i) = some q) :
    poolCost q ≤ poolCost p + 10 := by
  cases step_cases h with
  | push _ =>
      rw [poolCost, poolCost, List.length_append, List.length_singleton]
      dsimp only
      omega

theorem poolCost_woken {w : Fin n} (hblocked : (p.workers w).isBlocked = true)
    (hworkers : q.workers = Function.update p.workers w .woken)
    (hqueue : q.workQueue = p.workQueue) : poolCost q = poolCost p + 8 := by
  obtain ⟨hcosts, hpops⟩ := poolCost_move hworkers
  rw [eq_blocked_of_isBlocked hblocked] at hcosts hpops
  change _ + 0 = _ + 8 at hcosts
  change _ + 0 = _ + 0 at hpops
  rw [poolCost, poolCost, hqueue]
  omega

theorem poolCost_notifyOne {woken : Option (Fin n)}
    (h : ThreadPool.step p (.notifyOne woken) = some q) : poolCost q ≤ poolCost p + 8 := by
  cases step_cases h with
  | notifyOne _ blocked => exact (poolCost_woken blocked (q := { p.goto _ .woken with
      submitting := p.submitting - 1 }) rfl rfl).le
  | notifyNobody _ _ => exact Nat.le_add_right _ _

/-- A `notify_all` wakes every blocked worker. -/
theorem poolCost_notifyAll (p : ThreadPool.State n Nat) :
    poolCost (notifyAll p) ≤ poolCost p + 8 * n := by
  have hworker : ∀ w, workerCost ((notifyAll p).workers w) ≤ workerCost (p.workers w) + 8 := by
    intro w
    rcases notifyAll_workers p w with ⟨hblocked, hwoken⟩ | ⟨-, hsame⟩
    · rw [hblocked, hwoken]
      exact le_rfl
    · rw [hsame]
      exact Nat.le_add_right _ _
  have hcosts :
      ∑ w, workerCost ((notifyAll p).workers w) ≤ ∑ w, workerCost (p.workers w) + n * 8 := by
    have heights : ∑ _w : Fin n, 8 = n * 8 :=
      (Finset.sum_const_nat fun _ _ => rfl).trans (by rw [Finset.card_univ, Fintype.card_fin])
    refine (Finset.sum_le_sum fun w _ => hworker w).trans ?_
    rw [Finset.sum_add_distrib, heights]
  have hpops : ∑ w, isPopping ((notifyAll p).workers w) = ∑ w, isPopping (p.workers w) := by
    refine Finset.sum_congr rfl fun w _ => ?_
    rcases notifyAll_workers p w with ⟨hblocked, hwoken⟩ | ⟨-, hsame⟩
    · rw [hblocked, hwoken]
      rfl
    · rw [hsame]
  rw [poolCost, poolCost, hpops]
  change _ + 10 * (p.workQueue.length - _) ≤ _
  omega

theorem length_flatten_set {lists : List (List α)} {i : Nat} {next : α} {rest : List α}
    (h : lists[i]? = some (next :: rest)) :
    (lists.set i rest).flatten.length + 1 = lists.flatten.length := by
  induction lists generalizing i with
  | nil => cases h
  | cons body lists ih =>
      cases i with
      | zero =>
          obtain rfl : body = next :: rest := Option.some.inj h
          simp only [List.set_cons_zero, List.flatten_cons, List.length_append, List.length_cons]
          omega
      | succ i =>
          have hrest := ih h
          simp only [List.set_cons_succ, List.flatten_cons, List.length_append]
          omega

variable {perform : σ → α → Option σ} {s t : State n σ α} {shared : σ} {bodies : List (List α)}

/-- A step lowers the cost of what is to come, and a spurious wakeup raises it by 8. -/
theorem cost_move {a : Action n} (hlock : LockHeld s.pool) (h : Move perform s a t) :
    cost t + 1 ≤ cost s + if a.isSpurious then 9 else 0 := by
  cases h with
  | push pc hi hpool =>
      have hcost := poolCost_push hpool
      simp only [cost, pc, callerCost, Action.isSpurious]
      omega
  | submitted pc hi =>
      simp only [cost, pc, callerCost, Action.isSpurious]
      omega
  | notify pc hpool =>
      have hcost := poolCost_notifyOne hpool
      simp only [cost, pc, callerCost, Action.isSpurious]
      omega
  | get pc hi ready =>
      simp only [cost, pc, callerCost, Action.isSpurious]
      omega
  | returned pc hi =>
      simp only [cost, pc, callerCost, Action.isSpurious]
      omega
  | body pc hbody hperform =>
      have hlength := length_flatten_set hbody
      simp only [cost, List.length_set, Action.isSpurious]
      omega
  | finish pc hbody hpool =>
      cases step_cases hpool with
      | work hwork =>
          have hcost := poolCost_work hlock hwork
          simp only [cost, Action.isSpurious]
          omega
  | work pc hpool =>
      cases step_cases hpool with
      | work hwork =>
          have hcost := poolCost_work hlock hwork
          simp only [cost, Action.isSpurious]
          omega
  | @spurious w pool' hpool =>
      cases step_cases hpool with
      | spurious blocked =>
          have hcost := poolCost_woken blocked (State.goto_workers s.pool w .woken) rfl
          simp only [cost, Action.isSpurious, if_true]
          omega

theorem lockHeld_of_reachable (h : Reachable (pool n Nat) p) : LockHeld p :=
  h.invariant LockHeld wakeupInvariant_init.lockHeld
    fun _ _ _ hstep hs => hs.transition (step_cases hstep)

theorem cost_init : cost (client perform n shared bodies).init =
    4 * n + 21 * bodies.length + 2 + bodies.flatten.length := by
  have hpool : poolCost (pool n Nat).init = 4 * n := by
    have hworkers : ∑ w, workerCost ((pool n Nat).init.workers w) = n * 4 :=
      (Finset.sum_const_nat fun _ _ => rfl).trans (by rw [Finset.card_univ, Fintype.card_fin])
    rw [poolCost, hworkers]
    change n * 4 + 10 * (0 - _) = _
    omega
  rw [cost]
  change poolCost (pool n Nat).init + (20 * (bodies.length - 0) + bodies.length + 2) + _ = _
  rw [hpool]
  change 4 * n + _ + bodies.flatten.length = _
  omega

/-- Each run is finite, as long as only finitely many wakeups are spurious. -/
theorem length_run {as : List (Action n)}
    (run : Run (client perform n shared bodies) Unrestricted as s) :
    as.length + cost s ≤ 4 * n + 21 * bodies.length + 2 + bodies.flatten.length +
      9 * as.countP Action.isSpurious := by
  refine run.invariant (fun as s => as.length + cost s ≤ _ + 9 * as.countP Action.isSpurious) ?_ ?_
  · rw [cost_init]
    exact (Nat.zero_add _).le
  · intro as s a t hrun _ hstep has
    have hlock := lockHeld_of_reachable (reachable_pool hrun.reachable)
    have hmove := cost_move hlock (move_of_step hstep)
    rw [List.length_append, List.length_singleton, List.countP_append, List.countP_singleton]
    cases hspurious : a.isSpurious with
    | true =>
        rw [hspurious] at hmove
        simp only [if_true] at hmove ⊢
        omega
    | false =>
        rw [hspurious] at hmove
        simp only [Bool.false_eq_true, if_false] at hmove ⊢
        omega

end Length

section Stuck

variable {perform : σ → α → Option σ} {shared : σ} {bodies : List (List α)}

/-- No task has been invoked, and all workers stand at `pc`. -/
def uninvoked (mtx : Option (Fin n)) (pc : WorkerPc Nat) (shared : σ) (bodies : List (List α))
    (workQueue : List Nat) (caller : CallerPc) : State n σ α where
  pool := { (pool n Nat).init with mtx, workQueue, workers := fun _ => pc }
  shared := shared
  bodies := bodies
  ready := []
  caller := caller

theorem exec_push (mtx : Option (Fin n)) (workQueue : List Nat) {i : Nat}
    (hi : i < bodies.length) :
    exec (client perform n shared bodies) (uninvoked mtx .wait shared bodies workQueue (.push i))
      [.caller none, .caller none] =
        some (uninvoked mtx .wait shared bodies (workQueue ++ [i]) (.push (i + 1))) := by
  have hpush : step perform (uninvoked mtx .wait shared bodies workQueue (.push i)) (.caller none) =
      some _ := if_pos hi
  have hnotify : ∀ p : ThreadPool.State n Nat, 0 < p.submitting →
      (∀ w, (!(p.workers w).isBlocked) = true) →
      ThreadPool.step p (.notifyOne none) = some { p with submitting := p.submitting - 1 } :=
    fun p hp hw => (if_pos hp).trans (if_pos hw)
  refine Option.bind_eq_some_iff.mpr ⟨_, hpush, Option.bind_eq_some_iff.mpr ⟨_, ?_, rfl⟩⟩
  exact Option.map_eq_some_iff.mpr ⟨_, hnotify _ Nat.one_pos fun _ => rfl, rfl⟩

variable (perform shared bodies)

/-- All pushes fall between the empty test of the workers and their wait. -/
theorem exec_pushes (mtx : Option (Fin n)) {count : Nat} (hcount : count ≤ bodies.length) :
    ∃ as workQueue, exec (client perform n shared bodies)
      (uninvoked mtx .wait shared bodies [] (.push 0)) as =
        some (uninvoked mtx .wait shared bodies workQueue (.push count)) := by
  induction count with
  | zero => exact ⟨[], [], rfl⟩
  | succ count ih =>
      obtain ⟨as, workQueue, hexec⟩ := ih (Nat.le_of_succ_le hcount)
      exact ⟨_, _, exec_append hexec (exec_push mtx workQueue hcount)⟩

theorem exec_submitted (mtx : Option (Fin n)) :
    ∃ as workQueue, exec (client perform n shared bodies)
      (uninvoked mtx .wait shared bodies [] (.push 0)) as =
        some (uninvoked mtx .wait shared bodies workQueue (.get 0)) := by
  obtain ⟨as, workQueue, hexec⟩ := exec_pushes perform shared bodies mtx (le_refl bodies.length)
  have hget : (client perform n shared bodies).step
      (uninvoked mtx .wait shared bodies workQueue (.push bodies.length)) (.caller none) =
        some (uninvoked mtx .wait shared bodies workQueue (.get 0)) :=
    if_neg (lt_irrefl bodies.length)
  exact ⟨_, _, exec_append hexec (exec_singleton hget)⟩

variable {perform shared bodies}

/-- The caller waits for its first future, and all workers are blocked. -/
theorem isSpurious_of_stuck (hbodies : bodies ≠ []) {workQueue : List Nat} {a : Action n}
    {t : State n σ α}
    (h : step perform (uninvoked none .blocked shared bodies workQueue (.get 0)) a = some t) :
    a.isSpurious = true := by
  cases a with
  | caller woken =>
      have hwaits : step perform (uninvoked none .blocked shared bodies workQueue (.get 0))
          (.caller woken) = none := if_pos (List.length_pos_of_ne_nil hbodies)
      rw [hwaits] at h
      cases h
  | work w => cases h
  | spurious w => rfl

theorem reachable_stuck_zero :
    ∃ workQueue, Reachable (client perform 0 shared bodies)
      (uninvoked none .blocked shared bodies workQueue (.get 0)) := by
  have hworkers : ∀ pc : WorkerPc Nat, (fun _ => pc : Fin 0 → WorkerPc Nat) = fun _ => .blocked :=
    fun _ => funext fun w => w.elim0
  obtain ⟨as, workQueue, hexec⟩ := exec_submitted (n := 0) perform shared bodies none
  have hinit : (client perform 0 shared bodies).init =
      uninvoked none .wait shared bodies [] (.push 0) := by
    rw [uninvoked, hworkers .wait, ← hworkers .testRunning]
    rfl
  have hlast : (uninvoked none .wait shared bodies workQueue (.get 0) : State 0 σ α) =
      uninvoked none .blocked shared bodies workQueue (.get 0) := by
    rw [uninvoked, hworkers .wait]
    rfl
  rw [← hinit, hlast] at hexec
  exact ⟨workQueue, reachable_of_exec hexec⟩

theorem reachable_stuck_one :
    ∃ workQueue, Reachable (client perform 1 shared bodies)
      (uninvoked none .blocked shared bodies workQueue (.get 0)) := by
  have hupdate : ∀ (workers : Fin 1 → WorkerPc Nat) (pc : WorkerPc Nat),
      Function.update workers 0 pc = fun _ => pc := by
    intro workers pc
    funext w
    obtain rfl : w = 0 := Subsingleton.elim w 0
    exact Function.update_self ..
  obtain ⟨as, workQueue, hexec⟩ := exec_submitted perform shared bodies (some (0 : Fin 1))
  have hfirst : exec (client perform 1 shared bodies) (client perform 1 shared bodies).init
      [.work 0, .work 0, .work 0] = some (uninvoked (some 0) .wait shared bodies [] (.push 0)) := by
    rw [uninvoked, ← hupdate (Function.update (Function.update (fun _ => .testRunning) 0 .lock) 0
      .testEmpty)]
    rfl
  have hlast : (client perform 1 shared bodies).step
      (uninvoked (some 0) .wait shared bodies workQueue (.get 0)) (.work 0) =
        some (uninvoked none .blocked shared bodies workQueue (.get 0)) := by
    rw [uninvoked, uninvoked, ← hupdate (fun _ => .wait) .blocked]
    rfl
  have hall := exec_append hfirst (exec_append hexec (exec_singleton hlast))
  exact ⟨workQueue, reachable_of_exec hall⟩

/-- One worker at most, and it looks into the queue before the first push and blocks behind the
last `notify_one`. -/
theorem exists_stuck (hn : n < 2) (hbodies : bodies ≠ []) :
    ∃ s, Reachable (client perform n shared bodies) s ∧ s.caller ≠ .returned ∧
      ∀ a t, step perform s a = some t → Action.isSpurious a = true := by
  obtain ⟨workQueue, hs⟩ : ∃ workQueue, Reachable (client perform n shared bodies)
      (uninvoked none .blocked shared bodies workQueue (.get 0)) := by
    obtain rfl | rfl : n = 0 ∨ n = 1 := by omega
    · exact reachable_stuck_zero
    · exact reachable_stuck_one
  exact ⟨_, hs, nofun, fun a t => isSpurious_of_stuck hbodies⟩

end Stuck

end SkUtils.Concurrency.PoolFutures
