import SkUtils.Coroutine.EventLoopOrder

/-!
An `EventLoop` whose tasks may throw. `run` has no handler: the exception leaves it in the
middle of its batch, and `local` is destroyed on the way.
-/

namespace SkUtils.Coroutine.EventLoopThrow

open SkUtils.Library.TransitionSystem
open SkUtils.Coroutine.EventLoop
open SkUtils.Coroutine.EventLoopOrder

variable {τ : Type}

/-- `unwind`: the task that `run` has called throws. -/
inductive Event (τ : Type)
  | action (a : Action τ)
  | unwind

/-- `running_` is left as it is. -/
def unwind (s : State τ) : Option (State τ) :=
  if s.loop = .inTask then some { s with batch := [], loop := .returned } else none

def throwingLoop (τ : Type) : System (State τ) (Event τ) where
  init := (eventLoop τ).init
  step
    | s, .action a => step s a
    | s, .unwind => unwind s

def posted (s : State τ) : Event τ → List τ
  | .action a => (EventLoopOrder.posted s a).filterMap id
  | .unwind => []

/-- A task that throws has been executed. -/
def executed (s : State τ) : Event τ → List τ
  | .action a => EventLoopOrder.executed s a
  | .unwind => []

/-- The tasks of the batch behind the one that throws. -/
def lost (s : State τ) : Event τ → List τ
  | .action _ => []
  | .unwind => (remaining s).filterMap id

/-- The tasks that wait for their turn, in the batch and in `queue_`. -/
def pending (s : State τ) : List τ :=
  (remaining s ++ s.queue).filterMap id

/-- A task that throws is the last one of its batch. -/
def ThrowsLast (s : State τ) : Event τ → Prop
  | .action _ => True
  | .unwind => ∀ entry ∈ s.batch.tail, entry = none

theorem unwind_cases {s t : State τ} (h : unwind s = some t) :
    s.loop = .inTask ∧ t = { s with batch := [], loop := .returned } := by
  obtain ⟨hpc, rfl⟩ := guarded_step h
  exact ⟨hpc, rfl⟩

theorem batchLocal_of_reachable {s : State τ} (h : Reachable (throwingLoop τ) s) :
    BatchLocal s := by
  apply h.invariant BatchLocal
  · exact fun _ => rfl
  · intro s e t hstep hs
    cases e with
    | action a => exact hs.transition (step_cases hstep)
    | unwind =>
        obtain ⟨-, rfl⟩ := unwind_cases hstep
        exact fun _ => rfl

/-- What a step executes or loses comes off the front of what is pending, and what it
posts goes to the end. -/
theorem pending_step {s t : State τ} {e : Event τ} (hstep : (throwingLoop τ).step s e = some t)
    (hbatch : BatchLocal s) :
    executed s e ++ lost s e ++ pending t = pending s ++ posted s e := by
  cases e with
  | action a =>
      have htaken := congrArg (List.filterMap id) (taken_step (step_cases hstep) hbatch)
      rw [List.filterMap_append, List.filterMap_append (l := remaining s ++ s.queue)] at htaken
      rw [lost, List.append_nil, executed, executed_eq]
      exact htaken
  | unwind =>
      obtain ⟨hpc, rfl⟩ := unwind_cases hstep
      simp [executed, lost, pending, posted, remaining, hpc]

section Runs

variable {es : List (Event τ)} {s : State τ}

theorem length_of_run (run : Run (throwingLoop τ) Unrestricted es s) :
    (outputs (throwingLoop τ) executed (throwingLoop τ).init es).length +
        (outputs (throwingLoop τ) lost (throwingLoop τ).init es).length + (pending s).length =
      (outputs (throwingLoop τ) posted (throwingLoop τ).init es).length := by
  induction run with
  | start => rfl
  | extend run _ hstep ih =>
      have hlength := congrArg List.length
        (pending_step hstep (batchLocal_of_reachable run.reachable))
      rw [run.outputs_extend, run.outputs_extend, run.outputs_extend]
      simp only [List.length_append] at hlength ⊢
      omega

theorem executed_of_run (run : Run (throwingLoop τ) Unrestricted es s)
    (hlost : outputs (throwingLoop τ) lost (throwingLoop τ).init es = []) :
    outputs (throwingLoop τ) executed (throwingLoop τ).init es ++ pending s =
      outputs (throwingLoop τ) posted (throwingLoop τ).init es := by
  induction run with
  | start => rfl
  | @extend es s t e run _ hstep ih =>
      rw [run.outputs_extend] at hlost
      obtain ⟨hbefore, hnow⟩ := List.append_eq_nil_iff.mp hlost
      have hpending := pending_step hstep (batchLocal_of_reachable run.reachable)
      rw [hnow, List.append_nil] at hpending
      rw [run.outputs_extend, run.outputs_extend, ← ih hbefore, List.append_assoc, hpending,
        List.append_assoc]

theorem lost_eq_nil_iff {e : Event τ} {t : State τ}
    (hstep : (throwingLoop τ).step s e = some t) : lost s e = [] ↔ ThrowsLast s e := by
  cases e with
  | action a => exact iff_of_true rfl trivial
  | unwind =>
      obtain ⟨hpc, -⟩ := unwind_cases hstep
      simp [lost, ThrowsLast, remaining, hpc]

theorem lost_of_run_iff (run : Run (throwingLoop τ) Unrestricted es s) :
    outputs (throwingLoop τ) lost (throwingLoop τ).init es = [] ↔
      Run (throwingLoop τ) ThrowsLast es s := by
  refine run.iff_run_of_step
    (fun es _ => outputs (throwingLoop τ) lost (throwingLoop τ).init es = []) rfl
    fun es s e t run hstep => ?_
  rw [run.outputs_extend, List.append_eq_nil_iff, lost_eq_nil_iff hstep]

end Runs

section FollowingRun

/-- The steps `es` from `s` call `tasks`, in this order. -/
def Calls (s : State τ) (es : List (Event τ)) (tasks : List τ) : Prop :=
  ∃ t, exec (throwingLoop τ) s es = some t ∧ outputs (throwingLoop τ) executed s es = tasks

variable {s t : State τ} {tasks : List τ}

theorem Calls.cons {e : Event τ} {es : List (Event τ)}
    (hstep : (throwingLoop τ).step s e = some t) (h : Calls t es tasks) :
    Calls s (e :: es) (executed s e ++ tasks) := by
  obtain ⟨u, hexec, houtputs⟩ := h
  refine ⟨u, Option.bind_eq_some_iff.mpr ⟨t, hstep, hexec⟩, ?_⟩
  rw [outputs, hstep]
  exact congrArg _ houtputs

theorem Calls.loop {n : Nat} (hstep : runLoop s = some t)
    (h : Calls t (List.replicate n (.action .loop)) tasks) :
    Calls s (List.replicate (n + 1) (.action .loop)) (inTask t ++ tasks) := by
  have hcalls : Calls s (List.replicate (n + 1) (.action .loop)) _ := .cons hstep h
  have hexecuted : executed s (.action .loop) = inTask t := by
    rw [executed, EventLoopOrder.executed, hstep]
    rfl
  rwa [hexecuted] at hcalls

/-- A batch whose tasks return. -/
theorem calls_batch {batch : List (EventLoop.Task τ)} (hbatch : s.batch = batch)
    (pc : s.loop = .testLocal) :
    ∃ n, Calls s (List.replicate n (.action .loop)) (batch.filterMap id) := by
  induction batch generalizing s with
  | nil => exact ⟨0, s, rfl, rfl⟩
  | cons entry rest ih =>
      obtain ⟨n, hrest⟩ := @ih { s with batch := rest, loop := .testLocal } rfl rfl
      have hpop : runLoop { s with loop := .popLocal } =
          some { s with batch := rest, loop := .testLocal } := by
        simp [runLoop, hbatch]
      cases entry with
      | none =>
          refine ⟨n + 2, ?_⟩
          have hskip : runLoop s = some { s with loop := .popLocal } := by
            simp [runLoop, pc, hbatch]
          simpa [inTask] using (hrest.loop hpop).loop hskip
      | some task =>
          refine ⟨n + 3, ?_⟩
          have hreturn : runLoop { s with loop := .inTask } = some { s with loop := .popLocal } :=
            rfl
          have hcall : runLoop s = some { s with loop := .inTask } := by
            simp [runLoop, pc, hbatch]
          simpa [inTask, hbatch] using ((hrest.loop hpop).loop hreturn).loop hcall

/-- A call of `run` on a loop that has been left, whose tasks return. -/
theorem calls_run (pc : s.loop = .returned) (hbatch : BatchLocal s) :
    ∃ n, Calls s (.action .run :: List.replicate n (.action .loop)) (pending s) := by
  have hempty : s.batch = [] := hbatch (by simp [pc, IsDraining])
  have hpending : pending s = s.queue.filterMap id := by
    simp [pending, remaining, pc, hempty]
  have hrun : (throwingLoop τ).step s (.action .run) = some { s with loop := .storeRunning } := by
    simp [throwingLoop, step, pc]
  rw [hpending]
  by_cases hqueue : s.queue = []
  · rw [hqueue]
    exact ⟨0, .cons hrun ⟨_, rfl, rfl⟩⟩
  · obtain ⟨n, hdrain⟩ := @calls_batch τ
      { s with running := true, batch := s.queue, queue := [], loop := .testLocal } _ rfl rfl
    have hstore : runLoop { s with loop := .storeRunning } =
        some { s with running := true, loop := .testRunning } := rfl
    have henter : runLoop { s with running := true, loop := .testRunning } =
        some { s with running := true, batch := [], loop := .wait } := rfl
    have hswap : runLoop { s with running := true, batch := [], loop := .wait } =
        some { s with running := true, batch := s.queue, queue := [], loop := .testLocal } := by
      simp [runLoop, hqueue]
    exact ⟨n + 3, .cons hrun (((hdrain.loop hswap).loop henter).loop hstore)⟩

end FollowingRun

/-- The tasks executed and then those pending are the tasks posted, in this order, and
`run`, called again after it has been left, executes the pending ones. -/
theorem none_lost_iff (τ : Type) (es : List (Event τ)) (s : State τ)
    (run : Run (throwingLoop τ) Unrestricted es s) :
    (outputs (throwingLoop τ) executed (throwingLoop τ).init es ++ pending s =
        outputs (throwingLoop τ) posted (throwingLoop τ).init es ↔
      Run (throwingLoop τ) ThrowsLast es s) ∧
    (s.loop = .returned →
      ∃ n, Calls s (.action .run :: List.replicate n (.action .loop)) (pending s)) := by
  constructor
  · rw [← lost_of_run_iff run]
    refine ⟨fun heq => ?_, executed_of_run run⟩
    have hlength := congrArg List.length heq
    have hall := length_of_run run
    rw [List.length_append] at hlength
    exact List.length_eq_zero_iff.mp (by omega)
  · exact fun pc => calls_run pc (batchLocal_of_reachable run.reachable)

/-- Two tasks are posted before `run`, which calls the first. -/
def firstOfTwo : List (Event Nat) :=
  [.action (.post (some 1)), .action (.post (some 2)), .action .run, .action .loop,
    .action .loop, .action .loop, .action .loop]

theorem none_lost_iff_firstOfTwo :
    ∃ s, Run (throwingLoop Nat) Unrestricted (firstOfTwo ++ [.unwind]) s ∧
      (outputs (throwingLoop Nat) executed (throwingLoop Nat).init (firstOfTwo ++ [.unwind]) ++
            pending s =
          outputs (throwingLoop Nat) posted (throwingLoop Nat).init (firstOfTwo ++ [.unwind]) ↔
        Run (throwingLoop Nat) ThrowsLast (firstOfTwo ++ [.unwind]) s) := by
  have hexec : exec (throwingLoop Nat) (throwingLoop Nat).init (firstOfTwo ++ [.unwind]) =
      some _ := rfl
  have hrun := run_of_exec hexec
  exact ⟨_, hrun, (none_lost_iff Nat _ _ hrun).1⟩

/-- The second task is neither executed nor pending once the first has thrown. -/
theorem second_of_two_lost :
    ¬ ∀ (τ : Type) (es : List (Event τ)) (s : State τ),
      Run (throwingLoop τ) Unrestricted es s →
        outputs (throwingLoop τ) executed (throwingLoop τ).init es ++ pending s =
          outputs (throwingLoop τ) posted (throwingLoop τ).init es := by
  intro h
  have hexec : exec (throwingLoop Nat) (throwingLoop Nat).init (firstOfTwo ++ [.unwind]) =
      some _ := rfl
  have hposted : ([1] : List Nat) = [1, 2] := h Nat _ _ (run_of_exec hexec)
  exact absurd hposted (by decide)

end SkUtils.Coroutine.EventLoopThrow
