import SkUtils.Coroutine.TaskTrace
import SkUtils.Library.TransitionSystem

/-!
Both overloads of `sync_await` of `sync_await.h`: the caller resumes the coroutine `waiter`
and then blocks in `event.wait()`; `waiter` awaits the task. Where the task waits for an
external event, another thread resumes it. `wait` and `set` of the event are atomic.
-/

namespace SkUtils.Coroutine.SyncAwait

open SkUtils.Library.TracedMachine
open SkUtils.Library.TransitionSystem
open SkUtils.Coroutine.Task
open SkUtils.Coroutine.TaskTrace

inductive Overload
  | value
  | void
deriving DecidableEq

inductive Effect (U V : Type)
  | task (effect : U)
  | setResult (value : Option V)
  | eventSet

/-- Where the calling thread stands; `resuming` runs coroutines inside `resume()`. -/
inductive Caller (V : Type)
  | resuming
  | beforeWait
  | waiting
  | returned (result : Option V)

/-- The locals of `sync_await` that `waiter` captures: `event.ready` and `result`. -/
structure Captured (V : Type) where
  ready : Bool
  result : Option V

structure State (V E U : Type) where
  coroutines : Coroutines V E (Effect U V)
  captured : Captured V
  caller : Caller V

variable {V E U : Type}

def waiter (overload : Overload) (task : Body V E U) : Body V E (Effect U V) :=
  .coAwait (task.map .task) fun
    | .ok value =>
        match overload with
        | .value => .perform (.setResult value) (.perform .eventSet (.coReturn none))
        | .void => .perform .eventSet (.coReturn none)
    | .error e => .throw e

def Captured.perform (captured : Captured V) : Effect U V → Captured V
  | .task _ => captured
  | .setResult value => { captured with result := value }
  | .eventSet => { captured with ready := true }

/-- `resume()` returns to the caller when its thread has no coroutine left to run. -/
def Caller.afterStep (control : Control) : Caller V → Caller V
  | .resuming =>
      match control with
      | .running _ => .resuming
      | _ => .beforeWait
  | caller => caller

inductive Action
  | coroutine
  | caller
deriving DecidableEq

def step (s : State V E U) : Action → Option (State V E U)
  | .coroutine => do
      let (coroutines, effects) ← s.coroutines.step
      return {
        coroutines
        captured := effects.foldl Captured.perform s.captured
        caller := s.caller.afterStep coroutines.control }
  | .caller =>
      match s.caller with
      | .beforeWait => some { s with caller := .waiting }
      | .waiting =>
          if s.captured.ready then some { s with caller := .returned s.captured.result }
          else none
      | _ => none

def system (overload : Overload) (task : Body V E U) : System (State V E U) Action where
  init := {
    coroutines := .start (waiter overload task)
    captured := { ready := false, result := none }
    caller := .resuming }
  step := step

def State.WaiterDone (s : State V E U) : Prop :=
  AtFinal s.coroutines 0

def State.TaskDone (s : State V E U) : Prop :=
  AtFinal s.coroutines 1

def Overload.returns : Overload → Option V → Option V
  | .value, result => result
  | .void, _ => none

section Waiter

variable {overload : Overload} {task : Body V E U}

theorem waiter_effects_ok {value : Option V} (h : task.result = .ok value) :
    (waiter overload task).effects = task.effects.map .task ++
      match overload with
      | .value => [.setResult value, .eventSet]
      | .void => [.eventSet] := by
  simp only [waiter, Body.effects, Body.effects_map, Body.result_map, h]
  cases overload <;> rfl

theorem waiter_effects_error {e : E} (h : task.result = .error e) :
    (waiter overload task).effects = task.effects.map .task := by
  simp only [waiter, Body.effects, Body.effects_map, Body.result_map, h, List.append_nil]

theorem foldl_task (effects : List U) (captured : Captured V) :
    (effects.map Effect.task).foldl Captured.perform captured = captured := by
  induction effects with
  | nil => rfl
  | cons effect effects ih => exact ih

def capturedAfter (effects : List (Effect U V)) : Captured V :=
  effects.foldl Captured.perform { ready := false, result := none }

theorem capturedAfter_task {effects : List U} {done rest : List (Effect U V)}
    (h : effects.map Effect.task = done ++ rest) :
    capturedAfter done = { ready := false, result := none } := by
  obtain ⟨before, _, _, rfl, _⟩ := List.map_eq_append_iff.mp h
  exact foldl_task before _

/-- Once some of the effects of `waiter` have set the event, the task has returned, and
its value is stored. -/
theorem capturedAfter_ready {done rest : List (Effect U V)}
    (hsplit : (waiter overload task).effects = done ++ rest)
    (hready : (capturedAfter done).ready = true) :
    ∃ value, task.result = .ok value ∧
      (capturedAfter done).result = overload.returns value := by
  cases hresult : task.result with
  | error e =>
      rw [waiter_effects_error hresult] at hsplit
      rw [capturedAfter_task hsplit] at hready
      cases hready
  | ok value =>
      refine ⟨value, rfl, ?_⟩
      rw [waiter_effects_ok hresult] at hsplit
      rcases List.append_eq_append_iff.mp hsplit with ⟨own, rfl, hown⟩ | ⟨more, hmore, _⟩
      · rw [capturedAfter, List.foldl_append, foldl_task] at hready ⊢
        cases overload with
        | value =>
            rcases own with _ | ⟨first, _ | ⟨second, own⟩⟩
            · cases hready
            · obtain ⟨rfl, _⟩ := List.cons.inj hown
              cases hready
            · obtain ⟨rfl, htail⟩ := List.cons.inj hown
              obtain ⟨rfl, hnil⟩ := List.cons.inj htail
              obtain ⟨rfl, _⟩ := List.append_eq_nil_iff.mp hnil.symm
              rfl
        | void =>
            rcases own with _ | ⟨first, own⟩
            · cases hready
            · obtain ⟨rfl, htail⟩ := List.cons.inj hown
              obtain ⟨rfl, _⟩ := List.append_eq_nil_iff.mp htail.symm
              rfl
      · rw [capturedAfter_task hmore] at hready
        cases hready

theorem capturedAfter_waiter {value : Option V} (h : task.result = .ok value) :
    (capturedAfter (waiter overload task).effects).ready = true := by
  rw [waiter_effects_ok h, capturedAfter, List.foldl_append, foldl_task]
  cases overload <;> rfl

end Waiter

section Runs

variable {overload : Overload} {task : Body V E U}

/-- The coroutines of a reachable state are on their way to the end of `waiter`. -/
structure OnTheWay (overload : Overload) (task : Body V E U) (s : State V E U)
    (done rest : List (Effect U V)) (last : Coroutines V E (Effect U V)) : Prop where
  path : Path Coroutines.step s.coroutines rest last
  effects : (waiter overload task).effects = done ++ rest
  captured : s.captured = capturedAfter done
  root : RootInvariant s.coroutines
  resuming : s.caller = .resuming → ∃ h, s.coroutines.control = .running h
  returned : ∀ result, s.caller = .returned result →
    ∃ value, task.result = .ok value ∧ result = overload.returns value

structure Last (last : Coroutines V E (Effect U V)) : Prop where
  control : last.control = .returned
  waiter : AtFinal last 0
  task : AtFinal last 1

theorem exists_last (overload : Overload) (task : Body V E U) :
    ∃ last, Path Coroutines.step (.start (waiter overload task))
      (waiter overload task).effects last ∧ Last last := by
  obtain ⟨last, hpath, hdone⟩ := start_finishes (waiter overload task)
  obtain ⟨promise, hframe, _⟩ := hdone.frame
  refine ⟨last, hpath, hdone.control, ⟨promise, hframe⟩, ?_⟩
  apply hdone.created 1 (Nat.le_refl 1)
  -- the first step of `waiter` creates the frame of the task
  have hstep := step_body (c := .start (waiter overload task)) rfl rfl
  obtain ⟨rest, _, hrest⟩ := hpath.after_step (step_of_returned hdone.control) hstep
  exact fresh_le_of_path hrest

theorem afterStep_resuming {control : Control} {caller : Caller V}
    (h : caller.afterStep control = .resuming) : ∃ handle, control = .running handle := by
  cases caller with
  | resuming =>
      cases control with
      | running handle => exact ⟨handle, rfl⟩
      | waiting handle => cases h
      | returned => cases h
  | beforeWait => cases h
  | waiting => cases h
  | returned result => cases h

theorem afterStep_returned {control : Control} {caller : Caller V} {result : Option V}
    (h : caller.afterStep control = .returned result) : caller = .returned result := by
  cases caller with
  | resuming => cases control <;> cases h
  | beforeWait => cases h
  | waiting => cases h
  | returned _ => exact h

theorem OnTheWay.coroutine {s t : State V E U} {done rest : List (Effect U V)}
    {last : Coroutines V E (Effect U V)} (h : OnTheWay overload task s done rest last)
    (hlast : Last last) (hstep : step s .coroutine = some t) :
    ∃ done' rest', OnTheWay overload task t done' rest' last := by
  obtain ⟨⟨c, effects⟩, hc, heq⟩ := Option.bind_eq_some_iff.mp hstep
  obtain rfl := Option.some.inj heq
  obtain ⟨rest', rfl, hpath⟩ := h.path.after_step (step_of_returned hlast.control) hc
  refine ⟨done ++ effects, rest', hpath, ?_, ?_, h.root.step hc, afterStep_resuming, ?_⟩
  · rw [h.effects, List.append_assoc]
  · change effects.foldl Captured.perform s.captured = _
    rw [h.captured, capturedAfter, capturedAfter, List.foldl_append]
  · exact fun result hcaller => h.returned result (afterStep_returned hcaller)

theorem OnTheWay.caller {s t : State V E U} {done rest : List (Effect U V)}
    {last : Coroutines V E (Effect U V)} (h : OnTheWay overload task s done rest last)
    (hstep : step s .caller = some t) : OnTheWay overload task t done rest last := by
  cases hcaller : s.caller with
  | resuming => simp [step, hcaller] at hstep
  | returned result => simp [step, hcaller] at hstep
  | beforeWait =>
      simp only [step, hcaller] at hstep
      obtain rfl := Option.some.inj hstep
      exact ⟨h.path, h.effects, h.captured, h.root, nofun, nofun⟩
  | waiting =>
      simp only [step, hcaller] at hstep
      obtain ⟨hready, rfl⟩ := guarded_step hstep
      refine ⟨h.path, h.effects, h.captured, h.root, nofun, ?_⟩
      rintro result ⟨⟩
      rw [h.captured] at hready ⊢
      exact capturedAfter_ready h.effects hready

theorem onTheWay_of_reachable {last : Coroutines V E (Effect U V)}
    (hpath : Path Coroutines.step (.start (waiter overload task))
      (waiter overload task).effects last) (hlast : Last last) {s : State V E U}
    (hs : Reachable (system overload task) s) :
    ∃ done rest, OnTheWay overload task s done rest last := by
  refine Reachable.invariant (fun s => ∃ done rest, OnTheWay overload task s done rest last)
    ?_ ?_ hs
  · exact ⟨[], _, hpath, rfl, rfl, rootInvariant_start _, fun _ => ⟨0, rfl⟩, nofun⟩
  · rintro s a t hstep ⟨done, rest, h⟩
    cases a with
    | coroutine => exact h.coroutine hlast hstep
    | caller => exact ⟨done, rest, h.caller hstep⟩

theorem OnTheWay.at_last {s : State V E U} {done rest : List (Effect U V)}
    {last : Coroutines V E (Effect U V)} (h : OnTheWay overload task s done rest last)
    (hdone : s.WaiterDone) : s.captured = capturedAfter (waiter overload task).effects := by
  obtain ⟨rfl, _⟩ := h.path.of_halted (step_of_returned (h.root.returned hdone))
  rw [h.captured, h.effects, List.append_nil]

theorem exec_path {c last : Coroutines V E (Effect U V)} {outs : List (Effect U V)}
    (hpath : Path Coroutines.step c outs last) {s : State V E U} (hs : s.coroutines = c) :
    ∃ as t, exec (system overload task) s as = some t ∧ t.coroutines = last := by
  induction hpath generalizing s with
  | refl c => exact ⟨[], s, rfl, hs⟩
  | @head c c' _ effects _ first _ ih =>
      let next : State V E U := {
        coroutines := c'
        captured := effects.foldl Captured.perform s.captured
        caller := s.caller.afterStep c'.control }
      have hstep : step s .coroutine = some next := by
        rw [step, hs, first]
        rfl
      obtain ⟨as, t, hexec, ht⟩ := ih (s := next) rfl
      refine ⟨.coroutine :: as, t, ?_, ht⟩
      rw [exec]
      exact Option.bind_eq_some_iff.mpr ⟨next, hstep, hexec⟩

/-- From every reachable state there is a way to the end of `waiter`, with the caller in
`event.wait()` or behind it. -/
theorem exec_to_last {s : State V E U} (hs : Reachable (system overload task) s) :
    ∃ as t, exec (system overload task) s as = some t ∧ t.WaiterDone ∧ t.TaskDone ∧
      (t.caller = .waiting ∨ ∃ result, t.caller = .returned result) := by
  obtain ⟨last, hpath, hlast⟩ := exists_last overload task
  obtain ⟨done, rest, h⟩ := onTheWay_of_reachable hpath hlast hs
  obtain ⟨as, t, hexec, ht⟩ := exec_path h.path rfl
  have hwaiter : t.WaiterDone := by
    rw [State.WaiterDone, ht]
    exact hlast.waiter
  have htask : t.TaskDone := by
    rw [State.TaskDone, ht]
    exact hlast.task
  obtain ⟨_, _, h'⟩ := onTheWay_of_reachable hpath hlast (hs.exec hexec)
  cases hcaller : t.caller with
  | resuming =>
      obtain ⟨handle, hrunning⟩ := h'.resuming hcaller
      rw [ht, hlast.control] at hrunning
      cases hrunning
  | beforeWait =>
      have hstep : exec (system overload task) t [.caller] =
          some { t with caller := .waiting } := by
        simp [exec, system, step, hcaller]
      exact ⟨_, _, exec_append hexec hstep, hwaiter, htask, .inl rfl⟩
  | waiting => exact ⟨as, t, hexec, hwaiter, htask, .inl hcaller⟩
  | returned result => exact ⟨as, t, hexec, hwaiter, htask, .inr ⟨result, hcaller⟩⟩

end Runs

section Contract

/-- The caller blocks although there is nobody left to set the event. -/
def Blocked (s : State V E U) : Prop :=
  s.TaskDone ∧ s.WaiterDone ∧ s.caller = .waiting ∧ s.captured.ready = false

/-- What `sync_await` promises, in every reachable state: a finished `waiter` has set the
event, the caller is not blocked for good, it returns only what the task returns, and it
can still come to return. -/
structure Contract (overload : Overload) (task : Body V E U) : Prop where
  signals : ∀ s, Reachable (system overload task) s → s.TaskDone → s.WaiterDone →
    s.captured.ready = true
  not_blocked : ∀ s, Reachable (system overload task) s → ¬ Blocked s
  returns : ∀ s, Reachable (system overload task) s → ∀ result,
    s.caller = .returned result →
      ∃ value, task.result = .ok value ∧ result = overload.returns value
  completes : ∀ s, Reachable (system overload task) s → ∃ as t result,
    exec (system overload task) s as = some t ∧ t.caller = .returned result

variable {V E U : Type}

theorem contract_of_ok {overload : Overload} {task : Body V E U} {value : Option V}
    (h : task.result = .ok value) : Contract overload task := by
  obtain ⟨last, hpath, hlast⟩ := exists_last overload task
  have hready : ∀ s, Reachable (system overload task) s → s.WaiterDone →
      s.captured.ready = true := by
    intro s hs hdone
    obtain ⟨_, _, hway⟩ := onTheWay_of_reachable hpath hlast hs
    rw [hway.at_last hdone]
    exact capturedAfter_waiter h
  constructor
  case signals => exact fun s hs _ hdone => hready s hs hdone
  case not_blocked =>
    rintro s hs ⟨_, hdone, _, hblocked⟩
    cases hblocked.symm.trans (hready s hs hdone)
  case returns =>
    intro s hs
    obtain ⟨_, _, hway⟩ := onTheWay_of_reachable hpath hlast hs
    exact hway.returned
  case completes =>
    intro s hs
    obtain ⟨as, t, hexec, hdone, _, hwaiting | ⟨result, hreturned⟩⟩ := exec_to_last hs
    · have hset := hready t (hs.exec hexec) hdone
      have hstep : exec (system overload task) t [.caller] =
          some { t with caller := .returned t.captured.result } := by
        simp [exec, system, step, hwaiting, hset]
      exact ⟨_, _, _, exec_append hexec hstep, rfl⟩
    · exact ⟨as, t, result, hexec, hreturned⟩

/-- If the task throws, every run can end with the caller blocked for good. -/
theorem blocked_of_error (overload : Overload) {task : Body V E U} {e : E}
    (h : task.result = .error e) : ∃ s, Reachable (system overload task) s ∧ Blocked s := by
  obtain ⟨last, hpath, hlast⟩ := exists_last overload task
  have hstart : Reachable (system overload task) (system overload task).init := ⟨[], .start⟩
  obtain ⟨as, t, hexec, hdone, htask, hcaller⟩ := exec_to_last hstart
  have ht := hstart.exec hexec
  obtain ⟨_, _, hway⟩ := onTheWay_of_reachable hpath hlast ht
  have hready : t.captured.ready = false := by
    rw [hway.at_last hdone, waiter_effects_error h, capturedAfter, foldl_task]
  refine ⟨t, ht, htask, hdone, ?_, hready⟩
  rcases hcaller with hwaiting | ⟨result, hreturned⟩
  · exact hwaiting
  · obtain ⟨value, hok, _⟩ := hway.returned result hreturned
    cases hok.symm.trans h

/-- `sync_await` keeps its promise exactly for the tasks that do not end by an exception. -/
theorem contract_iff (overload : Overload) (task : Body V E U) :
    Contract overload task ↔ ∃ value, task.result = .ok value := by
  constructor
  · intro hcontract
    cases hresult : task.result with
    | ok value => exact ⟨value, rfl⟩
    | error e =>
        obtain ⟨s, hs, hblocked⟩ := blocked_of_error overload hresult
        exact absurd hblocked (hcontract.not_blocked s hs)
  · rintro ⟨value, hvalue⟩
    exact contract_of_ok hvalue

/-- The task of `demo_exceptions`, awaited without a `catch`. -/
def throwing_task : Body Nat String Empty :=
  .suspend (.throw "Something went wrong!")

theorem throwing_task_blocks :
    ∃ s, Reachable (system .value throwing_task) s ∧ Blocked s := by
  have hexec : exec (system .value throwing_task) (system .value throwing_task).init
      [.coroutine, .coroutine, .caller, .coroutine, .coroutine, .coroutine, .coroutine] =
      some _ := rfl
  exact ⟨_, reachable_of_exec hexec, ⟨_, rfl⟩, ⟨_, rfl⟩, rfl, rfl⟩

end Contract

end SkUtils.Coroutine.SyncAwait
