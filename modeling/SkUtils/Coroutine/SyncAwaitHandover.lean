import SkUtils.Coroutine.SyncAwait

/-!
`sync_await` with the steps of `SyncEvent::set` and `SyncEvent::wait` apart, and with the
end of the call, where `wait_task` and `event` are destroyed. What the threads do behind a
destruction that came too early is undefined; the steps go on as if the storage were there.
-/

namespace SkUtils.Coroutine.SyncAwaitHandover

open SkUtils.Library.TracedMachine
open SkUtils.Library.TransitionSystem
open SkUtils.Coroutine.Task
open SkUtils.Coroutine.TaskTrace
open SkUtils.Coroutine.SyncAwait (Overload)

section Code

/-- Who holds `event.mtx`: the caller in `wait`, or the thread in `set`. -/
inductive Holder
  | wait
  | set
deriving DecidableEq

structure SyncEvent where
  mtx : Option Holder
  ready : Bool

inductive Effect (U V : Type)
  | task (effect : U)
  | setResult (value : Option V)
  | lock
  | setReady
  | unlock
  | notifyOne

/-- Where the calling thread stands; `resuming` runs coroutines inside `resume()`. In
`wait` it is about to lock, holds the lock and tests, is blocked in the condition variable,
or has seen `ready`. Then it moves the result out and destroys the locals. -/
inductive Caller (V : Type)
  | resuming
  | locking
  | testing
  | blocked
  | unlocking
  | moving
  | destroying (result : Option V)
  | taskDestroyed (result : Option V)
  | returned (result : Option V)

/-- `set_returned` says that `event.set()` has returned. -/
structure State (V E U : Type) where
  coroutines : Coroutines V E (Effect U V)
  event : SyncEvent
  result : Option V
  set_returned : Bool
  caller : Caller V

variable {V E U : Type}

/-- `event.set()`. -/
def set (next : Body V E (Effect U V)) : Body V E (Effect U V) :=
  .perform .lock (.perform .setReady (.perform .unlock (.perform .notifyOne next)))

def waiter (overload : Overload) (task : Body V E U) : Body V E (Effect U V) :=
  .coAwait (task.map .task) fun
    | .ok value =>
        match overload with
        | .value => .perform (.setResult value) (set (.coReturn none))
        | .void => set (.coReturn none)
    | .error e => .throw e

def Caller.notified : Caller V → Caller V
  | .blocked => .locking
  | caller => caller

/-- `lock` is not enabled while the mutex is held. -/
def SyncEvent.perform (event : SyncEvent) : Effect U V → Option SyncEvent
  | .lock => if event.mtx = none then some { event with mtx := some .set } else none
  | .setReady => some { event with ready := true }
  | .unlock => some { event with mtx := none }
  | _ => some event

def State.perform (s : State V E U) (effect : Effect U V) : Option (State V E U) := do
  let event ← s.event.perform effect
  match effect with
  | .setResult value => return { s with event, result := value }
  | .notifyOne => return { s with event, set_returned := true, caller := s.caller.notified }
  | _ => return { s with event }

/-- `resume()` returns to the caller when its thread has no coroutine left to run. -/
def Caller.afterStep (control : Control) : Caller V → Caller V
  | .resuming =>
      match control with
      | .running _ => .resuming
      | _ => .locking
  | caller => caller

/-- `wakeup` is a spurious one. -/
inductive Action
  | coroutine
  | caller
  | wakeup
deriving DecidableEq

def step (s : State V E U) : Action → Option (State V E U)
  | .coroutine => do
      let (coroutines, effects) ← s.coroutines.step
      let t ← effects.foldlM State.perform { s with coroutines }
      return { t with caller := t.caller.afterStep coroutines.control }
  | .caller =>
      match s.caller with
      | .resuming => none
      | .locking =>
          if s.event.mtx = none then
            some { s with event.mtx := some .wait, caller := .testing }
          else none
      | .testing =>
          if s.event.ready then some { s with caller := .unlocking }
          else some { s with event.mtx := none, caller := .blocked }
      | .blocked => none
      | .unlocking => some { s with event.mtx := none, caller := .moving }
      | .moving => some { s with caller := .destroying s.result }
      | .destroying result => some { s with caller := .taskDestroyed result }
      | .taskDestroyed result => some { s with caller := .returned result }
      | .returned _ => none
  | .wakeup =>
      match s.caller with
      | .blocked => some { s with caller := .locking }
      | _ => none

def system (overload : Overload) (task : Body V E U) : System (State V E U) Action where
  init := {
    coroutines := .start (waiter overload task)
    event := { mtx := none, ready := false }
    result := none
    set_returned := false
    caller := .resuming }
  step := step

/-- The caller has destroyed `wait_task`, or also `event`. -/
def Caller.HasDestroyed : Caller V → Prop
  | .taskDestroyed _ => True
  | .returned _ => True
  | _ => False

/-- `event.set()` has returned, and the wrapper is at its final suspend point. -/
def HandedOver (s : State V E U) : Prop :=
  s.set_returned ∧ AtFinal s.coroutines 0

/-- Nothing is destroyed that the finishing thread still uses. -/
def HandsOver (overload : Overload) (task : Body V E U) : Prop :=
  ∀ s, Reachable (system overload task) s → s.caller.HasDestroyed → HandedOver s

/-- No coroutine of the task waits for another thread: it finishes where it is started. -/
def NeverSuspends {F : Type} : Body V E F → Prop
  | .coReturn _ => True
  | .throw _ => True
  | .coAwait child resume => NeverSuspends child ∧ NeverSuspends (resume child.result)
  | .suspend _ => False
  | .perform _ next => NeverSuspends next

end Code

section Suspension

variable {V E F : Type} {c : Coroutines V E F}

/-- The machine that stops where a coroutine waits for another thread. -/
def busyStep (c : Coroutines V E F) : Option (Coroutines V E F × List F) :=
  match c.control with
  | .waiting _ => none
  | _ => c.step

theorem busyStep_running {h : Handle} (hcontrol : c.control = .running h) :
    busyStep c = c.step := by
  rw [busyStep, hcontrol]

theorem busyStep_body {h : Handle} {promise : Promise V E} {rest : Body V E F}
    (hcontrol : c.control = .running h) (hframe : c.frames h = some ⟨.body rest, promise⟩) :
    busyStep c = some (c.execute h promise rest) :=
  (busyStep_running hcontrol).trans (step_body hcontrol hframe)

theorem busyStep_waiting {h : Handle} (hcontrol : c.control = .waiting h) :
    busyStep c = none := by
  rw [busyStep, hcontrol]

theorem step_of_busyStep (c : Coroutines V E F) (next : Coroutines V E F × List F)
    (hstep : busyStep c = some next) : c.step = some next := by
  unfold busyStep at hstep
  split at hstep
  · cases hstep
  · exact hstep

theorem neverSuspends_map {G : Type} (f : F → G) (b : Body V E F) :
    NeverSuspends (b.map f) ↔ NeverSuspends b := by
  induction b with
  | coReturn _ => exact Iff.rfl
  | throw _ => exact Iff.rfl
  | coAwait child resume ihChild ihResume =>
      rw [Body.map, NeverSuspends, NeverSuspends, Body.result_map, ihChild, ihResume]
  | suspend _ _ => exact Iff.rfl
  | perform _ _ ih => exact ih

/-- Without another thread the body comes to its end, or to a coroutine that waits. -/
structure Stops (b : Body V E F) (c c' : Coroutines V E F) (h : Handle)
    (continuation : Option Handle) (effects : List F) : Prop where
  path : Path busyStep c effects c'
  leading : effects <+: b.effects
  finished : NeverSuspends b → effects = b.effects ∧ Finished c c' h continuation b.result
  suspended : ¬NeverSuspends b → ∃ g, c'.control = .waiting g

theorem body_stops (b : Body V E F) {c : Coroutines V E F} {h : Handle}
    {continuation : Option Handle} (hcontrol : c.control = .running h)
    (hframe : c.frames h = some ⟨.body b, .initial continuation⟩) (hfresh : h < c.fresh) :
    ∃ c' effects, Stops b c c' h continuation effects := by
  induction b generalizing c h continuation with
  | coReturn value =>
      refine ⟨_, [], Path.single (busyStep_body hcontrol hframe), List.prefix_rfl,
        fun _ => ⟨rfl, ?_⟩, fun hnot => ?_⟩
      · exact finished_finalSuspend ..
      · exact absurd trivial hnot
  | throw e =>
      refine ⟨_, [], Path.single (busyStep_body hcontrol hframe), List.prefix_rfl,
        fun _ => ⟨rfl, ?_⟩, fun hnot => ?_⟩
      · exact finished_finalSuspend ..
      · exact absurd trivial hnot
  | suspend next ih =>
      exact ⟨_, [], Path.single (busyStep_body hcontrol hframe), List.nil_prefix,
        fun hnever => hnever.elim, fun _ => ⟨h, rfl⟩⟩
  | perform effect next ih =>
      let c₁ := c.goto h (.body next) (.initial continuation)
      have hframe₁ : c₁.frames h = some ⟨.body next, .initial continuation⟩ :=
        Function.update_self ..
      obtain ⟨c', effects, hstops⟩ := ih (c := c₁) hcontrol hframe₁ hfresh
      refine ⟨c', effect :: effects, .head (busyStep_body hcontrol hframe) hstops.path, ?_,
        fun hnever => ?_, hstops.suspended⟩
      · exact List.cons_prefix_cons.mpr ⟨rfl, hstops.leading⟩
      · obtain ⟨rfl, hfinished⟩ := hstops.finished hnever
        exact ⟨rfl, hfinished.of_update rfl fun g hgh => Function.update_of_ne hgh ..⟩
  | coAwait child resume ihChild ihResume =>
      let c₁ := c.coAwait h (.initial continuation) child resume
      have hframe₁ : c₁.frames c.fresh = some ⟨.body child, .initial (some h)⟩ :=
        Function.update_self ..
      obtain ⟨c₂, effects, hchild⟩ := ihChild (c := c₁) rfl hframe₁ (Nat.lt_succ_self c.fresh)
      have hstart : Path busyStep c effects c₂ :=
        .head (busyStep_body hcontrol hframe) hchild.path
      rcases em (NeverSuspends child) with hnever | hnot
      · obtain ⟨rfl, hdone⟩ := hchild.finished hnever
        obtain ⟨promise, hframe₂, hresult⟩ := hdone.frame
        have hawaiting : c₂.frames h = some ⟨.awaiting c.fresh resume, .initial continuation⟩ := by
          rw [hdone.others h (Nat.lt_succ_of_lt hfresh) (Nat.ne_of_lt hfresh)]
          exact coAwait_parent hfresh
        let c₃ := c₂.goto h (.body (resume child.result)) (.initial continuation)
        have hresume : busyStep c₂ = some (c₃, []) := by
          rw [busyStep_running hdone.control, step_awaiting hdone.control hawaiting hframe₂,
            hresult]
        have hframe₃ : c₃.frames h =
            some ⟨.body (resume child.result), .initial continuation⟩ := Function.update_self ..
        have hlt : h < c₃.fresh := Nat.lt_of_lt_of_le (Nat.lt_succ_of_lt hfresh) hdone.fresh
        obtain ⟨c', effects, hrest⟩ := ihResume child.result (c := c₃) hdone.control hframe₃ hlt
        refine ⟨c', child.effects ++ effects, hstart.trans (.head hresume hrest.path), ?_, ?_, ?_⟩
        · exact (List.prefix_append_right_inj _).mpr hrest.leading
        · rintro ⟨-, hnever'⟩
          obtain ⟨rfl, hend⟩ := hrest.finished hnever'
          exact ⟨rfl, hend.of_coAwait hfresh hdone⟩
        · intro hnot
          exact hrest.suspended fun hnever' => hnot ⟨hnever, hnever'⟩
      · refine ⟨c₂, effects, hstart, ?_, fun hnever => absurd hnever.1 hnot, fun _ => ?_⟩
        · exact hchild.leading.trans (List.prefix_append _ _)
        · exact hchild.suspended hnot

end Suspension

section Steps

variable {V E U : Type} {overload : Overload} {task : Body V E U} {s t : State V E U}

/-- The caller has seen `ready`. -/
def Caller.Passed : Caller V → Prop
  | .resuming => False
  | .locking => False
  | .testing => False
  | .blocked => False
  | _ => True

theorem Caller.HasDestroyed.passed {caller : Caller V} (h : caller.HasDestroyed) :
    caller.Passed := by
  cases caller with
  | taskDestroyed result => trivial
  | returned result => trivial
  | _ => exact h.elim

/-- What the effects of a step of the wrapper change. -/
structure Performed (effects : List (Effect U V)) (s t : State V E U) : Prop where
  coroutines : t.coroutines = s.coroutines
  event : effects.foldlM SyncEvent.perform s.event = some t.event
  ready : t.event.ready ↔ s.event.ready ∨ .setReady ∈ effects
  set_returned : t.set_returned ↔ s.set_returned ∨ .notifyOne ∈ effects
  caller : t.caller = s.caller ∨ s.caller = .blocked ∧ t.caller = .locking

theorem notified_cases (caller : Caller V) :
    caller.notified = caller ∨ caller = .blocked ∧ caller.notified = .locking := by
  cases caller with
  | blocked => exact .inr ⟨rfl, rfl⟩
  | _ => exact .inl rfl

theorem perform_cases {effect : Effect U V} (h : s.perform effect = some t) :
    Performed [effect] s t := by
  obtain ⟨event, hevent, hrest⟩ := Option.bind_eq_some_iff.mp h
  have hfold : [effect].foldlM SyncEvent.perform s.event = some event := by
    simp [hevent]
  cases effect with
  | lock =>
      obtain ⟨-, rfl⟩ := guarded_step hevent
      obtain rfl := Option.some.inj hrest
      exact ⟨rfl, hfold, by simp, by simp, .inl rfl⟩
  | notifyOne =>
      obtain rfl := Option.some.inj hevent
      obtain rfl := Option.some.inj hrest
      exact ⟨rfl, hfold, by simp, by simp, notified_cases s.caller⟩
  | _ =>
      obtain rfl := Option.some.inj hevent
      obtain rfl := Option.some.inj hrest
      exact ⟨rfl, hfold, by simp, by simp, .inl rfl⟩

theorem Performed.trans {u : State V E U} {before after : List (Effect U V)}
    (h : Performed before s t) (h' : Performed after t u) :
    Performed (before ++ after) s u where
  coroutines := h'.coroutines.trans h.coroutines
  event := by simp [List.foldlM_append, h.event, h'.event]
  ready := by rw [h'.ready, h.ready, List.mem_append, or_assoc]
  set_returned := by rw [h'.set_returned, h.set_returned, List.mem_append, or_assoc]
  caller := by
    rcases h.caller with hcaller | ⟨hblocked, hlocking⟩
    · rw [← hcaller]
      exact h'.caller
    · rcases h'.caller with hcaller | ⟨hblocked', -⟩
      · exact .inr ⟨hblocked, hcaller.trans hlocking⟩
      · cases hlocking.symm.trans hblocked'

theorem foldlM_perform_cases {effects : List (Effect U V)}
    (h : effects.foldlM State.perform s = some t) : Performed effects s t := by
  induction effects generalizing s with
  | nil =>
      obtain rfl := Option.some.inj h
      exact ⟨rfl, rfl, by simp, by simp, .inl rfl⟩
  | cons effect effects ih =>
      obtain ⟨u, hfirst, hrest⟩ := Option.bind_eq_some_iff.mp h
      exact (perform_cases hfirst).trans (ih hrest)

theorem exists_perform {effect : Effect U V} {event : SyncEvent}
    (h : s.event.perform effect = some event) :
    ∃ t, s.perform effect = some t ∧ t.event = event := by
  rw [State.perform, h]
  cases effect <;> exact ⟨_, rfl, rfl⟩

theorem exists_foldlM_perform {effects : List (Effect U V)} {event : SyncEvent}
    (h : effects.foldlM SyncEvent.perform s.event = some event) :
    ∃ t, effects.foldlM State.perform s = some t := by
  induction effects generalizing s with
  | nil => exact ⟨s, rfl⟩
  | cons effect effects ih =>
      obtain ⟨first, hfirst, hrest⟩ := Option.bind_eq_some_iff.mp h
      obtain ⟨u, hu, rfl⟩ := exists_perform hfirst
      obtain ⟨t, ht⟩ := ih hrest
      exact ⟨t, by simp [hu, ht]⟩

theorem coroutine_cases (hstep : step s .coroutine = some t) :
    ∃ c effects u, s.coroutines.step = some (c, effects) ∧
      Performed effects { s with coroutines := c } u ∧
      t = { u with caller := u.caller.afterStep c.control } := by
  obtain ⟨⟨c, effects⟩, hc, hrest⟩ := Option.bind_eq_some_iff.mp hstep
  obtain ⟨u, hu, hlast⟩ := Option.bind_eq_some_iff.mp hrest
  exact ⟨c, effects, u, hc, foldlM_perform_cases hu, (Option.some.inj hlast).symm⟩

/-- What the other steps leave as it was. -/
structure Waited (s t : State V E U) : Prop where
  coroutines : t.coroutines = s.coroutines
  ready : t.event.ready = s.event.ready
  set_returned : t.set_returned = s.set_returned
  passed : t.caller.Passed → s.caller.Passed ∨ s.event.ready
  left : s.caller ≠ .resuming ∧ t.caller ≠ .resuming

theorem caller_cases (hstep : step s .caller = some t) : Waited s t := by
  simp only [step] at hstep
  cases hcaller : s.caller with
  | resuming => simp [hcaller] at hstep
  | locking =>
      rw [hcaller] at hstep
      obtain ⟨-, rfl⟩ := guarded_step hstep
      exact ⟨rfl, rfl, rfl, nofun, by simp [hcaller]⟩
  | testing =>
      rw [hcaller] at hstep
      dsimp only at hstep
      split at hstep
      · rename_i hready
        obtain rfl := Option.some.inj hstep
        exact ⟨rfl, rfl, rfl, fun _ => .inr hready, by simp [hcaller]⟩
      · obtain rfl := Option.some.inj hstep
        exact ⟨rfl, rfl, rfl, nofun, by simp [hcaller]⟩
  | blocked => simp [hcaller] at hstep
  | returned result => simp [hcaller] at hstep
  | _ =>
      rw [hcaller] at hstep
      obtain rfl := Option.some.inj hstep
      exact ⟨rfl, rfl, rfl, fun _ => .inl (by simp [hcaller, Caller.Passed]), by simp [hcaller]⟩

theorem wakeup_cases (hstep : step s .wakeup = some t) : Waited s t := by
  simp only [step] at hstep
  cases hcaller : s.caller with
  | blocked =>
      rw [hcaller] at hstep
      obtain rfl := Option.some.inj hstep
      exact ⟨rfl, rfl, rfl, nofun, by simp [hcaller]⟩
  | _ => simp [hcaller] at hstep

end Steps

section Waiter

variable {V E U : Type} {overload : Overload} {task : Body V E U}

/-- What `waiter` performs once the task has returned, up to `notify_one`. -/
def untilNotify (overload : Overload) (value : Option V) : List (Effect U V) :=
  match overload with
  | .value => [.setResult value, .lock, .setReady, .unlock]
  | .void => [.lock, .setReady, .unlock]

theorem waiter_effects_ok {value : Option V} (h : task.result = .ok value) :
    (waiter overload task).effects =
      task.effects.map .task ++ (untilNotify overload value ++ [.notifyOne]) := by
  simp only [waiter, Body.effects, Body.effects_map, Body.result_map, h]
  cases overload <;> rfl

theorem waiter_effects_error {e : E} (h : task.result = .error e) :
    (waiter overload task).effects = task.effects.map .task := by
  simp only [waiter, Body.effects, Body.effects_map, Body.result_map, h, List.append_nil]

theorem foldlM_task (effects : List U) (event : SyncEvent) :
    (effects.map (Effect.task (V := V))).foldlM SyncEvent.perform event = some event := by
  induction effects with
  | nil => rfl
  | cons effect effects ih => exact ih

/-- Alone with the event, the wrapper sets it and lets the mutex go. -/
theorem foldlM_untilNotify (overload : Overload) (task : Body V E U) (value : Option V) :
    (task.effects.map Effect.task ++ untilNotify overload value).foldlM SyncEvent.perform
      { mtx := none, ready := false } = some { mtx := none, ready := true } := by
  rw [List.foldlM_append, foldlM_task]
  cases overload <;> rfl

theorem not_mem_untilNotify (overload : Overload) (task : Body V E U) (value : Option V) :
    Effect.notifyOne ∉ task.effects.map Effect.task ++ untilNotify overload value := by
  cases overload <;> simp [untilNotify]

theorem neverSuspends_waiter (h : NeverSuspends task) :
    NeverSuspends (waiter overload task) := by
  refine ⟨(neverSuspends_map _ task).mpr h, ?_⟩
  rw [Body.result_map]
  cases task.result with
  | ok value => cases overload <;> trivial
  | error e => trivial

end Waiter

section Runs

variable {V E U : Type} {overload : Overload} {task : Body V E U} {s t : State V E U}
  {last : Coroutines V E (Effect U V)}

/-- A reachable state is on the way to the end of `waiter`. -/
structure OnTheWay (overload : Overload) (task : Body V E U) (s : State V E U)
    (done rest : List (Effect U V)) (last : Coroutines V E (Effect U V)) : Prop where
  path : Path Coroutines.step s.coroutines rest last
  effects : (waiter overload task).effects = done ++ rest
  ready : s.event.ready ↔ .setReady ∈ done
  set_returned : s.set_returned ↔ .notifyOne ∈ done
  passed : s.caller.Passed → s.event.ready
  resuming : s.caller = .resuming → ∃ h, s.coroutines.control = .running h

theorem afterStep_passed {control : Control} {caller : Caller V}
    (h : (caller.afterStep control).Passed) : caller.Passed := by
  cases caller with
  | resuming => cases control <;> exact h
  | _ => exact h

theorem afterStep_resuming {control : Control} {caller : Caller V}
    (h : caller.afterStep control = .resuming) :
    caller = .resuming ∧ ∃ handle, control = .running handle := by
  cases caller with
  | resuming =>
      cases control with
      | running handle => exact ⟨rfl, handle, rfl⟩
      | waiting handle => cases h
      | returned => cases h
  | _ => cases h

theorem OnTheWay.coroutine {done rest : List (Effect U V)}
    (h : OnTheWay overload task s done rest last) (hlast : last.control = .returned)
    (hstep : step s .coroutine = some t) :
    ∃ done' rest', OnTheWay overload task t done' rest' last := by
  obtain ⟨c, effects, u, hc, hperformed, rfl⟩ := coroutine_cases hstep
  obtain ⟨rest', rfl, hpath⟩ := h.path.after_step (step_of_returned hlast) hc
  refine ⟨done ++ effects, rest', ?_, ?_, ?_, ?_, ?_, ?_⟩
  · change Path Coroutines.step u.coroutines rest' last
    rw [hperformed.coroutines]
    exact hpath
  · rw [h.effects, List.append_assoc]
  · rw [hperformed.ready, h.ready, List.mem_append]
  · rw [hperformed.set_returned, h.set_returned, List.mem_append]
  · intro hpassed
    refine hperformed.ready.mpr (.inl (h.passed ?_))
    rcases hperformed.caller with hcaller | ⟨-, hlocking⟩
    · exact hcaller ▸ afterStep_passed hpassed
    · exact absurd (afterStep_passed hpassed) (by simp [hlocking, Caller.Passed])
  · intro hresuming
    obtain ⟨-, handle, hrunning⟩ := afterStep_resuming hresuming
    refine ⟨handle, ?_⟩
    rw [← hrunning]
    exact congrArg Coroutines.control hperformed.coroutines

theorem OnTheWay.waited {done rest : List (Effect U V)}
    (h : OnTheWay overload task s done rest last) (hwaited : Waited s t) :
    OnTheWay overload task t done rest last where
  path := hwaited.coroutines ▸ h.path
  effects := h.effects
  ready := by rw [hwaited.ready, h.ready]
  set_returned := by rw [hwaited.set_returned, h.set_returned]
  passed := by
    intro hpassed
    rw [hwaited.ready]
    exact (hwaited.passed hpassed).elim h.passed id
  resuming := fun hresuming => absurd hresuming hwaited.left.2

theorem exists_last (overload : Overload) (task : Body V E U) :
    ∃ last, Path Coroutines.step (.start (waiter overload task))
      (waiter overload task).effects last ∧ last.control = .returned ∧ AtFinal last 0 := by
  obtain ⟨last, hpath, hdone⟩ := start_finishes (waiter overload task)
  obtain ⟨promise, hframe, -⟩ := hdone.frame
  exact ⟨last, hpath, hdone.control, promise, hframe⟩

theorem onTheWay_of_reachable
    (hpath : Path Coroutines.step (.start (waiter overload task))
      (waiter overload task).effects last) (hlast : last.control = .returned)
    (hs : Reachable (system overload task) s) :
    ∃ done rest, OnTheWay overload task s done rest last := by
  refine hs.invariant (fun s => ∃ done rest, OnTheWay overload task s done rest last) ?_ ?_
  · exact ⟨[], _, hpath, rfl, by simp [system], by simp [system], nofun, fun _ => ⟨0, rfl⟩⟩
  · rintro s a t hstep ⟨done, rest, h⟩
    cases a with
    | coroutine => exact h.coroutine hlast hstep
    | caller => exact ⟨done, rest, h.waited (caller_cases hstep)⟩
    | wakeup => exact ⟨done, rest, h.waited (wakeup_cases hstep)⟩

/-- The caller is still in `resume()`, or the wrapper has finished there. -/
structure OnCaller (s : State V E U) (last : Coroutines V E (Effect U V)) : Prop where
  path : ∃ rest, Path busyStep s.coroutines rest last
  caller : s.caller = .resuming ∨ s.coroutines.control = .returned

theorem not_waiting {c : Coroutines V E (Effect U V)} {rest : List (Effect U V)}
    (hpath : Path busyStep c rest last) (hlast : last.control = .returned) {h : Handle} :
    c.control ≠ .waiting h := by
  intro hwaiting
  obtain ⟨-, rfl⟩ := hpath.of_halted (busyStep_waiting hwaiting)
  cases hwaiting.symm.trans hlast

theorem busyStep_returned {c : Coroutines V E (Effect U V)} (h : c.control = .returned) :
    busyStep c = none := by
  rw [busyStep, h]
  exact step_of_returned h

theorem OnCaller.coroutine (h : OnCaller s last) (hlast : last.control = .returned)
    (hstep : step s .coroutine = some t) : OnCaller t last := by
  obtain ⟨rest, hpath⟩ := h.path
  obtain ⟨c, effects, u, hc, hperformed, rfl⟩ := coroutine_cases hstep
  obtain ⟨handle, hrunning⟩ : ∃ handle, s.coroutines.control = .running handle := by
    cases hcontrol : s.coroutines.control with
    | running handle => exact ⟨handle, rfl⟩
    | waiting handle => exact absurd hcontrol (not_waiting hpath hlast)
    | returned =>
        rw [step_of_returned hcontrol] at hc
        cases hc
  obtain ⟨rest', -, hpath'⟩ := hpath.after_step (busyStep_returned hlast)
    ((busyStep_running hrunning).trans hc)
  have hcaller : s.caller = .resuming := by
    refine h.caller.resolve_right fun hreturned => ?_
    cases hrunning.symm.trans hreturned
  have hresuming : u.caller = .resuming := by
    rcases hperformed.caller with hkept | ⟨hblocked, -⟩
    · exact hkept.trans hcaller
    · cases hcaller.symm.trans hblocked
  refine ⟨⟨rest', ?_⟩, ?_⟩
  · change Path busyStep u.coroutines rest' last
    rw [hperformed.coroutines]
    exact hpath'
  · change u.caller.afterStep c.control = .resuming ∨ u.coroutines.control = .returned
    rw [hperformed.coroutines, hresuming]
    cases hcontrol : c.control with
    | running handle => exact .inl rfl
    | waiting handle => exact absurd hcontrol (not_waiting hpath' hlast)
    | returned => exact .inr rfl

theorem OnCaller.waited (h : OnCaller s last) (hwaited : Waited s t) : OnCaller t last where
  path := hwaited.coroutines ▸ h.path
  caller := .inr (hwaited.coroutines ▸ h.caller.resolve_left hwaited.left.1)

theorem handsOver_of_neverSuspends (hnever : NeverSuspends task) : HandsOver overload task := by
  intro s hs hdestroyed
  obtain ⟨last, effects, hstops⟩ :=
    body_stops (waiter overload task) (c := .start (waiter overload task)) rfl rfl Nat.zero_lt_one
  obtain ⟨rfl, hdone⟩ := hstops.finished (neverSuspends_waiter hnever)
  have hreturned : last.control = .returned := hdone.control
  have hhome : OnCaller s last := by
    refine hs.invariant (OnCaller · last) ⟨⟨_, hstops.path⟩, .inl rfl⟩ ?_
    intro s a t hstep h
    cases a with
    | coroutine => exact h.coroutine hreturned hstep
    | caller => exact h.waited (caller_cases hstep)
    | wakeup => exact h.waited (wakeup_cases hstep)
  obtain ⟨done, rest, hway⟩ :=
    onTheWay_of_reachable (hstops.path.imp step_of_busyStep) hreturned hs
  have hcontrol : s.coroutines.control = .returned := by
    refine hhome.caller.resolve_left fun hresuming => ?_
    have hpassed := hdestroyed.passed
    rw [hresuming] at hpassed
    exact hpassed
  obtain ⟨rfl, rfl⟩ := hway.path.of_halted (step_of_returned hcontrol)
  obtain ⟨promise, hframe, -⟩ := hdone.frame
  refine ⟨hway.set_returned.mpr ?_, promise, hframe⟩
  have hready := hway.ready.mp (hway.passed hdestroyed.passed)
  have heffects := hway.effects
  rw [List.append_nil] at heffects
  rw [← heffects] at hready ⊢
  cases hresult : task.result with
  | ok value => simp [waiter_effects_ok hresult]
  | error e =>
      rw [waiter_effects_error hresult] at hready
      simp at hready

theorem handsOver_of_error {e : E} (h : task.result = .error e) : HandsOver overload task := by
  intro s hs hdestroyed
  obtain ⟨last, hpath, hreturned, -⟩ := exists_last overload task
  obtain ⟨done, rest, hway⟩ := onTheWay_of_reachable hpath hreturned hs
  have hready := hway.ready.mp (hway.passed hdestroyed.passed)
  have hmem : Effect.setReady ∈ (waiter overload task).effects := by
    rw [hway.effects]
    exact List.mem_append_left rest hready
  rw [waiter_effects_error h] at hmem
  simp at hmem

end Runs

section Schedule

variable {V E U : Type} {overload : Overload} {task : Body V E U} {s : State V E U}

/-- The coroutines have run alone, with the given effects. -/
structure Driven (effects : List (Effect U V)) (s t : State V E U) : Prop where
  event : effects.foldlM SyncEvent.perform s.event = some t.event
  set_returned : t.set_returned ↔ s.set_returned ∨ .notifyOne ∈ effects
  resuming : s.caller = .resuming → t.caller = .resuming ∨ t.caller = .locking
  locking : s.caller = .locking → t.caller = .locking

theorem Driven.trans {t u : State V E U} {before after : List (Effect U V)}
    (h : Driven before s t) (h' : Driven after t u) : Driven (before ++ after) s u where
  event := by simp [List.foldlM_append, h.event, h'.event]
  set_returned := by rw [h'.set_returned, h.set_returned, List.mem_append, or_assoc]
  resuming := fun hcaller => (h.resuming hcaller).elim h'.resuming fun hlocking =>
    .inr (h'.locking hlocking)
  locking := fun hcaller => h'.locking (h.locking hcaller)

theorem driven_step {c : Coroutines V E (Effect U V)} {effects : List (Effect U V)}
    {event : SyncEvent} (hc : s.coroutines.step = some (c, effects))
    (hevent : effects.foldlM SyncEvent.perform s.event = some event) :
    ∃ t, step s .coroutine = some t ∧ t.coroutines = c ∧ t.event = event ∧
      Driven effects s t := by
  obtain ⟨u, hu⟩ := exists_foldlM_perform (s := { s with coroutines := c }) hevent
  have hperformed := foldlM_perform_cases hu
  have hresult := hperformed.event
  change effects.foldlM SyncEvent.perform s.event = some u.event at hresult
  refine ⟨{ u with caller := u.caller.afterStep c.control }, ?_, hperformed.coroutines,
    Option.some.inj (hresult.symm.trans hevent), hresult, hperformed.set_returned, ?_, ?_⟩
  · simp [step, hc, hu]
  · intro hresuming
    obtain hkept | ⟨hblocked, -⟩ := hperformed.caller
    · rw [hkept.trans hresuming]
      cases c.control with
      | running handle => exact .inl rfl
      | _ => exact .inr rfl
    · cases hresuming.symm.trans hblocked
  · intro hlocking
    obtain hkept | ⟨hblocked, -⟩ := hperformed.caller
    · rw [hkept.trans hlocking]
      rfl
    · cases hlocking.symm.trans hblocked

theorem exec_path (overload : Overload) (task : Body V E U)
    {c c' : Coroutines V E (Effect U V)} {effects : List (Effect U V)} {event : SyncEvent}
    (hpath : Path Coroutines.step c effects c') (hs : s.coroutines = c)
    (hevent : effects.foldlM SyncEvent.perform s.event = some event) :
    ∃ as t, exec (system overload task) s as = some t ∧ t.coroutines = c' ∧
      t.event = event ∧ Driven effects s t := by
  induction hpath generalizing s with
  | refl c =>
      exact ⟨[], s, rfl, hs, Option.some.inj hevent, rfl, by simp, .inl, id⟩
  | head first _ ih =>
      rw [List.foldlM_append] at hevent
      obtain ⟨middle, hfirst, hrest⟩ := Option.bind_eq_some_iff.mp hevent
      subst hs
      obtain ⟨u, hstep, hu, rfl, hdriven⟩ := driven_step first hfirst
      obtain ⟨as, t, hexec, ht, hlast, hdriven'⟩ := ih hu hrest
      refine ⟨.coroutine :: as, t, ?_, ht, hlast, hdriven.trans hdriven'⟩
      exact Option.bind_eq_some_iff.mpr ⟨u, hstep, hexec⟩

theorem step_single {F : Type} (c c' : Coroutines V E F) (effects : List F)
    (hstep : c.step = some (c', effects)) : effects.length ≤ 1 := by
  rcases step_cases hstep with ⟨h, -, -, rfl⟩ | ⟨h, rest, promise, -, -, heq⟩ |
    ⟨h, child, resume, promise, frame, -, -, -, -, rfl⟩
  · exact Nat.zero_le 1
  · obtain rfl : effects = (c.execute h promise rest).2 := congrArg Prod.snd heq
    cases rest with
    | perform effect next => exact Nat.le_refl 1
    | _ => exact Nat.zero_le 1
  · exact Nat.zero_le 1

/-- With the mutex free and `ready` set, the caller gets through to the destructors. -/
theorem exec_destroy (hcaller : s.caller = .locking)
    (hevent : s.event = { mtx := none, ready := true }) :
    ∃ t, exec (system overload task) s (List.replicate 5 .caller) = some t ∧
      t.caller.HasDestroyed ∧ t.set_returned = s.set_returned := by
  obtain ⟨coroutines, event, result, set_returned, caller⟩ := s
  subst hcaller hevent
  exact ⟨_, rfl, trivial, rfl⟩

/-- The first step of `waiter` starts the task. -/
theorem start_task (overload : Overload) (task : Body V E U) :
    ∃ c, Coroutines.step (.start (waiter overload task)) = some (c, []) ∧
      c.control = .running 1 ∧ c.fresh = 2 ∧
      c.frames 1 = some ⟨.body (task.map .task), .initial (some 0)⟩ :=
  ⟨_, rfl, rfl, rfl, rfl⟩

/-- The wrapper has waited for another thread and stands before `notify_one`; the mutex is
free, and the caller is about to lock it. -/
theorem exists_before_notify (overload : Overload) {value : Option V}
    (hok : task.result = .ok value) (hnot : ¬NeverSuspends task) :
    ∃ s, Reachable (system overload task) s ∧ s.caller = .locking ∧
      s.event = { mtx := none, ready := true } ∧ s.set_returned = false := by
  obtain ⟨last, hpath, hreturned, -⟩ := exists_last overload task
  -- to the first wait for another thread, which is one of the task's
  obtain ⟨c₁, hfirst, hcontrol, hfresh, hframe⟩ := start_task overload task
  obtain ⟨c, effects, hstops⟩ := body_stops (task.map .task) hcontrol hframe (hfresh ▸ by decide)
  have hstart : Path Coroutines.step (.start (waiter overload task)) effects c :=
    .head hfirst (hstops.path.imp step_of_busyStep)
  obtain ⟨g, hwaiting⟩ := hstops.suspended fun hnever => hnot ((neverSuspends_map _ task).mp hnever)
  obtain ⟨more, hmore⟩ := hstops.leading
  rw [Body.effects_map] at hmore
  -- from there to `notify_one`
  obtain ⟨rest, hsplit, hrest⟩ := hstart.completes hpath (step_of_returned hreturned)
  rw [waiter_effects_ok hok, ← hmore, List.append_assoc, List.append_cancel_left_eq,
    ← List.append_assoc] at hsplit
  subst hsplit
  obtain ⟨c', hpath', -⟩ := hrest.split step_single
  have hevent := foldlM_untilNotify overload task value
  have hnotify := not_mem_untilNotify overload task value
  rw [← hmore, List.append_assoc] at hevent hnotify
  rw [List.foldlM_append] at hevent
  obtain ⟨middle, hbefore, hafter⟩ := Option.bind_eq_some_iff.mp hevent
  have hinit : Reachable (system overload task) (system overload task).init := ⟨[], .start⟩
  obtain ⟨as, s, hexec, hs, hmiddle, hdriven⟩ :=
    exec_path overload task (s := (system overload task).init) hstart rfl hbefore
  have hreached := hinit.exec hexec
  have hlocking : s.caller = .locking := by
    refine (hdriven.resuming rfl).resolve_left fun hresuming => ?_
    obtain ⟨done, rest, hway⟩ := onTheWay_of_reachable hpath hreturned hreached
    obtain ⟨h, hrunning⟩ := hway.resuming hresuming
    rw [hs, hwaiting] at hrunning
    cases hrunning
  obtain ⟨as', t, hexec', -, hlast, hdriven'⟩ :=
    exec_path overload task hpath' hs (hmiddle ▸ hafter)
  refine ⟨t, hreached.exec hexec', hdriven'.locking hlocking, hlast, ?_⟩
  have hset := (hdriven.trans hdriven').set_returned
  simpa [hnotify, system] using hset

end Schedule

/-- The caller waits for the last use of what it destroys exactly where the task never
leaves it, or never lets it go on. -/
theorem hands_over_iff {V E U : Type} (overload : Overload) (task : Body V E U) :
    HandsOver overload task ↔ NeverSuspends task ∨ ∃ e, task.result = .error e := by
  constructor
  · intro hhands
    refine or_iff_not_imp_left.mpr fun hnot => ?_
    cases hresult : task.result with
    | error e => exact ⟨e, rfl⟩
    | ok value =>
        obtain ⟨s, hs, hcaller, hevent, hset⟩ := exists_before_notify overload hresult hnot
        obtain ⟨t, hexec, hdestroyed, hkept⟩ := exec_destroy hcaller hevent
        obtain ⟨hreturned, -⟩ := hhands t (hs.exec hexec) hdestroyed
        rw [hkept, hset] at hreturned
        cases hreturned
  · rintro (hnever | ⟨e, he⟩)
    · exact handsOver_of_neverSuspends hnever
    · exact handsOver_of_error he

/-- A task that another thread goes on with. -/
def resumed_task : Body Nat String Empty :=
  .suspend (.coReturn (some 5))

/-- `wait_task` is destroyed between the `unlock` and the `notify_one` of `event.set()`. -/
theorem hands_over_early :
    ∃ s, Reachable (system .value resumed_task) s ∧ s.caller.HasDestroyed ∧ ¬HandedOver s := by
  have hexec : exec (system .value resumed_task) (system .value resumed_task).init
      (List.replicate 9 .coroutine ++ List.replicate 5 .caller) = some _ := rfl
  exact ⟨_, reachable_of_exec hexec, trivial, fun h => Bool.false_ne_true h.1⟩

end SkUtils.Coroutine.SyncAwaitHandover
