import SkUtils.Coroutine.SyncAwaitHandover

/-!
`sync_await` with the steps of its event apart refines `sync_await` with an atomic event:
the event is set where `ready` is, and the caller waits from its first `lock` to the move
of the result.
-/

namespace SkUtils.Coroutine.SyncAwaitRefinement

open SkUtils.Library.TransitionSystem
open SkUtils.Coroutine.Task
open SkUtils.Coroutine.SyncAwait (Overload)
open SkUtils.Coroutine.SyncAwaitHandover

section Hiding

variable {V E F G : Type} (f : F → Option G)

/-- The body with its effects renamed, or left out. -/
def hide : Body V E F → Body V E G
  | .coReturn value => .coReturn value
  | .throw e => .throw e
  | .coAwait child resume => .coAwait (hide child) fun r => hide (resume r)
  | .suspend next => .suspend (hide next)
  | .perform effect next =>
      match f effect with
      | some effect => .perform effect (hide next)
      | none => hide next

def hidePoint : Point V E F → Point V E G
  | .body rest => .body (hide f rest)
  | .awaiting child resume => .awaiting child fun r => hide f (resume r)
  | .final => .final

def hideFrame (frame : Frame V E F) : Frame V E G where
  point := hidePoint f frame.point
  promise := frame.promise

def hideCoroutines (c : Coroutines V E F) : Coroutines V E G where
  frames h := (c.frames h).map (hideFrame f)
  fresh := c.fresh
  control := c.control

variable {f} {c : Coroutines V E F} {h : Handle} {promise : Promise V E}

theorem hide_map {H : Type} (g : H → F) (g' : H → G) (hg : ∀ x, f (g x) = some (g' x))
    (b : Body V E H) : hide f (b.map g) = b.map g' := by
  induction b with
  | coReturn _ => rfl
  | throw _ => rfl
  | coAwait child resume ihChild ihResume =>
      simp only [Body.map, hide, ihChild, ihResume]
  | suspend next ih => simp only [Body.map, hide, ih]
  | perform effect next ih => simp only [Body.map, hide, hg, ih]

theorem hideFrames_update (frames : Handle → Option (Frame V E F)) (frame : Frame V E F) :
    (fun g => (Function.update frames h (some frame) g).map (hideFrame f)) =
      Function.update (fun g => (frames g).map (hideFrame f)) h (some (hideFrame f frame)) := by
  funext g
  exact Function.apply_update (fun _ frame => frame.map (hideFrame f)) frames h (some frame) g

theorem hide_goto (c : Coroutines V E F) (h : Handle) (point : Point V E F)
    (promise : Promise V E) :
    hideCoroutines f (c.goto h point promise) =
      (hideCoroutines f c).goto h (hidePoint f point) promise := by
  simp only [hideCoroutines, Coroutines.goto, hideFrames_update]
  rfl

theorem hide_coAwait (c : Coroutines V E F) (h : Handle) (promise : Promise V E)
    (child : Body V E F) (resume : Except E (Option V) → Body V E F) :
    hideCoroutines f (c.coAwait h promise child resume) =
      (hideCoroutines f c).coAwait h promise (hide f child) fun r => hide f (resume r) := by
  simp only [hideCoroutines, Coroutines.coAwait, Coroutines.goto, hideFrames_update]
  rfl

theorem hide_start (b : Body V E F) :
    hideCoroutines f (.start b) = .start (hide f b) := by
  simp only [hideCoroutines, Coroutines.start, hideFrames_update]
  rfl

theorem hide_goto_control (c : Coroutines V E F) (h : Handle) (point : Point V E F)
    (promise : Promise V E) (control : Control) :
    hideCoroutines f { c.goto h point promise with control } =
      { (hideCoroutines f c).goto h (hidePoint f point) promise with control } :=
  congrArg (fun c : Coroutines V E G => { c with control }) (hide_goto c h point promise)

/-- An effect that is left out leaves everything where it was. -/
theorem hide_execute (hcontrol : c.control = .running h) {rest : Body V E F}
    (hframe : c.frames h = some ⟨.body rest, promise⟩) {c' : Coroutines V E F}
    {effects : List F} (hexecute : c.execute h promise rest = (c', effects)) :
    effects.filterMap f = [] ∧ hideCoroutines f c' = hideCoroutines f c ∨
    (hideCoroutines f c).step = some (hideCoroutines f c', effects.filterMap f) := by
  have hhidden : (hideCoroutines f c).frames h = some ⟨.body (hide f rest), promise⟩ := by
    simp only [hideCoroutines, hframe]
    rfl
  have hstep := step_body (c := hideCoroutines f c) hcontrol hhidden
  cases rest with
  | coReturn value =>
      obtain ⟨rfl, rfl⟩ := Prod.mk.inj hexecute
      refine .inr (hstep.trans ?_)
      rw [Coroutines.finalSuspend, hide_goto_control]
      rfl
  | throw e =>
      obtain ⟨rfl, rfl⟩ := Prod.mk.inj hexecute
      refine .inr (hstep.trans ?_)
      rw [Coroutines.finalSuspend, hide_goto_control]
      rfl
  | coAwait child resume =>
      obtain ⟨rfl, rfl⟩ := Prod.mk.inj hexecute
      refine .inr (hstep.trans ?_)
      rw [hide_coAwait]
      rfl
  | suspend next =>
      obtain ⟨rfl, rfl⟩ := Prod.mk.inj hexecute
      refine .inr (hstep.trans ?_)
      rw [hide_goto_control]
      rfl
  | perform effect next =>
      obtain ⟨rfl, rfl⟩ := Prod.mk.inj hexecute
      rw [hide_goto]
      cases heffect : f effect with
      | none =>
          simp only [hide, heffect] at hhidden
          refine .inl ⟨by simp [heffect], ?_⟩
          have hframes : Function.update (hideCoroutines f c).frames h
              (some ⟨.body (hide f next), promise⟩) = (hideCoroutines f c).frames := by
            rw [← hhidden, Function.update_eq_self]
          exact congrArg (fun frames => { hideCoroutines f c with frames }) hframes
      | some hidden =>
          simp only [hide, heffect] at hstep
          refine .inr (hstep.trans ?_)
          simp only [List.filterMap_cons, heffect, List.filterMap_nil]
          rfl

theorem hide_step {c' : Coroutines V E F} {effects : List F}
    (hstep : c.step = some (c', effects)) :
    effects.filterMap f = [] ∧ hideCoroutines f c' = hideCoroutines f c ∨
    (hideCoroutines f c).step = some (hideCoroutines f c', effects.filterMap f) := by
  cases hcontrol : c.control with
  | returned => simp [Coroutines.step, hcontrol] at hstep
  | waiting h =>
      obtain ⟨rfl, rfl⟩ := Prod.mk.inj (Option.some.inj ((step_waiting hcontrol).symm.trans hstep))
      exact .inr (step_waiting (c := hideCoroutines f c) hcontrol)
  | running h =>
      cases hframe : c.frames h with
      | none => simp [Coroutines.step, hcontrol, hframe] at hstep
      | some frame =>
          obtain ⟨point, promise⟩ := frame
          cases point with
          | final => simp [Coroutines.step, hcontrol, hframe] at hstep
          | body rest =>
              rw [step_body hcontrol hframe] at hstep
              exact hide_execute hcontrol hframe (Option.some.inj hstep)
          | awaiting child resume =>
              cases hchild : c.frames child with
              | none => simp [Coroutines.step, hcontrol, hframe, hchild] at hstep
              | some frame =>
                  rw [step_awaiting hcontrol hframe hchild] at hstep
                  obtain ⟨rfl, rfl⟩ := Prod.mk.inj (Option.some.inj hstep)
                  have hhidden : (hideCoroutines f c).frames h =
                      some ⟨.awaiting child fun r => hide f (resume r), promise⟩ := by
                    simp only [hideCoroutines, hframe]
                    rfl
                  have hhidden' : (hideCoroutines f c).frames child =
                      some (hideFrame f frame) := by
                    simp only [hideCoroutines, hchild]
                    rfl
                  rw [hide_goto]
                  exact .inr (step_awaiting (c := hideCoroutines f c) hcontrol hhidden hhidden')

end Hiding

section Abstraction

variable {V E U : Type} {overload : Overload} {task : Body V E U} {s t : State V E U}

/-- The event is set where `set` stores `ready`. -/
def effectOf : Effect U V → Option (SyncAwait.Effect U V)
  | .task effect => some (.task effect)
  | .setResult value => some (.setResult value)
  | .setReady => some .eventSet
  | _ => none

/-- The caller returns where it moves the result. -/
def callerOf : Caller V → SyncAwait.Caller V
  | .resuming => .resuming
  | .destroying result => .returned result
  | .taskDestroyed result => .returned result
  | .returned result => .returned result
  | _ => .waiting

def capturedOf (s : State V E U) : SyncAwait.Captured V where
  ready := s.event.ready
  result := s.result

def abs (s : State V E U) : SyncAwait.State V E U where
  coroutines := hideCoroutines effectOf s.coroutines
  captured := capturedOf s
  caller := callerOf s.caller

theorem hide_waiter (overload : Overload) (task : Body V E U) :
    hide effectOf (waiter overload task) = SyncAwait.waiter overload task := by
  have htask : hide (effectOf (V := V)) (task.map .task) = task.map SyncAwait.Effect.task :=
    hide_map Effect.task SyncAwait.Effect.task (fun _ => rfl) task
  rw [waiter, hide, htask]
  refine congrArg (Body.coAwait _) ?_
  funext result
  cases result with
  | ok value => cases overload <;> rfl
  | error e => rfl

theorem abs_init (overload : Overload) (task : Body V E U) :
    abs (system overload task).init = (SyncAwait.system overload task).init := by
  have hstart := hide_start (f := effectOf) (waiter overload task)
  rw [hide_waiter] at hstart
  exact congrArg (fun coroutines => SyncAwait.State.mk coroutines _ _) hstart

theorem callerOf_notified (caller : Caller V) : callerOf caller.notified = callerOf caller := by
  cases caller <;> rfl

/-- What is performed changes for the abstract call what the effects that are left change. -/
structure Shown (effects : List (Effect U V)) (s t : State V E U) : Prop where
  coroutines : t.coroutines = s.coroutines
  captured : capturedOf t =
    (effects.filterMap effectOf).foldl SyncAwait.Captured.perform (capturedOf s)
  caller : callerOf t.caller = callerOf s.caller

theorem shown_perform {effect : Effect U V} (h : s.perform effect = some t) :
    Shown [effect] s t := by
  obtain ⟨event, hevent, hrest⟩ := Option.bind_eq_some_iff.mp h
  cases effect with
  | lock =>
      obtain ⟨-, rfl⟩ := guarded_step hevent
      obtain rfl := Option.some.inj hrest
      exact ⟨rfl, rfl, rfl⟩
  | notifyOne =>
      obtain rfl := Option.some.inj hevent
      obtain rfl := Option.some.inj hrest
      exact ⟨rfl, rfl, callerOf_notified s.caller⟩
  | _ =>
      obtain rfl := Option.some.inj hevent
      obtain rfl := Option.some.inj hrest
      exact ⟨rfl, rfl, rfl⟩

theorem Shown.trans {u : State V E U} {before after : List (Effect U V)}
    (h : Shown before s t) (h' : Shown after t u) : Shown (before ++ after) s u where
  coroutines := h'.coroutines.trans h.coroutines
  captured := by rw [h'.captured, h.captured, List.filterMap_append, List.foldl_append]
  caller := h'.caller.trans h.caller

theorem shown_foldlM {effects : List (Effect U V)}
    (h : effects.foldlM State.perform s = some t) : Shown effects s t := by
  induction effects generalizing s with
  | nil =>
      obtain rfl := Option.some.inj h
      exact ⟨rfl, rfl, rfl⟩
  | cons effect effects ih =>
      obtain ⟨u, hfirst, hrest⟩ := Option.bind_eq_some_iff.mp h
      exact (shown_perform hfirst).trans (ih hrest)

/-- The caller comes to `wait` from `resume()` only. -/
theorem callerOf_afterStep (caller : Caller V) (control : Control) :
    callerOf (caller.afterStep control) = (callerOf caller).afterStep control ∨
    callerOf (caller.afterStep control) = .waiting ∧
      (callerOf caller).afterStep control = .beforeWait := by
  cases caller with
  | resuming =>
      cases control with
      | running handle => exact .inl rfl
      | waiting handle => exact .inr ⟨rfl, rfl⟩
      | returned => exact .inr ⟨rfl, rfl⟩
  | _ => exact .inl rfl

theorem afterStep_running {caller : Caller V} {control : Control}
    (h : caller = .resuming → ∃ handle, control = .running handle) :
    caller.afterStep control = caller := by
  cases caller with
  | resuming =>
      obtain ⟨handle, rfl⟩ := h rfl
      rfl
  | _ => rfl

theorem resuming_of_callerOf {caller : Caller V} (h : callerOf caller = .resuming) :
    caller = .resuming := by
  cases caller with
  | resuming => rfl
  | _ => cases h

theorem coroutine_abs (hrunning : s.caller = .resuming → ∃ h, s.coroutines.control = .running h)
    (hstep : step s .coroutine = some t) :
    ∃ bs, exec (SyncAwait.system overload task) (abs s) bs = some (abs t) := by
  obtain ⟨⟨c, effects⟩, hc, hrest⟩ := Option.bind_eq_some_iff.mp hstep
  obtain ⟨u, hu, hlast⟩ := Option.bind_eq_some_iff.mp hrest
  obtain rfl := Option.some.inj hlast
  obtain ⟨hcoroutines, hcaptured, hcaller⟩ := shown_foldlM hu
  rcases hide_step (f := effectOf) hc with ⟨heffects, hkept⟩ | hhidden
  · -- the caller stays in `resume()`, since the coroutine goes on to run
    have hcontrol : c.control = s.coroutines.control :=
      congrArg (fun c : Coroutines V E (SyncAwait.Effect U V) => c.control) hkept
    have hstays : u.caller.afterStep c.control = u.caller := by
      refine afterStep_running fun hresuming => ?_
      rw [hcontrol]
      refine hrunning (resuming_of_callerOf (hcaller.symm.trans ?_))
      rw [hresuming]
      rfl
    refine ⟨[], congrArg some ?_⟩
    rw [heffects] at hcaptured
    simp only [abs, hcoroutines, hkept, hstays]
    exact congrArg₂ (SyncAwait.State.mk _) hcaptured.symm hcaller.symm
  · have hnext : (SyncAwait.system overload task).step (abs s) .coroutine = some {
        coroutines := hideCoroutines effectOf c
        captured := capturedOf u
        caller := (callerOf u.caller).afterStep c.control } := by
      rw [hcaptured, hcaller]
      exact Option.bind_eq_some_iff.mpr ⟨_, hhidden, rfl⟩
    rcases callerOf_afterStep u.caller c.control with hsame | ⟨hwaiting, hbefore⟩
    · refine ⟨[.coroutine], (exec_singleton hnext).trans ?_⟩
      simp only [abs, hcoroutines, hsame]
      rfl
    · rw [hbefore] at hnext
      refine ⟨[.coroutine, .caller], exec_append (exec_singleton hnext) ?_⟩
      refine exec_singleton ?_
      simp only [abs, hcoroutines, hwaiting]
      rfl

theorem abs_eq (hcoroutines : t.coroutines = s.coroutines) (hready : t.event.ready = s.event.ready)
    (hresult : t.result = s.result) (hcaller : callerOf t.caller = callerOf s.caller) :
    abs t = abs s := by
  simp only [abs, capturedOf, hcoroutines, hready, hresult, hcaller]

/-- In `wait` and behind it the abstract call stands still, but for the move of the result. -/
theorem abs_caller (hstep : step s .caller = some t) :
    abs t = abs s ∨ s.caller = .moving ∧ t = { s with caller := .destroying s.result } := by
  simp only [step] at hstep
  cases hcaller : s.caller with
  | resuming => simp [hcaller] at hstep
  | blocked => simp [hcaller] at hstep
  | returned result => simp [hcaller] at hstep
  | locking =>
      rw [hcaller] at hstep
      obtain ⟨-, rfl⟩ := guarded_step hstep
      exact .inl (abs_eq rfl rfl rfl (by rw [hcaller]; rfl))
  | testing =>
      rw [hcaller] at hstep
      dsimp only at hstep
      split at hstep <;> obtain rfl := Option.some.inj hstep
      · exact .inl (abs_eq rfl rfl rfl (by rw [hcaller]; rfl))
      · exact .inl (abs_eq rfl rfl rfl (by rw [hcaller]; rfl))
  | moving =>
      rw [hcaller] at hstep
      exact .inr ⟨rfl, (Option.some.inj hstep).symm⟩
  | _ =>
      rw [hcaller] at hstep
      obtain rfl := Option.some.inj hstep
      exact .inl (abs_eq rfl rfl rfl (by rw [hcaller]; rfl))

theorem abs_wakeup (hstep : step s .wakeup = some t) : abs t = abs s := by
  simp only [step] at hstep
  cases hcaller : s.caller with
  | blocked =>
      rw [hcaller] at hstep
      obtain rfl := Option.some.inj hstep
      exact abs_eq rfl rfl rfl (by rw [hcaller]; rfl)
  | _ => simp [hcaller] at hstep

/-- Whatever the threads do, the call with an atomic event can do it too. -/
theorem reachable_abs (h : Reachable (system overload task) s) :
    Reachable (SyncAwait.system overload task) (abs s) := by
  obtain ⟨last, hpath, hlast, -⟩ := exists_last overload task
  refine h.simulate abs ?_ fun s a t hs hstep => ?_
  · rw [abs_init]
    exact ⟨[], .start⟩
  · obtain ⟨done, rest, hway⟩ := onTheWay_of_reachable hpath hlast hs
    cases a with
    | coroutine => exact coroutine_abs hway.resuming hstep
    | wakeup =>
        rw [abs_wakeup hstep]
        exact ⟨[], rfl⟩
    | caller =>
        rcases abs_caller hstep with hsame | ⟨hmoving, rfl⟩
        · rw [hsame]
          exact ⟨[], rfl⟩
        · have hready : s.event.ready = true :=
            hway.passed (by rw [hmoving]; trivial)
          refine ⟨[.caller], exec_singleton ?_⟩
          simp only [SyncAwait.system, SyncAwait.step, abs, capturedOf, hmoving, callerOf, hready]
          rfl

/-- In every run the call shows a state of the call with an atomic event, and so it returns only
what the task returns. -/
theorem refines_atomic (overload : Overload) (task : Body V E U) (s)
    (h : Reachable (system overload task) s) :
    Reachable (SyncAwait.system overload task) (abs s) ∧
      ∀ result, s.caller = .returned result →
        ∃ value, task.result = .ok value ∧ result = overload.returns value := by
  have habs := reachable_abs h
  refine ⟨habs, fun result hreturned => ?_⟩
  obtain ⟨last, hpath, hlast⟩ := SyncAwait.exists_last overload task
  obtain ⟨_, _, hway⟩ := SyncAwait.onTheWay_of_reachable hpath hlast habs
  exact hway.returned result (congrArg callerOf hreturned)

/-- The task returns while the caller is in `resume()`, and the caller finds the event set. -/
theorem refines_atomic_ready : ∃ s,
    exec (system .value (.coReturn (some 5) : Body Nat Empty Empty))
      (system .value (.coReturn (some 5))).init
      (List.replicate 9 .coroutine ++ List.replicate 6 .caller) = some s ∧
    ∃ value, (.coReturn (some 5) : Body Nat Empty Empty).result = .ok value ∧
      some 5 = Overload.returns .value value := by
  have hexec : exec (system .value (.coReturn (some 5) : Body Nat Empty Empty))
      (system .value (.coReturn (some 5))).init
      (List.replicate 9 .coroutine ++ List.replicate 6 .caller) = some _ := rfl
  exact ⟨_, hexec, (refines_atomic _ _ _ (reachable_of_exec hexec)).2 (some 5) rfl⟩

end Abstraction

end SkUtils.Coroutine.SyncAwaitRefinement
