import Mathlib.Logic.Function.Basic
import SkUtils.Library.TracedMachine

/-!
`Task<T>` of `task.h`: coroutine frames with their promises, and the transfers of control
between them. A `Task<void>` returns `none`. The body of a task is a tree of what it does
until it suspends for good; a `catch` is a branch of the continuation of a `co_await`.
-/

namespace SkUtils.Coroutine.Task

open SkUtils.Library.TracedMachine

/-- `suspend` waits for an external event; `perform` is any other visible statement. -/
inductive Body (V E F : Type)
  | coReturn (value : Option V)
  | throw (exception : E)
  | coAwait (child : Body V E F) (resume : Except E (Option V) → Body V E F)
  | suspend (next : Body V E F)
  | perform (effect : F) (next : Body V E F)

abbrev Handle :=
  Nat

/-- `has_value_` of the promise is never read. -/
structure Promise (V E : Type) where
  continuation_ : Option Handle
  value_ : Option V
  exception_ : Option E

/-- Where a coroutine goes on: in its body, at its `co_await` of a child, or nowhere
behind `final_suspend`. -/
inductive Point (V E F : Type)
  | body (rest : Body V E F)
  | awaiting (child : Handle) (resume : Except E (Option V) → Body V E F)
  | final

structure Frame (V E F : Type) where
  point : Point V E F
  promise : Promise V E

/-- The coroutine that some thread runs, the coroutine that waits for an external event,
or none: `std::noop_coroutine()` has returned to the resumer. -/
inductive Control
  | running (handle : Handle)
  | waiting (handle : Handle)
  | returned
deriving DecidableEq

def Control.after : Option Handle → Control
  | some continuation => .running continuation
  | none => .returned

structure Coroutines (V E F : Type) where
  frames : Handle → Option (Frame V E F)
  fresh : Handle
  control : Control

variable {V E F : Type}

def Promise.initial (continuation : Option Handle) : Promise V E where
  continuation_ := continuation
  value_ := none
  exception_ := none

def Promise.result (p : Promise V E) : Except E (Option V) :=
  match p.exception_ with
  | some e => .error e
  | none => .ok p.value_

namespace Coroutines

def goto (c : Coroutines V E F) (h : Handle) (point : Point V E F) (promise : Promise V E) :
    Coroutines V E F :=
  { c with frames := Function.update c.frames h (some ⟨point, promise⟩) }

def finalSuspend (c : Coroutines V E F) (h : Handle) (promise : Promise V E) :
    Coroutines V E F :=
  { c.goto h .final promise with
    control := .after promise.continuation_ }

/-- `co_await` of a new task: `await_suspend` stores the caller and starts the task. -/
def coAwait (c : Coroutines V E F) (h : Handle) (promise : Promise V E) (child : Body V E F)
    (resume : Except E (Option V) → Body V E F) : Coroutines V E F :=
  { c.goto h (.awaiting c.fresh resume) promise with
    frames := Function.update (c.goto h (.awaiting c.fresh resume) promise).frames c.fresh
      (some ⟨.body child, .initial (some h)⟩)
    fresh := c.fresh + 1
    control := .running c.fresh }

def execute (c : Coroutines V E F) (h : Handle) (promise : Promise V E) :
    Body V E F → Coroutines V E F × List F
  | .coReturn value => (c.finalSuspend h { promise with value_ := value }, [])
  | .throw e => (c.finalSuspend h { promise with exception_ := some e }, [])
  | .coAwait child resume => (c.coAwait h promise child resume, [])
  | .suspend next => ({ c.goto h (.body next) promise with control := .waiting h }, [])
  | .perform effect next => (c.goto h (.body next) promise, [effect])

/-- One step, with the effects it performs. A coroutine that waits for an event is resumed
some time. Resuming a finished coroutine is undefined. -/
def step (c : Coroutines V E F) : Option (Coroutines V E F × List F) :=
  match c.control with
  | .returned => none
  | .waiting h => some ({ c with control := .running h }, [])
  | .running h =>
      match c.frames h with
      | none => none
      | some ⟨.final, _⟩ => none
      | some ⟨.body rest, promise⟩ => some (c.execute h promise rest)
      | some ⟨.awaiting child resume, promise⟩ =>
          match c.frames child with
          | none => none
          | some frame => some (c.goto h (.body (resume frame.promise.result)) promise, [])

def start (body : Body V E F) : Coroutines V E F where
  frames := Function.update (fun _ => none) 0 (some ⟨.body body, .initial none⟩)
  fresh := 1
  control := .running 0

end Coroutines

section DirectCalls

/-- What the body yields as an ordinary function that may throw. -/
def Body.result : Body V E F → Except E (Option V)
  | .coReturn value => .ok value
  | .throw e => .error e
  | .coAwait child resume => (resume child.result).result
  | .suspend next => next.result
  | .perform _ next => next.result

/-- What the body performs as an ordinary function, in order. -/
def Body.effects : Body V E F → List F
  | .coReturn _ => []
  | .throw _ => []
  | .coAwait child resume => child.effects ++ (resume child.result).effects
  | .suspend next => next.effects
  | .perform effect next => effect :: next.effects

def Body.map {G : Type} (f : F → G) : Body V E F → Body V E G
  | .coReturn value => .coReturn value
  | .throw e => .throw e
  | .coAwait child resume => .coAwait (child.map f) fun r => (resume r).map f
  | .suspend next => .suspend (next.map f)
  | .perform effect next => .perform (f effect) (next.map f)

theorem Body.result_map {G : Type} (f : F → G) (b : Body V E F) :
    (b.map f).result = b.result := by
  induction b with
  | coReturn _ => rfl
  | throw _ => rfl
  | coAwait child resume ihChild ihResume =>
      simp only [map, result, ihChild, ihResume]
  | suspend next ih => exact ih
  | perform _ next ih => exact ih

theorem Body.effects_map {G : Type} (f : F → G) (b : Body V E F) :
    (b.map f).effects = b.effects.map f := by
  induction b with
  | coReturn _ => rfl
  | throw _ => rfl
  | coAwait child resume ihChild ihResume =>
      simp only [map, effects, ihChild, ihResume, result_map, List.map_append]
  | suspend next ih => exact ih
  | perform effect next ih => simp only [map, effects, ih, List.map_cons]

end DirectCalls

section Execution

variable {c : Coroutines V E F} {h : Handle} {promise : Promise V E}

theorem step_body {rest : Body V E F} (hcontrol : c.control = .running h)
    (hframe : c.frames h = some ⟨.body rest, promise⟩) :
    c.step = some (c.execute h promise rest) := by
  rw [Coroutines.step, hcontrol]
  simp only [hframe]

theorem step_awaiting {child : Handle} {resume : Except E (Option V) → Body V E F}
    {frame : Frame V E F} (hcontrol : c.control = .running h)
    (hframe : c.frames h = some ⟨.awaiting child resume, promise⟩)
    (hchild : c.frames child = some frame) :
    c.step = some (c.goto h (.body (resume frame.promise.result)) promise, []) := by
  rw [Coroutines.step, hcontrol]
  simp only [hframe, hchild]

theorem step_waiting (hcontrol : c.control = .waiting h) :
    c.step = some ({ c with control := .running h }, []) := by
  rw [Coroutines.step, hcontrol]

theorem coAwait_parent {child : Body V E F} {resume : Except E (Option V) → Body V E F}
    (hfresh : h < c.fresh) : (c.coAwait h promise child resume).frames h =
      some ⟨.awaiting c.fresh resume, promise⟩ := by
  change Function.update _ _ _ h = _
  rw [Function.update_of_ne (Nat.ne_of_lt hfresh)]
  exact Function.update_self ..

def AtFinal (c : Coroutines V E F) (h : Handle) : Prop :=
  ∃ promise, c.frames h = some ⟨.final, promise⟩

/-- From `c` to `c'` the coroutine `h` has run to its final suspend point, with the given
result in its promise. The coroutines it has created have finished too, and the other
frames are as they were. -/
structure Finished (c c' : Coroutines V E F) (h : Handle) (continuation : Option Handle)
    (result : Except E (Option V)) : Prop where
  frame : ∃ promise, c'.frames h = some ⟨.final, promise⟩ ∧ promise.result = result
  control : c'.control = .after continuation
  fresh : c.fresh ≤ c'.fresh
  created : ∀ g, c.fresh ≤ g → g < c'.fresh → AtFinal c' g
  others : ∀ g, g < c.fresh → g ≠ h → c'.frames g = c.frames g

theorem finished_finalSuspend (c : Coroutines V E F) (h : Handle) (promise : Promise V E) :
    Finished c (c.finalSuspend h promise) h promise.continuation_ promise.result where
  frame := ⟨promise, Function.update_self .., rfl⟩
  control := rfl
  fresh := Nat.le_refl _
  created := fun _ hge hlt => absurd hlt (Nat.not_lt.mpr hge)
  others := fun _ _ hne => Function.update_of_ne hne ..

theorem Finished.of_update {c₁ c' : Coroutines V E F} {continuation : Option Handle}
    {result : Except E (Option V)} (hdone : Finished c₁ c' h continuation result)
    (hfresh : c₁.fresh = c.fresh) (hframes : ∀ g, g ≠ h → c₁.frames g = c.frames g) :
    Finished c c' h continuation result where
  frame := hdone.frame
  control := hdone.control
  fresh := hfresh ▸ hdone.fresh
  created := hfresh ▸ hdone.created
  others := fun g hg hgh => (hdone.others g (hfresh ▸ hg) hgh).trans (hframes g hgh)

/-- The run of a child, and then the rest of the run of its parent. -/
theorem Finished.of_coAwait {c₁ c' : Coroutines V E F} {continuation : Option Handle}
    {child : Body V E F} {resume : Except E (Option V) → Body V E F}
    {result : Except E (Option V)} {promise' : Promise V E} {rest : Body V E F}
    (hparent : Finished (c₁.goto h (.body rest) promise') c' h continuation result)
    (hfresh : h < c.fresh)
    (hchild : Finished (c.coAwait h promise child resume) c₁ c.fresh (some h) child.result) :
    Finished c c' h continuation result := by
  have hle : c.fresh ≤ c₁.fresh := Nat.le_trans (Nat.le_succ c.fresh) hchild.fresh
  refine ⟨hparent.frame, hparent.control, Nat.le_trans hle hparent.fresh, ?_, ?_⟩
  · intro g hge hlt
    rcases Nat.lt_or_ge g c₁.fresh with hg | hg
    · have hgh : g ≠ h := (Nat.ne_of_lt (Nat.lt_of_lt_of_le hfresh hge)).symm
      have hkept : c'.frames g = c₁.frames g := by
        rw [hparent.others g hg hgh]
        exact Function.update_of_ne hgh ..
      rw [AtFinal, hkept]
      rcases Nat.eq_or_lt_of_le hge with rfl | hgt
      · obtain ⟨promise, hframe, -⟩ := hchild.frame
        exact ⟨promise, hframe⟩
      · exact hchild.created g hgt hg
    · exact hparent.created g hg hlt
  · intro g hg hgh
    calc c'.frames g = (c₁.goto h (.body rest) promise').frames g :=
          hparent.others g (Nat.lt_of_lt_of_le hg hle) hgh
      _ = c₁.frames g := Function.update_of_ne hgh ..
      _ = (c.coAwait h promise child resume).frames g :=
          hchild.others g (Nat.lt_succ_of_lt hg) (Nat.ne_of_lt hg)
      _ = (c.goto h (.awaiting c.fresh resume) promise).frames g :=
          Function.update_of_ne (Nat.ne_of_lt hg) ..
      _ = c.frames g := Function.update_of_ne hgh ..

theorem step_of_returned (h : c.control = .returned) : c.step = none := by
  rw [Coroutines.step, h]

theorem execute_self {rest : Body V E F} (hfresh : h < c.fresh) :
    ∃ point promise', (c.execute h promise rest).1.frames h = some ⟨point, promise'⟩ ∧
      promise'.continuation_ = promise.continuation_ ∧
      (point = .final →
        (c.execute h promise rest).1.control = .after promise.continuation_) := by
  cases rest with
  | coReturn value => exact ⟨_, _, Function.update_self .., rfl, fun _ => rfl⟩
  | throw e => exact ⟨_, _, Function.update_self .., rfl, fun _ => rfl⟩
  | coAwait child resume =>
      exact ⟨.awaiting c.fresh resume, promise, coAwait_parent hfresh, rfl,
        fun hfinal => by cases hfinal⟩
  | suspend next =>
      exact ⟨.body next, promise, Function.update_self .., rfl, fun hfinal => by cases hfinal⟩
  | perform effect next =>
      exact ⟨.body next, promise, Function.update_self .., rfl, fun hfinal => by cases hfinal⟩

theorem execute_others {rest : Body V E F} {g : Handle} (hfresh : g < c.fresh)
    (hne : g ≠ h) : (c.execute h promise rest).1.frames g = c.frames g := by
  cases rest with
  | coAwait child resume =>
      change Function.update _ _ _ g = _
      rw [Function.update_of_ne (Nat.ne_of_lt hfresh)]
      exact Function.update_of_ne hne ..
  | _ => exact Function.update_of_ne hne ..

theorem execute_fresh (c : Coroutines V E F) (h : Handle) (promise : Promise V E)
    (rest : Body V E F) : c.fresh ≤ (c.execute h promise rest).1.fresh := by
  cases rest with
  | coAwait child resume => exact Nat.le_succ _
  | _ => exact Nat.le_refl _

theorem step_cases {c' : Coroutines V E F} {effects : List F}
    (hstep : c.step = some (c', effects)) :
    (∃ h, c.control = .waiting h ∧ c' = { c with control := .running h } ∧ effects = []) ∨
      (∃ h rest promise, c.control = .running h ∧
        c.frames h = some ⟨.body rest, promise⟩ ∧
        (c', effects) = c.execute h promise rest) ∨
      ∃ h child resume promise frame, c.control = .running h ∧
        c.frames h = some ⟨.awaiting child resume, promise⟩ ∧
        c.frames child = some frame ∧
        c' = c.goto h (.body (resume frame.promise.result)) promise ∧ effects = [] := by
  rcases hcontrol : c.control with h | h | _
  · rcases hframe : c.frames h with _ | ⟨_ | ⟨child, resume⟩ | _, promise⟩
    · simp [Coroutines.step, hcontrol, hframe] at hstep
    · rename_i rest
      rw [step_body hcontrol hframe] at hstep
      exact .inr (.inl ⟨h, rest, promise, rfl, hframe, (Option.some.inj hstep).symm⟩)
    · rcases hchild : c.frames child with _ | frame
      · simp [Coroutines.step, hcontrol, hframe, hchild] at hstep
      · rw [step_awaiting hcontrol hframe hchild] at hstep
        obtain ⟨rfl, rfl⟩ := Prod.mk.inj (Option.some.inj hstep)
        exact .inr (.inr ⟨h, child, resume, promise, frame, rfl, hframe, hchild, rfl, rfl⟩)
    · simp [Coroutines.step, hcontrol, hframe] at hstep
  · rw [step_waiting hcontrol] at hstep
    obtain ⟨rfl, rfl⟩ := Prod.mk.inj (Option.some.inj hstep)
    exact .inl ⟨h, rfl, rfl, rfl⟩
  · rw [step_of_returned hcontrol] at hstep
    cases hstep

/-- The root has no continuation, and nothing runs once it has finished. -/
structure RootInvariant (c : Coroutines V E F) : Prop where
  fresh : 0 < c.fresh
  frame : ∃ point promise, c.frames 0 = some ⟨point, promise⟩ ∧
    promise.continuation_ = none ∧ (point = .final → c.control = .returned)

theorem rootInvariant_start (b : Body V E F) : RootInvariant (Coroutines.start b) where
  fresh := Nat.zero_lt_one
  frame := ⟨.body b, .initial none, rfl, rfl, fun hfinal => by cases hfinal⟩

theorem RootInvariant.step {c' : Coroutines V E F} {effects : List F} (hc : RootInvariant c)
    (hstep : c.step = some (c', effects)) : RootInvariant c' := by
  obtain ⟨hfresh, point, promise, hframe, hnone, hfinal⟩ := hc
  rcases step_cases hstep with ⟨h, hcontrol, rfl, rfl⟩ |
    ⟨h, rest, promise', hcontrol, hframe', heq⟩ |
    ⟨h, child, resume, promise', frame, hcontrol, hframe', _, rfl, rfl⟩
  · refine ⟨hfresh, point, promise, hframe, hnone, fun hpoint => ?_⟩
    cases hcontrol.symm.trans (hfinal hpoint)
  · obtain rfl : c' = (c.execute h promise' rest).1 := congrArg Prod.fst heq
    refine ⟨Nat.lt_of_lt_of_le hfresh (execute_fresh ..), ?_⟩
    rcases eq_or_ne 0 h with rfl | hne
    · obtain ⟨point', promise'', hself, hkept, hlast⟩ := execute_self hfresh
      have hpromise : promise' = promise :=
        congrArg Frame.promise (Option.some.inj (hframe'.symm.trans hframe))
      refine ⟨point', promise'', hself, ?_, fun hpoint => ?_⟩
      · rw [hkept, hpromise, hnone]
      · rw [hlast hpoint, hpromise, hnone]
        rfl
    · refine ⟨point, promise, (execute_others hfresh hne).trans hframe, hnone, ?_⟩
      intro hpoint
      cases hcontrol.symm.trans (hfinal hpoint)
  · refine ⟨hfresh, ?_⟩
    rcases eq_or_ne 0 h with rfl | hne
    · have hpromise : promise' = promise :=
        congrArg Frame.promise (Option.some.inj (hframe'.symm.trans hframe))
      exact ⟨.body (resume frame.promise.result), promise', rfl, hpromise ▸ hnone,
        fun hpoint => by cases hpoint⟩
    · refine ⟨point, promise, (Function.update_of_ne hne ..).trans hframe, hnone, ?_⟩
      intro hpoint
      cases hcontrol.symm.trans (hfinal hpoint)

theorem RootInvariant.returned (hc : RootInvariant c) (hfinal : AtFinal c 0) :
    c.control = .returned := by
  obtain ⟨_, point, promise, hframe, _, hreturned⟩ := hc
  obtain ⟨promise', hframe'⟩ := hfinal
  exact hreturned (congrArg Frame.point (Option.some.inj (hframe.symm.trans hframe')))

theorem fresh_le_of_step {c' : Coroutines V E F} {effects : List F}
    (hstep : c.step = some (c', effects)) : c.fresh ≤ c'.fresh := by
  rcases step_cases hstep with ⟨h, _, rfl, _⟩ | ⟨h, rest, promise, _, _, heq⟩ |
    ⟨h, child, resume, promise, frame, _, _, _, rfl, _⟩
  · exact Nat.le_refl _
  · have hle := execute_fresh c h promise rest
    rwa [← heq] at hle
  · exact Nat.le_refl _

theorem fresh_le_of_path {c' : Coroutines V E F} {effects : List F}
    (hpath : Path Coroutines.step c effects c') : c.fresh ≤ c'.fresh := by
  induction hpath with
  | refl _ => exact Nat.le_refl _
  | head first _ ih => exact Nat.le_trans (fresh_le_of_step first) ih

end Execution

end SkUtils.Coroutine.Task
