import SkUtils.Coroutine.Task

/-!
The run of a task beside the direct evaluation of its body: the coroutines are entered,
finished and resumed in the order in which the ordinary functions are called, return and
are gone on with.
-/

namespace SkUtils.Coroutine.TaskTrace

open SkUtils.Library.TracedMachine
open SkUtils.Coroutine.Task

variable {V E F : Type}

section Events

/-- What is seen of a run. -/
inductive Event (V E F : Type)
  | entered (parent child : Handle) (body : Body V E F)
  | finished (handle : Handle) (result : Except E (Option V))
  | resumed (parent child : Handle) (result : Except E (Option V))
  | performed (handle : Handle) (effect : F)

namespace Event

def call : Event V E F → Option (Body V E F × Handle)
  | entered _ child body => some (body, child)
  | _ => none

def effect : Event V E F → Option F
  | performed _ effect => some effect
  | _ => none

/-- The coroutine whose call the event is a part of. -/
def callee : Event V E F → Option Handle
  | entered _ child _ => some child
  | finished handle _ => some handle
  | resumed _ child _ => some child
  | performed _ _ => none

end Event

/-- The events of the step that executes the body. -/
def executed (c : Coroutines V E F) (h : Handle) (promise : Promise V E) :
    Body V E F → List (Event V E F)
  | .coReturn value => [.finished h { promise with value_ := value }.result]
  | .throw e => [.finished h { promise with exception_ := some e }.result]
  | .coAwait child _ => [.entered h c.fresh child]
  | .suspend _ => []
  | .perform effect _ => [.performed h effect]

def events (c : Coroutines V E F) : List (Event V E F) :=
  match c.control with
  | .returned => []
  | .waiting _ => []
  | .running h =>
      match c.frames h with
      | none => []
      | some ⟨.final, _⟩ => []
      | some ⟨.body rest, promise⟩ => executed c h promise rest
      | some ⟨.awaiting child _, _⟩ =>
          match c.frames child with
          | none => []
          | some frame => [.resumed h child frame.promise.result]

def tracedStep (c : Coroutines V E F) : Option (Coroutines V E F × List (Event V E F)) :=
  c.step.map fun next => (next.1, events c)

end Events

section Calls

/-- The bodies that the body calls as an ordinary function, with what these call, in the
order of the calls. -/
def calls : Body V E F → List (Body V E F)
  | .coReturn _ => []
  | .throw _ => []
  | .coAwait child resume => child :: (calls child ++ calls (resume child.result))
  | .suspend next => calls next
  | .perform _ next => calls next

/-- What happens in a call `h` of the body: each call in it begins, returns its result,
and `h` goes on with it. The calls are numbered from `next` on. -/
def callTrace : Body V E F → Nat → Nat → List (Event V E F)
  | .coReturn _, _, _ => []
  | .throw _, _, _ => []
  | .coAwait child resume, h, next =>
      .entered h next child :: (callTrace child next (next + 1) ++
        .finished next child.result :: .resumed h next child.result ::
          callTrace (resume child.result) h (next + 1 + (calls child).length))
  | .suspend body, h, next => callTrace body h next
  | .perform effect body, h, next => .performed h effect :: callTrace body h next

/-- The call `k` begins, returns and is gone on with, in this order and once each. -/
def CalledOnce (trace : List (Event V E F)) (k : Nat) : Prop :=
  ∃ before inside after parent body,
    trace = before ++ .entered parent k body :: (inside ++
      .finished k body.result :: .resumed parent k body.result :: after) ∧
    ∀ event ∈ before ++ inside ++ after, event.callee ≠ some k

theorem CalledOnce.within {trace : List (Event V E F)} {k : Nat} (h : CalledOnce trace k)
    (before after : List (Event V E F)) (hbefore : ∀ event ∈ before, event.callee ≠ some k)
    (hafter : ∀ event ∈ after, event.callee ≠ some k) :
    CalledOnce (before ++ trace ++ after) k := by
  obtain ⟨first, inside, last, parent, body, rfl, hothers⟩ := h
  refine ⟨before ++ first, inside, last ++ after, parent, body, by simp, ?_⟩
  simp only [List.forall_mem_append] at hothers ⊢
  exact ⟨⟨⟨hbefore, hothers.1.1⟩, hothers.1.2⟩, hothers.2, hafter⟩

theorem callTrace_callee (b : Body V E F) {h next k : Nat} {event : Event V E F}
    (hevent : event ∈ callTrace b h next) (hcallee : event.callee = some k) :
    next ≤ k ∧ k < next + (calls b).length := by
  induction b generalizing h next with
  | coReturn _ => simp [callTrace] at hevent
  | throw _ => simp [callTrace] at hevent
  | suspend body ih => exact ih hevent
  | perform effect body ih =>
      rcases List.mem_cons.mp hevent with rfl | hevent
      · exact absurd hcallee nofun
      · exact ih hevent
  | coAwait child resume ihChild ihResume =>
      simp only [callTrace, List.mem_cons, List.mem_append] at hevent
      simp only [calls, List.length_cons, List.length_append]
      rcases hevent with rfl | hinside | rfl | rfl | hrest
      · obtain rfl := Option.some.inj hcallee
        omega
      · have hbounds := ihChild hinside
        omega
      · obtain rfl := Option.some.inj hcallee
        omega
      · obtain rfl := Option.some.inj hcallee
        omega
      · have hbounds := ihResume _ hrest
        omega

theorem callTrace_calledOnce (b : Body V E F) {h next k : Nat} (hge : next ≤ k)
    (hlt : k < next + (calls b).length) : CalledOnce (callTrace b h next) k := by
  induction b generalizing h next with
  | coReturn _ => exact absurd hlt (Nat.not_lt.mpr hge)
  | throw _ => exact absurd hlt (Nat.not_lt.mpr hge)
  | suspend body ih => exact ih hge hlt
  | perform effect body ih =>
      have hwithin := (ih (h := h) hge hlt).within [.performed h effect] []
        (by simp [Event.callee]) (by simp)
      rwa [List.append_nil] at hwithin
  | coAwait child resume ihChild ihResume =>
      have hinner : ∀ event ∈ callTrace child next (next + 1), event.callee = some k →
          next + 1 ≤ k ∧ k < next + 1 + (calls child).length :=
        fun event hevent hk => callTrace_callee child hevent hk
      have houter : ∀ event ∈ callTrace (resume child.result) h
            (next + 1 + (calls child).length), event.callee = some k →
          next + 1 + (calls child).length ≤ k :=
        fun event hevent hk => (callTrace_callee _ hevent hk).1
      simp only [calls, List.length_cons, List.length_append] at hlt
      rcases Nat.eq_or_lt_of_le hge with rfl | hgt
      · refine ⟨[], _, _, h, child, rfl, fun event hevent hk => ?_⟩
        rcases List.mem_append.mp hevent with hmem | hmem
        · have hbounds := hinner event hmem hk
          omega
        · have hbound := houter event hmem hk
          omega
      · have hne : next ≠ k := Nat.ne_of_lt hgt
        rcases Nat.lt_or_ge k (next + 1 + (calls child).length) with hk | hk
        · refine (ihChild hgt hk).within [.entered h next child] _ ?_ ?_
          · simpa [Event.callee] using hne
          · simp only [List.forall_mem_cons, Event.callee, ne_eq, Option.some.injEq]
            refine ⟨hne, hne, fun event hevent hcallee => ?_⟩
            have hbound := houter event hevent hcallee
            omega
        · have hwithin := (ihResume child.result (h := h) hk (by omega)).within
            (.entered h next child :: (callTrace child next (next + 1) ++
              [.finished next child.result, .resumed h next child.result])) [] ?_ (by simp)
          · simpa [callTrace] using hwithin
          · simp only [List.forall_mem_cons, List.forall_mem_append, Event.callee, ne_eq,
              Option.some.injEq]
            refine ⟨hne, fun event hevent hcallee => ?_, hne, hne, by simp⟩
            have hbounds := hinner event hevent hcallee
            omega

theorem callTrace_calls (b : Body V E F) (h next : Nat) :
    (callTrace b h next).filterMap Event.call = (calls b).zipIdx next := by
  induction b generalizing h next with
  | coReturn _ => rfl
  | throw _ => rfl
  | suspend body ih => exact ih h next
  | perform effect body ih => exact ih h next
  | coAwait child resume ihChild ihResume =>
      simp [callTrace, calls, Event.call, List.filterMap_cons, List.zipIdx_append, ihChild,
        ihResume]

theorem callTrace_effects (b : Body V E F) (h next : Nat) :
    (callTrace b h next).filterMap Event.effect = b.effects := by
  induction b generalizing h next with
  | coReturn _ => rfl
  | throw _ => rfl
  | suspend body ih => exact ih h next
  | perform effect body ih => simp [callTrace, Body.effects, Event.effect, ih]
  | coAwait child resume ihChild ihResume =>
      simp [callTrace, Body.effects, Event.effect, List.filterMap_cons, ihChild, ihResume]

end Calls

section Runs

variable {c : Coroutines V E F} {h : Handle} {promise : Promise V E}

theorem tracedStep_body {rest : Body V E F} (hcontrol : c.control = .running h)
    (hframe : c.frames h = some ⟨.body rest, promise⟩) :
    tracedStep c = some ((c.execute h promise rest).1, executed c h promise rest) := by
  rw [tracedStep, step_body hcontrol hframe, events, hcontrol]
  simp only [hframe, Option.map_some]

theorem tracedStep_awaiting {child : Handle} {resume : Except E (Option V) → Body V E F}
    {frame : Frame V E F} (hcontrol : c.control = .running h)
    (hframe : c.frames h = some ⟨.awaiting child resume, promise⟩)
    (hchild : c.frames child = some frame) :
    tracedStep c = some (c.goto h (.body (resume frame.promise.result)) promise,
      [.resumed h child frame.promise.result]) := by
  rw [tracedStep, step_awaiting hcontrol hframe hchild, events, hcontrol]
  simp only [hframe, hchild, Option.map_some]

theorem tracedStep_waiting (hcontrol : c.control = .waiting h) :
    tracedStep c = some ({ c with control := .running h }, []) := by
  rw [tracedStep, step_waiting hcontrol, events, hcontrol]
  rfl

theorem tracedStep_of_returned (hcontrol : c.control = .returned) : tracedStep c = none := by
  rw [tracedStep, step_of_returned hcontrol]
  rfl

theorem execute_effects (c : Coroutines V E F) (h : Handle) (promise : Promise V E)
    (rest : Body V E F) :
    (c.execute h promise rest).2 = (executed c h promise rest).filterMap Event.effect := by
  cases rest <;> rfl

theorem step_of_tracedStep {c' : Coroutines V E F} {out : List (Event V E F)}
    (hstep : tracedStep c = some (c', out)) : c.step = some (c', out.filterMap Event.effect) := by
  obtain ⟨⟨c'', effects⟩, hplain, heq⟩ := Option.map_eq_some_iff.mp hstep
  obtain ⟨rfl, rfl⟩ := Prod.mk.inj heq
  rcases step_cases hplain with ⟨h, hcontrol, rfl, rfl⟩ |
    ⟨h, rest, promise, hcontrol, hframe, hexecute⟩ |
    ⟨h, child, resume, promise, frame, hcontrol, hframe, hchild, rfl, rfl⟩
  · rw [hplain, events, hcontrol]
    rfl
  · rw [hplain, events, hcontrol]
    simp only [hframe]
    rw [← execute_effects, ← hexecute]
  · rw [hplain, events, hcontrol]
    simp only [hframe, hchild]
    rfl

/-- The machine follows the calls of the body; the induction is over the body, and the
continuation of a child is the parent that awaits it. -/
theorem body_runs (b : Body V E F) {c : Coroutines V E F} {h : Handle}
    {continuation : Option Handle} (hcontrol : c.control = .running h)
    (hframe : c.frames h = some ⟨.body b, .initial continuation⟩) (hfresh : h < c.fresh) :
    ∃ c', Path tracedStep c (callTrace b h c.fresh ++ [.finished h b.result]) c' ∧
      Finished c c' h continuation b.result ∧ c'.fresh = c.fresh + (calls b).length := by
  induction b generalizing c h continuation with
  | coReturn value =>
      exact ⟨_, .single (tracedStep_body hcontrol hframe), finished_finalSuspend .., rfl⟩
  | throw e =>
      exact ⟨_, .single (tracedStep_body hcontrol hframe), finished_finalSuspend .., rfl⟩
  | coAwait child resume ihChild ihResume =>
      have hne : h ≠ c.fresh := Nat.ne_of_lt hfresh
      let c₁ := c.coAwait h (.initial continuation) child resume
      have hstart : Path tracedStep c [.entered h c.fresh child] c₁ :=
        .single (tracedStep_body hcontrol hframe)
      have hchild : c₁.frames c.fresh = some ⟨.body child, .initial (some h)⟩ :=
        Function.update_self ..
      obtain ⟨c₂, hrun, hdone, hcount⟩ := ihChild rfl hchild (Nat.lt_succ_self c.fresh)
      have hfresh₂ : c₂.fresh = c.fresh + 1 + (calls child).length := hcount
      obtain ⟨promise, hframe₂, hresult⟩ := hdone.frame
      have hawaiting : c₂.frames h = some ⟨.awaiting c.fresh resume, .initial continuation⟩ := by
        rw [hdone.others h (Nat.lt_succ_of_lt hfresh) hne]
        exact coAwait_parent hfresh
      let c₃ := c₂.goto h (.body (resume child.result)) (.initial continuation)
      have hresume : Path tracedStep c₂ [.resumed h c.fresh child.result] c₃ := by
        apply Path.single
        rw [tracedStep_awaiting hdone.control hawaiting hframe₂, hresult]
      have hlt : h < c₃.fresh :=
        Nat.lt_of_lt_of_le (Nat.lt_succ_of_lt hfresh) hdone.fresh
      obtain ⟨c₄, hrest, hend, hfresh₄⟩ := ihResume child.result (c := c₃) hdone.control
        (Function.update_self ..) hlt
      have hfresh₃ : c₃.fresh = c.fresh + 1 + (calls child).length := hfresh₂
      rw [hfresh₃] at hrest hfresh₄
      refine ⟨c₄, ?_, hend.of_coAwait hfresh hdone, ?_⟩
      · have hpath := (hstart.trans hrun).trans (hresume.trans hrest)
        simpa [callTrace, Body.result, Coroutines.coAwait, c₁] using hpath
      · rw [hfresh₄, calls, List.length_cons, List.length_append]
        simp only [Nat.add_assoc, Nat.add_comm 1]
  | suspend next ih =>
      let c₁ : Coroutines V E F :=
        { c.goto h (.body next) (.initial continuation) with control := .waiting h }
      have hsuspend : Path tracedStep c [] c₁ := .single (tracedStep_body hcontrol hframe)
      have hevent : Path tracedStep c₁ [] { c₁ with control := .running h } :=
        .single (tracedStep_waiting rfl)
      obtain ⟨c', hrest, hend, hcount⟩ := ih (c := { c₁ with control := .running h }) rfl
        (Function.update_self ..) hfresh
      exact ⟨c', (hsuspend.trans hevent).trans hrest,
        hend.of_update rfl fun g hgh => Function.update_of_ne hgh .., hcount⟩
  | perform effect next ih =>
      have hperform : Path tracedStep c [.performed h effect]
          (c.goto h (.body next) (.initial continuation)) :=
        .single (tracedStep_body hcontrol hframe)
      obtain ⟨c', hrest, hend, hcount⟩ := ih (c := c.goto h (.body next) (.initial continuation))
        hcontrol (Function.update_self ..) hfresh
      exact ⟨c', hperform.trans hrest,
        hend.of_update rfl fun g hgh => Function.update_of_ne hgh .., hcount⟩

/-- A task that is started performs what its body performs as an ordinary function, and
ends with the result of that function in its promise. -/
theorem start_finishes (b : Body V E F) :
    ∃ c, Path Coroutines.step (Coroutines.start b) b.effects c ∧
      Finished (Coroutines.start b) c 0 none b.result := by
  obtain ⟨c, hpath, hdone, -⟩ := body_runs b (c := .start b) rfl rfl Nat.zero_lt_one
  refine ⟨c, ?_, hdone⟩
  have hplain := hpath.filterMap Event.effect fun _ _ _ hstep => step_of_tracedStep hstep
  have hlast : [Event.finished 0 b.result].filterMap Event.effect = ([] : List F) := rfl
  rwa [List.filterMap_append, callTrace_effects, hlast, List.append_nil] at hplain

end Runs

section Demo

abbrev Log :=
  String × List Int

/-- `auto value = co_await child;` outside a `try`. -/
def coAwaitValue (child : Body V E F) (next : V → Body V E F) : Body V E F :=
  .coAwait child fun
    | .ok (some value) => next value
    | .ok none => .coReturn none
    | .error e => .throw e

def add_task (a b : Int) : Body Int E Log :=
  .perform ("  add_task: \x7b\x7d + \x7b\x7d", [a, b]) (.coReturn (some (a + b)))

def multiply_task (a b : Int) : Body Int E Log :=
  .perform ("  multiply_task: \x7b\x7d * \x7b\x7d", [a, b]) (.coReturn (some (a * b)))

def compute_task (a b c : Int) : Body Int E Log :=
  .perform ("  compute_task: start", []) <|
    coAwaitValue (add_task a b) fun sum =>
      .perform ("  compute_task: got sum = \x7b\x7d", [sum]) <|
        coAwaitValue (multiply_task sum c) fun result =>
          .perform ("  compute_task: got result = \x7b\x7d", [result]) <|
            .coReturn (some result)

example : (compute_task 2 3 4 : Body Int Unit Log).result = .ok (some 20) :=
  rfl

end Demo

section DirectSemantics

/-- A complete run of a task, with its trace, beside the direct evaluation of its body. -/
structure RunsAsCalls (b : Body V E F) (trace : List (Event V E F)) (c : Coroutines V E F) :
    Prop where
  trace_eq : trace = callTrace b 0 1 ++ [.finished 0 b.result]
  calls_eq : trace.filterMap Event.call = (calls b).zipIdx 1
  once : ∀ k, 1 ≤ k → k ≤ (calls b).length → CalledOnce trace k
  effects_eq : trace.filterMap Event.effect = b.effects
  returned : c.control = .returned
  promise : ∃ promise, c.frames 0 = some ⟨.final, promise⟩ ∧ promise.result = b.result

theorem runsAsCalls_of_finished {b : Body V E F} {c : Coroutines V E F}
    (hdone : Finished (.start b) c 0 none b.result) :
    RunsAsCalls b (callTrace b 0 1 ++ [.finished 0 b.result]) c where
  trace_eq := rfl
  calls_eq := by
    rw [List.filterMap_append, callTrace_calls]
    exact List.append_nil _
  once := by
    intro k hge hle
    refine (callTrace_calledOnce b hge (by omega)).within [] _ (by simp) ?_
    simpa [Event.callee] using (Nat.ne_of_lt hge)
  effects_eq := by
    rw [List.filterMap_append, callTrace_effects]
    exact List.append_nil _
  returned := hdone.control
  promise := hdone.frame

/-- However far a task that is resumed has come, it goes on to the end of the direct
evaluation of its body. -/
theorem task_runs_as_calls (b : Body V E F) {trace : List (Event V E F)}
    {c : Coroutines V E F} (hrun : Path tracedStep (Coroutines.start b) trace c) :
    ∃ rest last, Path tracedStep c rest last ∧ last.step = none ∧
      RunsAsCalls b (trace ++ rest) last := by
  obtain ⟨last, hpath, hdone, -⟩ := body_runs b (c := .start b) rfl rfl Nat.zero_lt_one
  obtain ⟨rest, htrace, hrest⟩ :=
    hrun.completes hpath (tracedStep_of_returned hdone.control)
  refine ⟨rest, last, hrest, step_of_returned hdone.control, ?_⟩
  rw [← htrace]
  exact runsAsCalls_of_finished hdone

theorem task_runs_as_calls_compute : ∃ rest last,
    Path tracedStep (Coroutines.start (compute_task 2 3 4 : Body Int Unit Log)) rest last ∧
      last.step = none ∧ RunsAsCalls (compute_task 2 3 4) ([] ++ rest) last :=
  task_runs_as_calls (compute_task 2 3 4) (.refl _)

end DirectSemantics

end SkUtils.Coroutine.TaskTrace
