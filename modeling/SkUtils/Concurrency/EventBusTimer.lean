import Mathlib.Tactic.Abel
import SkUtils.Concurrency.EventBusStop

/-!
The timer thread of `EventBus` while nobody calls `Stop`: what has become of each delayed
task, when it is pushed into the worker queue, and what the thread waits for.
-/

namespace SkUtils.Concurrency.EventBusTimer

open SkUtils.Library.PriorityQueues
open SkUtils.Library.TransitionSystem
open SkUtils.Concurrency.EventBus
open SkUtils.Concurrency.EventBusStop

variable {m : Nat} {τ : Type} {std : PriorityQueue (TimerTask τ) TimerTask.less}

def NoStop (_ : State m std) (a : Action m τ) : Prop :=
  a ≠ .stop

section Flow

/-- A call of `PublishDelayed` with the `runTime` that it computes. -/
def publishes (s : State m std) : Action m τ → List (TimerTask τ)
  | .publish delayMs event => [⟨s.now + delayMs, event⟩]
  | _ => []

/-- The task that the timer thread takes off `timerQueue_`. -/
def takes (s : State m std) : Action m τ → List (TimerTask τ)
  | .timer =>
      match s.timer, std.top s.timerQueue with
      | .testTop, some top => if top.timePoint ≤ s.now then [top] else []
      | _, _ => []
  | _ => []

/-- The task that it releases to the worker queue, and when. -/
def releases (s : State m std) : Action m τ → List (Nat × τ)
  | .timer =>
      match s.timer with
      | .run task => [(s.now, task)]
      | _ => []
  | _ => []

variable (std)

def published (as : List (Action m τ)) : List (TimerTask τ) :=
  outputs (eventBus m std) publishes (eventBus m std).init as

def taken (as : List (Action m τ)) : List (TimerTask τ) :=
  outputs (eventBus m std) takes (eventBus m std).init as

def released (as : List (Action m τ)) : List (Nat × τ) :=
  outputs (eventBus m std) releases (eventBus m std).init as

variable {std}

def inHand : TimerPc τ → List τ
  | .run task => [task]
  | _ => []

/-- The timer thread neither takes nor releases a task next. -/
def quiet : TimerPc τ → Bool
  | .testTop => false
  | .run _ => false
  | _ => true

theorem quiet_flow {s : State m std} (h : quiet s.timer) :
    takes s .timer = [] ∧ releases s .timer = [] ∧ inHand s.timer = [] := by
  simp only [takes, releases]
  cases hpc : s.timer with
  | testTop => simp [hpc, quiet] at h
  | run task => simp [hpc, quiet] at h
  | _ => exact ⟨rfl, rfl, rfl⟩

/-- All that a step of the timer thread does with the tasks. -/
inductive Handles (s t : State m std) : Prop
  | takes {top : TimerTask τ} (first : std.top s.timerQueue = some top)
      (due : top.timePoint ≤ s.now) (taken : takes s .timer = [top])
      (released : releases s .timer = []) (before : inHand s.timer = [])
      (after : inHand t.timer = [top.task]) (queue : t.timerQueue = std.pop s.timerQueue)
  | releases {task : τ} (taken : takes s .timer = [])
      (released : releases s .timer = [(s.now, task)]) (before : inHand s.timer = [task])
      (after : inHand t.timer = []) (queue : t.timerQueue = s.timerQueue)
  | idle (taken : takes s .timer = []) (released : releases s .timer = [])
      (hand : inHand t.timer = inHand s.timer) (queue : t.timerQueue = s.timerQueue)

theorem handles_of_loop {s t : State m std} (loop : TimerLoop s t) : Handles s t := by
  have hidle : quiet s.timer → inHand t.timer = [] → t.timerQueue = s.timerQueue →
      Handles s t := by
    intro hquiet hhand hqueue
    obtain ⟨htaken, hreleased, hbefore⟩ := quiet_flow hquiet
    exact .idle htaken hreleased (hhand.trans hbefore.symm) hqueue
  cases loop with
  | take pc first due =>
      exact .takes first due (by simp [takes, pc, first, due]) (by simp [releases, pc])
        (by rw [pc]; rfl) rfl rfl
  | sleep pc first early =>
      exact .idle (by simp [takes, pc, first, Nat.not_le_of_lt early]) (by simp [releases, pc])
        (by rw [pc]; rfl) rfl
  | @run task pc =>
      have hreleased : releases s .timer = [(s.now, task)] := by simp only [releases, pc]
      exact .releases (by simp [takes, pc]) hreleased (by rw [pc]; rfl) rfl rfl
  | leave pc _ => exact hidle (by rw [pc]; rfl) rfl rfl
  | enter pc _ => exact hidle (by rw [pc]; rfl) rfl rfl
  | acquire pc _ => exact hidle (by rw [pc]; rfl) rfl rfl
  | seeEmpty pc _ => exact hidle (by rw [pc]; rfl) rfl rfl
  | seeTask pc _ => exact hidle (by rw [pc]; rfl) rfl rfl
  | block pc => exact hidle (by rw [pc]; rfl) rfl rfl
  | blockUntil pc => exact hidle (by rw [pc]; rfl) rfl rfl
  | reacquire pc _ => exact hidle (by rw [pc]; rfl) rfl rfl

theorem publishers_eq_of_loop {s t : State m std} (loop : TimerLoop s t) :
    t.publishers = s.publishers ∧ t.now = s.now := by
  cases loop <;> exact ⟨rfl, rfl⟩

/-- No step loses or doubles a task. -/
theorem flow_of_transition {s t : State m std} {a : Action m τ} (h : Transition s a t) :
    (t.publishers : Multiset (TimerTask τ)) + std.contents t.timerQueue + takes s a =
      s.publishers + std.contents s.timerQueue + publishes s a := by
  cases h with
  | tick => rfl
  | publish _ =>
      simp only [publishes, takes, ← Multiset.coe_add, Multiset.coe_nil]
      abel
  | @publishLock i timerTask pending _ =>
      obtain ⟨hi, hget⟩ := List.getElem?_eq_some_iff.mp pending
      have hperm : (s.publishers : Multiset (TimerTask τ)) =
          timerTask ::ₘ (s.publishers.eraseIdx i : Multiset (TimerTask τ)) := by
        rw [Multiset.cons_coe, ← hget]
        exact Multiset.coe_eq_coe.mpr (List.getElem_cons_eraseIdx_perm hi).symm
      simp only [publishes, takes, std.contents_push, hperm, Multiset.coe_nil, add_zero,
        Multiset.cons_add, Multiset.add_cons]
  | publishNotify _ => rfl
  | queue _ _ _ => rfl
  | timer loop =>
      obtain ⟨hpublishers, -⟩ := publishers_eq_of_loop loop
      rw [hpublishers]
      cases handles_of_loop loop with
      | takes first due htaken _ _ _ hqueue =>
          rw [hqueue, htaken, std.contents_pop s.timerQueue _ first, Multiset.coe_singleton,
            ← Multiset.singleton_add]
          simp only [publishes, Multiset.coe_nil, add_zero]
          abel
      | releases htaken _ _ _ hqueue => rw [hqueue, htaken]; rfl
      | idle htaken _ _ hqueue => rw [hqueue, htaken]; rfl
  | timeout _ _ => rfl
  | spurious _ => rfl
  | stop stopping => cases stopping <;> rfl

end Flow

section Releases

def OnTime (timerTask : TimerTask τ) (release : Nat × τ) : Prop :=
  release.2 = timerTask.task ∧ timerTask.timePoint ≤ release.1

/-- What has been taken is released in its order and on time, up to the task that the timer
thread is about to release. -/
def ReleasedOnTime (taken : List (TimerTask τ)) (released : List (Nat × τ)) (s : State m std) :
    Prop :=
  ∃ before hand, taken = before ++ hand ∧ List.Forall₂ OnTime before released ∧
    hand.map TimerTask.task = inHand s.timer ∧ ∀ timerTask ∈ hand, timerTask.timePoint ≤ s.now

variable {s t : State m std} {a : Action m τ} {taken : List (TimerTask τ)}
  {released : List (Nat × τ)}

theorem inHand_notifyTimer (s : State m std) :
    inHand (notifyTimer s).timer = inHand s.timer := by
  cases hwaiting : s.timer.isWaiting with
  | false => simp [notifyTimer, hwaiting]
  | true =>
      rw [notifyTimer, if_pos hwaiting]
      cases hpc : s.timer with
      | run task => simp [hpc, TimerPc.isWaiting] at hwaiting
      | _ => rfl

theorem ReleasedOnTime.idle (h : ReleasedOnTime taken released s) (hnow : s.now ≤ t.now)
    (hhand : inHand t.timer = inHand s.timer) : ReleasedOnTime taken released t := by
  obtain ⟨before, hand, htaken, hreleased, hinHand, hdue⟩ := h
  refine ⟨before, hand, htaken, hreleased, hinHand.trans hhand.symm, ?_⟩
  intro timerTask hmem
  exact (hdue timerTask hmem).trans hnow

theorem ReleasedOnTime.take {top : TimerTask τ} (h : ReleasedOnTime taken released s)
    (hnone : inHand s.timer = []) (hsome : inHand t.timer = [top.task])
    (hdue : top.timePoint ≤ t.now) : ReleasedOnTime (taken ++ [top]) released t := by
  obtain ⟨before, hand, rfl, hreleased, hinHand, -⟩ := h
  obtain rfl : hand = [] := List.map_eq_nil_iff.mp (hinHand.trans hnone)
  refine ⟨before, [top], by rw [List.append_nil], hreleased, hsome.symm, ?_⟩
  simpa using hdue

theorem ReleasedOnTime.release {task : τ} (h : ReleasedOnTime taken released s)
    (hsome : inHand s.timer = [task]) (hnone : inHand t.timer = []) :
    ReleasedOnTime taken (released ++ [(s.now, task)]) t := by
  obtain ⟨before, hand, rfl, hreleased, hinHand, hdue⟩ := h
  obtain ⟨last, rfl, htask⟩ : ∃ last, hand = [last] ∧ last.task = task := by
    rw [hsome] at hinHand
    exact List.map_eq_singleton_iff.mp hinHand
  have hlast : OnTime last (s.now, task) := ⟨htask.symm, hdue last (List.mem_singleton.mpr rfl)⟩
  refine ⟨before ++ [last], [], (List.append_nil _).symm, ?_, hnone.symm, by simp⟩
  exact List.rel_append hreleased (.cons hlast .nil)

theorem released_of_forall₂ {before : List (TimerTask τ)}
    (h : List.Forall₂ OnTime before released) :
    released.map Prod.snd = before.map TimerTask.task := by
  induction h with
  | nil => rfl
  | cons hfirst _ ih => rw [List.map_cons, List.map_cons, hfirst.1, ih]

theorem ReleasedOnTime.le_taken (h : ReleasedOnTime taken released s) :
    ((released.map Prod.snd : List τ) : Multiset τ) ≤
      (taken : Multiset (TimerTask τ)).map TimerTask.task := by
  obtain ⟨before, hand, rfl, hreleased, -⟩ := h
  rw [released_of_forall₂ hreleased, ← Multiset.coe_add, Multiset.map_add, Multiset.map_coe]
  exact Multiset.le_add_right _ _

theorem ReleasedOnTime.timer (h : ReleasedOnTime taken released s) (loop : TimerLoop s t) :
    ReleasedOnTime (taken ++ takes s .timer) (released ++ releases s .timer) t := by
  obtain ⟨-, hnow⟩ := publishers_eq_of_loop loop
  cases handles_of_loop loop with
  | takes first due htaken hreleased hbefore hafter _ =>
      rw [htaken, hreleased, List.append_nil]
      exact h.take hbefore hafter (hnow ▸ due)
  | releases htaken hreleased hbefore hafter _ =>
      rw [htaken, hreleased, List.append_nil]
      exact h.release hbefore hafter
  | idle htaken hreleased hhand _ =>
      rw [htaken, hreleased, List.append_nil, List.append_nil]
      exact h.idle hnow.ge hhand

theorem ReleasedOnTime.transition (h : ReleasedOnTime taken released s)
    (htransition : Transition s a t) (hstop : a ≠ .stop) :
    ReleasedOnTime (taken ++ takes s a) (released ++ releases s a) t := by
  have hidle : takes s a = [] → releases s a = [] → s.now ≤ t.now →
      inHand t.timer = inHand s.timer →
      ReleasedOnTime (taken ++ takes s a) (released ++ releases s a) t := by
    intro htaken hreleased hnow hhand
    rw [htaken, hreleased, List.append_nil, List.append_nil]
    exact h.idle hnow hhand
  cases htransition with
  | timer loop => exact h.timer loop
  | tick => exact hidle rfl rfl (Nat.le_add_right _ _) rfl
  | publish _ => exact hidle rfl rfl le_rfl rfl
  | publishLock _ _ => exact hidle rfl rfl le_rfl rfl
  | publishNotify _ => exact hidle rfl rfl le_rfl (inHand_notifyTimer s)
  | queue _ _ _ => exact hidle rfl rfl le_rfl rfl
  | timeout pc _ => exact hidle rfl rfl le_rfl (by rw [pc]; rfl)
  | spurious waiting =>
      refine hidle rfl rfl le_rfl ?_
      rw [← inHand_notifyTimer s, notifyTimer, if_pos waiting]
  | stop _ => exact absurd rfl hstop

end Releases

section Sleep

/-- What the timer thread has seen of `timerQueue_`: with the mutex it still holds, and
without the mutex until a publisher that is to notify has it. -/
def Watchful (s : State m std) : Prop :=
  match s.timer with
  | .testEmpty => s.timerMutex = some .timer
  | .testTop => s.timerMutex = some .timer
  | .wait => s.timerMutex = some .timer ∧ std.contents s.timerQueue = 0
  | .waitUntil timePoint => s.timerMutex = some .timer ∧
      ∀ timerTask ∈ std.contents s.timerQueue, timePoint ≤ timerTask.timePoint
  | .blocked => s.timerMutex = some .publisher ∨ std.contents s.timerQueue = 0
  | .blockedUntil timePoint => s.timerMutex = some .publisher ∨
      ∀ timerTask ∈ std.contents s.timerQueue, timePoint ≤ timerTask.timePoint
  | _ => True

variable {s t : State m std} {a : Action m τ}

theorem top_first {top : TimerTask τ} (first : std.top s.timerQueue = some top) :
    ∀ timerTask ∈ std.contents s.timerQueue, top.timePoint ≤ timerTask.timePoint := by
  intro timerTask hmem
  have hmaximal := std.top_maximal s.timerQueue top first timerTask hmem
  simpa [TimerTask.less] using hmaximal

theorem Watchful.timer (h : Watchful s) (loop : TimerLoop s t) : Watchful t := by
  cases loop with
  | leave _ _ => trivial
  | enter _ _ => trivial
  | acquire _ _ => rfl
  | seeEmpty pc empty =>
      rw [Watchful, pc] at h
      refine ⟨h, Multiset.card_eq_zero.mp ?_⟩
      rw [← std.size_eq, empty]
  | seeTask pc _ =>
      rw [Watchful, pc] at h
      exact h
  | block pc =>
      rw [Watchful, pc] at h
      exact .inr h.2
  | take _ _ _ => trivial
  | sleep pc first _ =>
      rw [Watchful, pc] at h
      exact ⟨h, top_first first⟩
  | blockUntil pc =>
      rw [Watchful, pc] at h
      exact .inr h.2
  | reacquire _ _ => trivial
  | run _ => trivial

theorem Watchful.publishLock {timerTask : TimerTask τ} {publishers : List (TimerTask τ)}
    (h : Watchful s) (free : s.timerMutex = none) :
    Watchful { s with
      timerMutex := some .publisher
      timerQueue := std.push s.timerQueue timerTask
      publishers } := by
  rw [Watchful, free] at h
  cases hpc : s.timer with
  | blocked => simp [Watchful]
  | blockedUntil timePoint => simp [Watchful]
  | testEmpty => simp [hpc] at h
  | testTop => simp [hpc] at h
  | wait => simp [hpc] at h
  | waitUntil timePoint => simp [hpc] at h
  | _ => simp [Watchful]

/-- The notification leaves nobody blocked. -/
theorem Watchful.publishNotify (h : Watchful s) (held : s.timerMutex = some .publisher) :
    Watchful { notifyTimer s with timerMutex := none } := by
  rw [Watchful, held] at h
  cases hpc : s.timer with
  | blocked => simp [Watchful, notifyTimer, hpc, TimerPc.isWaiting]
  | blockedUntil timePoint => simp [Watchful, notifyTimer, hpc, TimerPc.isWaiting]
  | testEmpty => simp [hpc] at h
  | testTop => simp [hpc] at h
  | wait => simp [hpc] at h
  | waitUntil timePoint => simp [hpc] at h
  | _ => simp [Watchful, notifyTimer, hpc, TimerPc.isWaiting]

theorem Watchful.transition (h : Watchful s) (htransition : Transition s a t)
    (hstop : a ≠ .stop) : Watchful t := by
  cases htransition with
  | tick => exact h
  | publish _ => exact h
  | publishLock _ free => exact h.publishLock free
  | publishNotify held => exact h.publishNotify held
  | queue _ _ _ => exact h
  | timer loop => exact h.timer loop
  | timeout _ _ => trivial
  | spurious _ => trivial
  | stop _ => exact absurd rfl hstop

end Sleep

section Accepting

variable {s t : State m std} {a : Action m τ}

/-- `Stop` has not begun, and the worker queue takes what is pushed. -/
def Accepting (s : State m std) : Prop :=
  s.stopping = .notCalled ∧ WorkersTold s

theorem Accepting.transition (h : Accepting s) (htransition : Transition s a t)
    (hstop : a ≠ .stop) : Accepting t := by
  refine ⟨?_, h.2.transition htransition⟩
  cases htransition with
  | timer loop => exact loop.stopping_eq.trans h.1
  | stop _ => exact absurd rfl hstop
  | _ => exact h.1

theorem Accepting.not_stopped (h : Accepting s) : s.workerQueue.stopped = false := by
  have htold := h.2
  rw [WorkersTold, h.1] at htold
  exact congrArg Prod.fst htold

/-- A release appends the task to the worker queue. -/
theorem Accepting.pushes {task : τ} (h : Accepting s) (pc : s.timer = .run task)
    (hstep : step s .timer = some t) :
    t.workerQueue.queue = s.workerQueue.queue ++ [task] := by
  have hloop : timerLoop s = some t := hstep
  rw [timerLoop, pc] at hloop
  obtain rfl := Option.some.inj hloop
  simp [TaskQueue.push, h.not_stopped]

end Accepting

section Contract

variable {as : List (Action m τ)} {s : State m std}

/-- `as` is a run without `Stop`, and `s` the state it has reached. -/
structure Delivery (as : List (Action m τ)) (s : State m std) : Prop where
  conserved : (published std as : Multiset (TimerTask τ)) =
    s.publishers + std.contents s.timerQueue + taken std as
  at_most_once : (((released std as).map Prod.snd : List τ) : Multiset τ) ≤
    (published std as : Multiset (TimerTask τ)).map TimerTask.task
  on_time : ReleasedOnTime (taken std as) (released std as) s
  pushes : ∀ task t, s.timer = .run task → step s .timer = some t →
    t.workerQueue.queue = s.workerQueue.queue ++ [task]
  in_order : ∀ top ∈ takes s .timer, ∀ timerTask ∈ std.contents s.timerQueue,
    top.timePoint ≤ timerTask.timePoint
  awake : s.timer.isWaiting → std.contents s.timerQueue = 0 ∨
    (∃ timePoint, s.timer = .blockedUntil timePoint ∧
      ∀ timerTask ∈ std.contents s.timerQueue, timePoint ≤ timerTask.timePoint) ∨
    s.timerMutex = some .publisher

theorem conserved_of_run (run : Run (eventBus m std) NoStop as s) :
    (published std as : Multiset (TimerTask τ)) =
      s.publishers + std.contents s.timerQueue + taken std as := by
  refine run.invariant (fun as s => (published std as : Multiset (TimerTask τ)) =
    s.publishers + std.contents s.timerQueue + taken std as) ?_ ?_
  · simp [published, taken, outputs, eventBus, std.contents_empty]
  · intro as s a t run _ hstep hs
    have hflow := flow_of_transition (step_cases hstep)
    rw [published, taken, run.outputs_extend, run.outputs_extend, ← Multiset.coe_add,
      ← Multiset.coe_add]
    calc (published std as : Multiset (TimerTask τ)) + publishes s a
        = s.publishers + std.contents s.timerQueue + publishes s a + taken std as := by
          rw [hs]
          abel
      _ = t.publishers + std.contents t.timerQueue + takes s a + taken std as := by
          rw [hflow]
      _ = t.publishers + std.contents t.timerQueue + (taken std as + takes s a) := by
          abel

theorem on_time_of_run (run : Run (eventBus m std) NoStop as s) :
    ReleasedOnTime (taken std as) (released std as) s := by
  refine run.invariant (fun as s => ReleasedOnTime (taken std as) (released std as) s) ?_ ?_
  · exact ⟨[], [], rfl, .nil, rfl, by simp⟩
  · intro as s a t run hstop hstep hs
    rw [taken, released, run.outputs_extend, run.outputs_extend]
    exact hs.transition (step_cases hstep) hstop

theorem first_of_takes {top : TimerTask τ} (h : top ∈ takes s .timer) :
    std.top s.timerQueue = some top := by
  simp only [takes] at h
  split at h
  case h_1 first =>
    split at h
    · rw [first, List.mem_singleton.mp h]
    · cases h
  case h_2 => cases h

theorem delivery_of_run (run : Run (eventBus m std) NoStop as s) : Delivery as s where
  conserved := conserved_of_run run
  at_most_once := by
    refine (on_time_of_run run).le_taken.trans (Multiset.map_le_map ?_)
    rw [conserved_of_run run]
    exact Multiset.le_add_left _ _
  on_time := on_time_of_run run
  pushes := by
    have hinit : Accepting (eventBus m std).init := ⟨rfl, rfl⟩
    have haccepting : Accepting s :=
      ReachableUnder.invariant Accepting hinit
        (fun _ _ _ hstop hstep hs => hs.transition (step_cases hstep) hstop) ⟨as, run⟩
    intro task t pc hstep
    exact haccepting.pushes pc hstep
  in_order := fun top htop => top_first (first_of_takes htop)
  awake := by
    have hinit : Watchful (eventBus m std).init := trivial
    have hwatchful : Watchful s :=
      ReachableUnder.invariant Watchful hinit
        (fun _ _ _ hstop hstep hs => hs.transition (step_cases hstep) hstop) ⟨as, run⟩
    intro hwaiting
    rw [Watchful] at hwatchful
    cases hpc : s.timer with
    | blocked =>
        rw [hpc] at hwatchful
        rcases hwatchful with hpublisher | hempty
        · exact .inr (.inr hpublisher)
        · exact .inl hempty
    | blockedUntil timePoint =>
        rw [hpc] at hwatchful
        rcases hwatchful with hpublisher | hbound
        · exact .inr (.inr hpublisher)
        · exact .inr (.inl ⟨timePoint, rfl, hbound⟩)
    | _ => simp [hpc, TimerPc.isWaiting] at hwaiting

/-- A publisher of an earlier deadline is held up in front of the mutex while the timer
thread takes a later one. -/
def overtaken : List (Action 4 Bool) :=
  [.publish 0 false, .publish 1 true, .publishLock 1, .publishNotify, .tick 1,
    .timer, .timer, .timer, .timer, .publishLock 0]

theorem run_overtaken {s : State 4 (sortedListQueue (TimerTask.less (τ := Bool)))}
    (h : exec (eventBus 4 _) (eventBus 4 _).init overtaken = some s) :
    Run (eventBus 4 (sortedListQueue TimerTask.less)) NoStop overtaken s := by
  have hnoStop : ∀ a ∈ overtaken, a ≠ .stop := by simp [overtaken]
  exact Run.start.append_exec h fun a ha _ => hnoStop a ha

theorem delivery_overtaken :
    ∃ s : State 4 (sortedListQueue TimerTask.less), s.timer = .run true ∧
      Delivery overtaken s := by
  obtain ⟨s, hexec, hpc⟩ : ∃ s : State 4 (sortedListQueue TimerTask.less),
      exec (eventBus 4 _) (eventBus 4 _).init overtaken = some s ∧ s.timer = .run true :=
    ⟨_, rfl, rfl⟩
  exact ⟨s, hpc, delivery_of_run (run_overtaken hexec)⟩

/-- At the push into the worker queue an earlier deadline may be pending. -/
theorem releases_out_of_order :
    ¬∀ (as : List (Action 4 Bool)) (s : State 4 (sortedListQueue TimerTask.less)),
      Run (eventBus 4 (sortedListQueue TimerTask.less)) NoStop as s →
      ∀ task, s.timer = .run task → ∀ last ∈ (taken (sortedListQueue TimerTask.less) as).getLast?,
        ∀ timerTask ∈ (sortedListQueue TimerTask.less).contents s.timerQueue,
          ¬timerTask.timePoint < last.timePoint := by
  intro hordered
  obtain ⟨s, hexec, hpc, hpending⟩ : ∃ s : State 4 (sortedListQueue TimerTask.less),
      exec (eventBus 4 _) (eventBus 4 _).init overtaken = some s ∧ s.timer = .run true ∧
        s.timerQueue.1 = [⟨0, false⟩] :=
    ⟨_, rfl, rfl, rfl⟩
  have hlast : (taken (sortedListQueue TimerTask.less) overtaken).getLast? =
      some ⟨1, true⟩ := rfl
  have hmem : ⟨0, false⟩ ∈ (sortedListQueue TimerTask.less).contents s.timerQueue := by
    simp [sortedListQueue, hpending]
  exact hordered overtaken s (run_overtaken hexec) true hpc ⟨1, true⟩ hlast ⟨0, false⟩ hmem
    Nat.zero_lt_one

end Contract

end SkUtils.Concurrency.EventBusTimer
