import SkUtils.Concurrency.EventBusTimer

/-!
What becomes of the events of an `EventBus` in its runs, `Stop` included: an event is on its
way to `timerQueue_`, in it, in the hand of the timer thread, in the worker queue, dropped
there after the queue's `Stop`, or with a worker.
-/

namespace SkUtils.Concurrency.EventBusDelivery

open SkUtils.Library.PriorityQueues
open SkUtils.Library.TransitionSystem
open SkUtils.Concurrency.EventBus
open SkUtils.Concurrency.EventBusStop
open SkUtils.Concurrency.EventBusTimer

variable {m : Nat} {τ : Type} {std : PriorityQueue (TimerTask τ) TimerTask.less}

section Events

/-- A call of `PublishAsync`, whose event is due at once. -/
def publishesAsync (s : State m std) : Action m τ → List (TimerTask τ)
  | .queue (.push event) => [⟨s.now, event⟩]
  | _ => []

def submits (s : State m std) (a : Action m τ) : List (TimerTask τ) :=
  publishes s a ++ publishesAsync s a

/-- The event that comes to the worker queue, from the timer thread or from `PublishAsync`,
and when. -/
def arrives (s : State m std) (a : Action m τ) : List (Nat × τ) :=
  releases s a ++ (publishesAsync s a).map fun timerTask => (s.now, timerTask.task)

/-- `Push` before and after the `Stop` of the worker queue. -/
def accepts (s : State m std) (a : Action m τ) : List (Nat × τ) :=
  if s.workerQueue.stopped then [] else arrives s a

def drops (s : State m std) (a : Action m τ) : List (Nat × τ) :=
  if s.workerQueue.stopped then arrives s a else []

def dropsDelayed (s : State m std) (a : Action m τ) : List (Nat × τ) :=
  if s.workerQueue.stopped then releases s a else []

/-- The event that a `Pop` hands to its worker, and when. -/
def handsOut (s : State m std) : Action m τ → List (Nat × τ)
  | .queue a => (TaskQueueDelivery.returnedTask s.workerQueue a).map fun task => (s.now, task)
  | _ => []

variable (std)

def submitted (as : List (Action m τ)) : List (TimerTask τ) :=
  outputs (eventBus m std) submits (eventBus m std).init as

def accepted (as : List (Action m τ)) : List (Nat × τ) :=
  outputs (eventBus m std) accepts (eventBus m std).init as

def dropped (as : List (Action m τ)) : List (Nat × τ) :=
  outputs (eventBus m std) drops (eventBus m std).init as

def droppedDelayed (as : List (Action m τ)) : List (Nat × τ) :=
  outputs (eventBus m std) dropsDelayed (eventBus m std).init as

def handedOut (as : List (Action m τ)) : List (Nat × τ) :=
  outputs (eventBus m std) handsOut (eventBus m std).init as

end Events

section Transitions

variable {s t : State m std} {a : Action m τ}

theorem now_le_of_transition (h : Transition s a t) : s.now ≤ t.now := by
  cases h with
  | tick => exact Nat.le_add_right _ _
  | timer loop => exact (publishers_eq_of_loop loop).2.ge
  | stop stopping => cases stopping <;> exact le_rfl
  | _ => exact le_rfl

/-- The timer thread holds one task at a time. -/
theorem hand_of_transition (h : Transition s a t) :
    inHand s.timer ++ (takes s a).map TimerTask.task =
      (releases s a).map Prod.snd ++ inHand t.timer := by
  have hidle : takes s a = [] → releases s a = [] → inHand t.timer = inHand s.timer →
      inHand s.timer ++ (takes s a).map TimerTask.task =
        (releases s a).map Prod.snd ++ inHand t.timer := by
    intro htaken hreleased hhand
    rw [htaken, hreleased, hhand]
    exact List.append_nil _
  cases h with
  | timer loop =>
      cases handles_of_loop loop with
      | takes _ _ htaken hreleased hbefore hafter _ =>
          rw [htaken, hreleased, hbefore, hafter]
          rfl
      | releases htaken hreleased hbefore hafter _ =>
          rw [htaken, hreleased, hbefore, hafter]
          rfl
      | idle htaken hreleased hhand _ => exact hidle htaken hreleased hhand
  | publishNotify _ => exact hidle rfl rfl (inHand_notifyTimer s)
  | timeout pc _ => exact hidle rfl rfl (by rw [pc]; rfl)
  | spurious waiting =>
      refine hidle rfl rfl ?_
      rw [← inHand_notifyTimer s, notifyTimer, if_pos waiting]
  | stop stopping =>
      cases stopping with
      | notifyTimer _ => exact hidle rfl rfl (inHand_notifyTimer s)
      | _ => exact hidle rfl rfl rfl
  | _ => exact hidle rfl rfl rfl

theorem arrives_queue (s : State m std) (b : TaskQueue.Action m τ) :
    (arrives s (.queue b)).map Prod.snd = TaskQueueDelivery.pushedTask b := by
  cases b <;> rfl

theorem handsOut_queue (s : State m std) (b : TaskQueue.Action m τ) :
    (handsOut s (.queue b)).map Prod.snd = TaskQueueDelivery.returnedTask s.workerQueue b := by
  rw [handsOut, List.map_map]
  exact List.map_id _

/-- The worker queue is first in, first out, and takes nothing in after its `Stop`. -/
theorem queue_of_transition (h : Transition s a t) :
    s.workerQueue.queue ++ (accepts s a).map Prod.snd =
      (handsOut s a).map Prod.snd ++ t.workerQueue.queue := by
  have hidle : arrives s a = [] → handsOut s a = [] →
      t.workerQueue.queue = s.workerQueue.queue →
      s.workerQueue.queue ++ (accepts s a).map Prod.snd =
        (handsOut s a).map Prod.snd ++ t.workerQueue.queue := by
    intro harrives hhands hqueue
    rw [accepts, harrives, ite_self, hhands, hqueue]
    exact List.append_nil _
  cases h with
  | @queue b q _ _ hstep =>
      have hfifo := (TaskQueueDelivery.fifo_of_step hstep).symm
      rw [← arrives_queue s b, ← handsOut_queue s b] at hfifo
      rw [accepts, apply_ite (List.map Prod.snd)]
      exact hfifo
  | timer loop =>
      cases loop with
      | @run task pc =>
          have hrelease : arrives s .timer = [(s.now, task)] := by
            simp [arrives, releases, publishesAsync, pc]
          have hfifo := (TaskQueueDelivery.fifo_of_step
            (rfl : TaskQueue.step s.workerQueue (.push task) = some _)).symm
          rw [accepts, hrelease, apply_ite (List.map Prod.snd)]
          exact hfifo
      | _ => exact hidle (by simp [arrives, releases, publishesAsync, *]) rfl rfl
  | stop stopping =>
      cases stopping with
      | stopQueue _ hstep =>
          obtain rfl := Option.some.inj hstep
          exact hidle rfl rfl rfl
      | notifyWorkers _ hstep =>
          obtain ⟨-, rfl⟩ := guarded_step hstep
          exact hidle rfl rfl rfl
      | _ => exact hidle rfl rfl rfl
  | _ => exact hidle rfl rfl rfl

end Transitions

section Places

/-- Where the events are that the timer thread has taken or that have come to the worker
queue, each with the time from which it is due. -/
structure Places (τ : Type) where
  hand : List (TimerTask τ)
  queued : List (TimerTask τ)
  dropped : List (TimerTask τ)
  delivered : List (TimerTask τ)

/-- The whereabouts of all events once the run `as` has reached `s`. -/
structure Placed (as : List (Action m τ)) (s : State m std) (places : Places τ) : Prop where
  conserved : (submitted std as : Multiset (TimerTask τ)) =
    s.publishers + std.contents s.timerQueue + places.hand + places.queued + places.dropped +
      places.delivered
  hand : places.hand.map TimerTask.task = inHand s.timer
  queued : places.queued.map TimerTask.task = s.workerQueue.queue
  dropped : List.Forall₂ OnTime places.dropped (EventBusDelivery.dropped std as)
  delivered : List.Forall₂ OnTime places.delivered (handedOut std as)
  in_order : List.Forall₂ OnTime (places.delivered ++ places.queued) (accepted std as)
  due : ∀ timerTask ∈ places.hand ++ places.queued, timerTask.timePoint ≤ s.now

variable {s t : State m std} {a : Action m τ} {as : List (Action m τ)} {places : Places τ}

/-- Events that are due and leave now do so on time. -/
theorem onTime_of_map (now : Nat) {timerTasks : List (TimerTask τ)} {leaving : List (Nat × τ)}
    (h : timerTasks.map TimerTask.task = leaving.map Prod.snd)
    (hdue : ∀ timerTask ∈ timerTasks, timerTask.timePoint ≤ now)
    (hnow : ∀ event ∈ leaving, event.1 = now) : List.Forall₂ OnTime timerTasks leaving := by
  induction timerTasks generalizing leaving with
  | nil =>
      obtain rfl := List.map_eq_nil_iff.mp h.symm
      exact .nil
  | cons timerTask timerTasks ih =>
      cases leaving with
      | nil => cases h
      | cons event leaving =>
          obtain ⟨hevent, hrest⟩ := List.cons.inj h
          obtain ⟨hfirst, hdue⟩ := List.forall_mem_cons.mp hdue
          obtain ⟨hleaves, hnow⟩ := List.forall_mem_cons.mp hnow
          exact .cons ⟨hevent.symm, hleaves.symm ▸ hfirst⟩ (ih hrest hdue hnow)

theorem due_of_takes {top : TimerTask τ} (h : top ∈ takes s a) : top.timePoint ≤ s.now := by
  unfold takes at h
  split at h
  · split at h
    · split at h
      · next hdue => rwa [List.mem_singleton.mp h]
      · cases h
    · cases h
  · cases h

theorem publishesAsync_timePoint {timerTask : TimerTask τ}
    (h : timerTask ∈ publishesAsync s a) : timerTask.timePoint = s.now := by
  unfold publishesAsync at h
  split at h
  · rw [List.mem_singleton.mp h]
  · cases h

theorem arrives_now {event : Nat × τ} (h : event ∈ arrives s a) : event.1 = s.now := by
  rcases List.mem_append.mp h with hreleased | hasync
  · unfold releases at hreleased
    split at hreleased
    · split at hreleased
      · rw [List.mem_singleton.mp hreleased]
      · cases hreleased
    · cases hreleased
  · obtain ⟨timerTask, -, rfl⟩ := List.mem_map.mp hasync
    rfl

theorem handsOut_now {event : Nat × τ} (h : event ∈ handsOut s a) : event.1 = s.now := by
  unfold handsOut at h
  split at h
  · obtain ⟨task, -, rfl⟩ := List.mem_map.mp h
    rfl
  · cases h

/-- What arrives is what leaves the hand of the timer thread or is published at once. -/
theorem arrives_map {leaving : List (TimerTask τ)}
    (h : leaving.map TimerTask.task = (releases s a).map Prod.snd) :
    (leaving ++ publishesAsync s a).map TimerTask.task = (arrives s a).map Prod.snd := by
  rw [arrives, List.map_append, List.map_append, List.map_map, h]
  rfl

/-- The events that arrive in a step, parted into those that `Push` takes in and the rest. -/
theorem exists_parted {arriving : List (TimerTask τ)}
    (h : arriving.map TimerTask.task = (arrives s a).map Prod.snd) :
    ∃ entering lost, arriving = entering ++ lost ∧
      entering.map TimerTask.task = (accepts s a).map Prod.snd ∧
      lost.map TimerTask.task = (drops s a).map Prod.snd := by
  cases hstopped : s.workerQueue.stopped with
  | true =>
      refine ⟨[], arriving, rfl, ?_, ?_⟩
      · rw [accepts, if_pos hstopped]
        rfl
      · rw [drops, if_pos hstopped, h]
  | false =>
      refine ⟨arriving, [], (List.append_nil _).symm, ?_, ?_⟩
      · rw [accepts, hstopped, h]
        rfl
      · rw [drops, hstopped]
        rfl

theorem accepts_subset_arrives : accepts s a ⊆ arrives s a := by
  rw [accepts]
  split
  · exact List.nil_subset _
  · exact List.Subset.refl _

theorem drops_subset_arrives : drops s a ⊆ arrives s a := by
  rw [drops]
  split
  · exact List.Subset.refl _
  · exact List.nil_subset _

/-- The events that move in a step: out of the hand, into the worker queue, past it, and out
of it to a worker. `hand` and `queued` are those that are there afterwards. -/
structure Moves (τ : Type) where
  leaving : List (TimerTask τ)
  entering : List (TimerTask τ)
  lost : List (TimerTask τ)
  out : List (TimerTask τ)
  hand : List (TimerTask τ)
  queued : List (TimerTask τ)

structure Moved (s t : State m std) (a : Action m τ) (places : Places τ) (moves : Moves τ) :
    Prop where
  hand : places.hand ++ takes s a = moves.leaving ++ moves.hand
  arriving : moves.leaving ++ publishesAsync s a = moves.entering ++ moves.lost
  queued : places.queued ++ moves.entering = moves.out ++ moves.queued
  entering_map : moves.entering.map TimerTask.task = (accepts s a).map Prod.snd
  lost_map : moves.lost.map TimerTask.task = (drops s a).map Prod.snd
  out_map : moves.out.map TimerTask.task = (handsOut s a).map Prod.snd
  hand_map : moves.hand.map TimerTask.task = inHand t.timer
  queued_map : moves.queued.map TimerTask.task = t.workerQueue.queue

theorem Placed.exists_moved (h : Placed as s places) (htransition : Transition s a t) :
    ∃ moves, Moved s t a places moves := by
  have hhand := hand_of_transition htransition
  rw [← h.hand, ← List.map_append] at hhand
  obtain ⟨leaving, hand, hleave, hleaving, hhandMap⟩ := List.map_eq_append_iff.mp hhand
  obtain ⟨entering, lost, hparted, hentering, hlost⟩ := exists_parted (arrives_map hleaving)
  have hqueue := queue_of_transition htransition
  rw [← h.queued, ← hentering, ← List.map_append] at hqueue
  obtain ⟨out, queued, hout, houtMap, hqueuedMap⟩ := List.map_eq_append_iff.mp hqueue
  exact ⟨⟨leaving, entering, lost, out, hand, queued⟩, hleave, hparted, hout, hentering, hlost,
    houtMap, hhandMap, hqueuedMap⟩

variable {moves : Moves τ}

theorem Moved.due_hand (h : Moved s t a places moves) (hplaced : Placed as s places) :
    ∀ timerTask ∈ moves.leaving ++ moves.hand, timerTask.timePoint ≤ s.now := by
  intro timerTask hmem
  rw [← h.hand] at hmem
  rcases List.mem_append.mp hmem with hmem | hmem
  · exact hplaced.due timerTask (List.mem_append_left _ hmem)
  · exact due_of_takes hmem

theorem Moved.due_arriving (h : Moved s t a places moves) (hplaced : Placed as s places) :
    ∀ timerTask ∈ moves.entering ++ moves.lost, timerTask.timePoint ≤ s.now := by
  intro timerTask hmem
  rw [← h.arriving] at hmem
  rcases List.mem_append.mp hmem with hmem | hmem
  · exact h.due_hand hplaced timerTask (List.mem_append_left _ hmem)
  · exact (publishesAsync_timePoint hmem).le

theorem Moved.due_queued (h : Moved s t a places moves) (hplaced : Placed as s places) :
    ∀ timerTask ∈ moves.out ++ moves.queued, timerTask.timePoint ≤ s.now := by
  intro timerTask hmem
  rw [← h.queued] at hmem
  rcases List.mem_append.mp hmem with hmem | hmem
  · exact hplaced.due timerTask (List.mem_append_right _ hmem)
  · exact h.due_arriving hplaced timerTask (List.mem_append_left _ hmem)

/-- No event is lost or doubled on the way. -/
theorem Moved.conserved (h : Moved s t a places moves) (htransition : Transition s a t) :
    (s.publishers : Multiset (TimerTask τ)) + std.contents s.timerQueue + places.hand +
        places.queued + places.dropped + places.delivered + submits s a =
      t.publishers + std.contents t.timerQueue + moves.hand + moves.queued +
        (places.dropped + moves.lost) + (places.delivered + moves.out) := by
  have hflow := flow_of_transition htransition
  have hhand : (places.hand : Multiset (TimerTask τ)) + takes s a =
      moves.leaving + moves.hand := by
    rw [Multiset.coe_add, h.hand, Multiset.coe_add]
  have harriving : (moves.leaving : Multiset (TimerTask τ)) + publishesAsync s a =
      moves.entering + moves.lost := by
    rw [Multiset.coe_add, h.arriving, Multiset.coe_add]
  have hqueued : (places.queued : Multiset (TimerTask τ)) + moves.entering =
      moves.out + moves.queued := by
    rw [Multiset.coe_add, h.queued, Multiset.coe_add]
  rw [submits, ← Multiset.coe_add]
  calc
    _ = (s.publishers : Multiset (TimerTask τ)) + std.contents s.timerQueue + publishes s a +
          places.hand + places.queued + publishesAsync s a + places.dropped +
          places.delivered := by
      abel
    _ = t.publishers + std.contents t.timerQueue + (places.hand + takes s a) +
          places.queued + publishesAsync s a + places.dropped + places.delivered := by
      rw [← hflow]
      abel
    _ = t.publishers + std.contents t.timerQueue + moves.hand +
          (moves.leaving + publishesAsync s a) + places.queued + places.dropped +
          places.delivered := by
      rw [hhand]
      abel
    _ = t.publishers + std.contents t.timerQueue + moves.hand +
          (places.queued + moves.entering) + moves.lost + places.dropped +
          places.delivered := by
      rw [harriving]
      abel
    _ = t.publishers + std.contents t.timerQueue + moves.hand + moves.queued +
          (places.dropped + moves.lost) + (places.delivered + moves.out) := by
      rw [hqueued]
      abel

theorem Placed.transition {P : State m std → Action m τ → Prop} (h : Placed as s places)
    (run : Run (eventBus m std) P as s) (htransition : Transition s a t) :
    ∃ places', Placed (as ++ [a]) t places' := by
  obtain ⟨moves, hmoved⟩ := h.exists_moved htransition
  refine ⟨⟨moves.hand, moves.queued, places.dropped ++ moves.lost,
    places.delivered ++ moves.out⟩, ?_⟩
  constructor
  case conserved =>
    rw [submitted, run.outputs_extend, ← submitted, ← Multiset.coe_add, h.conserved,
      hmoved.conserved htransition, Multiset.coe_add, Multiset.coe_add places.delivered]
  case hand => exact hmoved.hand_map
  case queued => exact hmoved.queued_map
  case dropped =>
    rw [EventBusDelivery.dropped, run.outputs_extend]
    refine List.rel_append h.dropped (onTime_of_map s.now hmoved.lost_map ?_ ?_)
    · exact fun timerTask hmem =>
        hmoved.due_arriving h timerTask (List.mem_append_right _ hmem)
    · exact fun event hmem => arrives_now (drops_subset_arrives hmem)
  case delivered =>
    rw [handedOut, run.outputs_extend]
    refine List.rel_append h.delivered (onTime_of_map s.now hmoved.out_map ?_ ?_)
    · exact fun timerTask hmem => hmoved.due_queued h timerTask (List.mem_append_left _ hmem)
    · exact fun event hmem => handsOut_now hmem
  case in_order =>
    rw [accepted, run.outputs_extend, List.append_assoc, ← hmoved.queued, ← List.append_assoc]
    refine List.rel_append h.in_order (onTime_of_map s.now hmoved.entering_map ?_ ?_)
    · exact fun timerTask hmem =>
        hmoved.due_arriving h timerTask (List.mem_append_left _ hmem)
    · exact fun event hmem => arrives_now (accepts_subset_arrives hmem)
  case due =>
    intro timerTask hmem
    refine le_trans ?_ (now_le_of_transition htransition)
    rcases List.mem_append.mp hmem with hmem | hmem
    · exact hmoved.due_hand h timerTask (List.mem_append_right _ hmem)
    · exact hmoved.due_queued h timerTask (List.mem_append_right _ hmem)

theorem placed_of_run {P : State m std → Action m τ → Prop}
    (run : Run (eventBus m std) P as s) : ∃ places, Placed as s places := by
  refine run.invariant (fun as s => ∃ places, Placed as s places) ?_ ?_
  · refine ⟨⟨[], [], [], []⟩, ?_, rfl, rfl, .nil, .nil, .nil, by simp⟩
    simp [submitted, outputs, eventBus, std.contents_empty]
  · rintro as s a t run - hstep ⟨places, hs⟩
    exact hs.transition run (step_cases hstep)

end Places

section Stopped

variable {s t : State m std} {a : Action m τ} {as : List (Action m τ)}

/-- The queue stops after the `exchange` of `Stop`, and `Stop` returns after the timer thread
has left. -/
structure InStop (s : State m std) : Prop where
  told : WorkersTold s
  called : s.stop = true ↔ s.stopping ≠ .notCalled
  joined : JoinedExited s
  timer : s.stopping = .returned → s.timer = .exited

theorem InStop.stop_of_stopped (h : InStop s) (hstopped : s.workerQueue.stopped = true) :
    s.stop = true := by
  refine h.called.mpr fun hpc => ?_
  have htold := h.told
  rw [WorkersTold, hpc] at htold
  exact absurd (congrArg Prod.fst htold) (by simp [flagsAt, hstopped])

theorem InStop.transition (h : InStop s) (htransition : Transition s a t) : InStop t := by
  refine ⟨h.told.transition htransition, ?_, h.joined.transition htransition, ?_⟩
  · cases htransition with
    | timer loop => cases loop <;> exact h.called
    | stop stopping =>
        have hcalled := h.called
        cases stopping with
        | exchange _ => simp
        | stopQueue pc _ => simpa [pc] using hcalled
        | notifyWorkers pc _ => simpa [pc] using hcalled
        | join pc _ _ => simpa [pc] using hcalled
        | joined pc _ => simpa [pc] using hcalled
        | notifyTimer pc => simpa [pc, notifyTimer] using hcalled
        | joinTimer pc _ => simpa [pc] using hcalled
    | _ => exact h.called
  · cases htransition with
    | publishNotify _ =>
        intro hreturned
        have hexited := h.timer hreturned
        simp [notifyTimer, hexited, TimerPc.isWaiting]
    | timer loop =>
        intro hreturned
        have hexited := h.timer (loop.stopping_eq.symm.trans hreturned)
        cases loop <;> simp_all
    | timeout pc _ =>
        intro hreturned
        exact absurd (pc.symm.trans (h.timer hreturned)) (by simp)
    | spurious waiting =>
        intro hreturned
        rw [h.timer hreturned] at waiting
        cases waiting
    | stop stopping =>
        cases stopping with
        | joinTimer _ exited => exact fun _ => exited
        | _ => exact fun hreturned => by simp at hreturned
    | _ => exact h.timer

theorem inStop_of_reachable (h : Reachable (eventBus m std) s) : InStop s := by
  refine h.invariant InStop ?_ fun s a t hstep hs => hs.transition (step_cases hstep)
  exact ⟨rfl, by simp [eventBus], by simp [JoinedExited, eventBus, joinedWorkers],
    by simp [eventBus]⟩

/-- The timer thread ends at its next test of `stop_`, or has ended. -/
def Leaving (s : State m std) : Prop :=
  s.stop = true ∧ (s.timer = .testStop ∨ s.timer = .exited)

theorem Leaving.notifyTimer (h : Leaving s) : (notifyTimer s).timer = s.timer := by
  rcases h.2 with hpc | hpc <;> simp [EventBus.notifyTimer, hpc, TimerPc.isWaiting]

theorem Leaving.transition (h : Leaving s) (htransition : Transition s a t) : Leaving t := by
  have hsame := h.notifyTimer
  obtain ⟨hstop, hpc⟩ := h
  cases htransition with
  | publishNotify _ => exact ⟨hstop, by simpa [hsame] using hpc⟩
  | timer loop =>
      cases loop with
      | leave _ _ => exact ⟨hstop, .inr rfl⟩
      | enter _ running => simp [hstop] at running
      | _ => simp_all
  | timeout pc _ => simp [pc] at hpc
  | spurious waiting =>
      rcases hpc with hpc | hpc <;> simp [hpc, TimerPc.isWaiting] at waiting
  | stop stopping =>
      cases stopping with
      | exchange _ => exact ⟨rfl, hpc⟩
      | notifyTimer _ => exact ⟨hstop, by simpa [hsame] using hpc⟩
      | _ => exact ⟨hstop, hpc⟩
  | _ => exact ⟨hstop, hpc⟩

/-- The timer thread drops one event at most, since `stop_` is set before the worker queue
stops. -/
structure DropsOne (as : List (Action m τ)) (s : State m std) : Prop where
  inStop : InStop s
  one : (droppedDelayed std as).length ≤ 1
  leaving : droppedDelayed std as ≠ [] → Leaving s

theorem dropsDelayed_cases (s : State m std) (a : Action m τ) : dropsDelayed s a = [] ∨
    s.workerQueue.stopped = true ∧ a = .timer ∧ ∃ task, s.timer = .run task ∧
      dropsDelayed s a = [(s.now, task)] := by
  cases hstopped : s.workerQueue.stopped with
  | false => exact .inl (by simp [dropsDelayed, hstopped])
  | true =>
      cases a with
      | timer =>
          cases hpc : s.timer with
          | run task => exact .inr ⟨rfl, rfl, task, rfl, by simp [dropsDelayed, releases, *]⟩
          | _ => exact .inl (by simp [dropsDelayed, releases, hpc])
      | _ => exact .inl (by simp [dropsDelayed, releases])

theorem DropsOne.transition {P : State m std → Action m τ → Prop} (h : DropsOne as s)
    (run : Run (eventBus m std) P as s) (htransition : Transition s a t) :
    DropsOne (as ++ [a]) t := by
  have hdrops : droppedDelayed std (as ++ [a]) = droppedDelayed std as ++ dropsDelayed s a :=
    run.outputs_extend a
  have hinStop := h.inStop.transition htransition
  rcases dropsDelayed_cases s a with hnone | ⟨hstopped, rfl, task, hpc, hone⟩
  · rw [hnone, List.append_nil] at hdrops
    refine ⟨hinStop, hdrops ▸ h.one, fun hne => ?_⟩
    exact (h.leaving (hdrops ▸ hne)).transition htransition
  · have hfirst : droppedDelayed std as = [] := by
      by_contra hne
      rcases (h.leaving hne).2 with hleaving | hleaving <;> simp [hpc] at hleaving
    rw [hone, hfirst] at hdrops
    refine ⟨hinStop, by simp [hdrops], fun _ => ?_⟩
    cases htransition with
    | timer loop =>
        cases loop with
        | run _ => exact ⟨h.inStop.stop_of_stopped hstopped, .inl rfl⟩
        | _ => simp_all

theorem dropsOne_of_run {P : State m std → Action m τ → Prop}
    (run : Run (eventBus m std) P as s) : DropsOne as s := by
  refine run.invariant DropsOne ?_ fun as s a t run _ hstep hs =>
    hs.transition run (step_cases hstep)
  have hinit : Reachable (eventBus m std) (eventBus m std).init := ⟨[], .start⟩
  exact ⟨inStop_of_reachable hinit, Nat.zero_le _, fun hne => absurd rfl hne⟩

/-- In every run each event is in one place, and leaves it when it is due and not before. The
timer thread drops at most one event after the `Stop` of the worker queue. When `Stop` has
returned, all threads have ended and nothing is left in their hands or in the worker queue. -/
theorem events_accounted (run : Run (eventBus m std) Unrestricted as s) :
    (∃ places, Placed as s places) ∧ (droppedDelayed std as).length ≤ 1 ∧
    (s.stopping = .returned → s.timer = .exited ∧ (∀ w, s.workerQueue.workers w = .exited) ∧
      (0 < m → s.workerQueue.queue = [])) := by
  have hdrops := dropsOne_of_run run
  refine ⟨placed_of_run run, hdrops.one, fun hreturned => ?_⟩
  have hexited : ∀ w, s.workerQueue.workers w = .exited := by
    intro w
    exact hdrops.inStop.joined w (by rw [hreturned]; exact w.isLt)
  refine ⟨hdrops.inStop.timer hreturned, hexited, fun hm => ?_⟩
  obtain ⟨bs, hqueue⟩ := reachable_workerQueue run.reachable
  exact ((TaskQueueDelivery.accounted_of_run hqueue).left ⟨0, hm⟩ (hexited ⟨0, hm⟩)).2

/-- The bus is stopped while the timer thread holds the event `5`, which is dropped; the event
`7` is handed to the worker. -/
def stopWhileDue : List (Action 1 Nat) :=
  [.publish 0 5, .publishLock 0, .publishNotify, .queue (.push 7), .timer, .timer, .timer,
    .timer, .stop, .stop, .timer, .timer, .stop, .queue (.pop (Fin.last 0)),
    .queue (.run (Fin.last 0)), .queue (.pop (Fin.last 0)), .stop, .stop, .stop, .stop]

theorem events_accounted_stopWhileDue :
    ∃ s, exec (eventBus 1 (sortedListQueue (TimerTask.less (τ := Nat))))
        (eventBus 1 (sortedListQueue TimerTask.less)).init stopWhileDue = some s ∧
      (∃ places, Placed stopWhileDue s places) ∧ s.workerQueue.queue = [] := by
  have hexec : exec (eventBus 1 (sortedListQueue (TimerTask.less (τ := Nat))))
      (eventBus 1 (sortedListQueue TimerTask.less)).init stopWhileDue = some _ := rfl
  obtain ⟨hplaced, -, hends⟩ := events_accounted (run_of_exec hexec)
  exact ⟨_, hexec, hplaced, (hends rfl).2.2 (by decide)⟩

end Stopped

end SkUtils.Concurrency.EventBusDelivery
