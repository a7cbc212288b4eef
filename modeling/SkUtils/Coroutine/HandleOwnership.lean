import SkUtils.Library.OwnedCells
import SkUtils.Library.TransitionSystem

/-!
The handles of `Task` and `Generator`, which move from object to object. An object is a local or
a parameter of a coroutine, and lives in its frame, or it lives in no frame. Its destructor
destroys the frame that it owns, with the objects in it; no frame may be destroyed while it
runs. Who resumes a frame is left open.
-/

namespace SkUtils.Coroutine.HandleOwnership

open SkUtils.Library.TransitionSystem
open SkUtils.Library.OwnedCells

/-- `home` is the frame in which the new object lives, if any. -/
inductive Action
  | call (home : Option Nat)
  | generator (home : Option Nat)
  | moveConstruct (home : Option Nat) (other : Nat)
  | moveAssign (this other : Nat)
  | destruct (this : Nat)

/-- The call of a coroutine: `get_return_object` makes an object for the new frame. -/
def call (h : Heap) (home : Option Nat) : Heap :=
  (h.addSlot home).fill h.slotCount

/-- `Generator()`, which owns no frame. -/
def generator (h : Heap) (home : Option Nat) : Heap :=
  h.addSlot home

/-- `Task(Task&& other)`. -/
def moveConstruct (h : Heap) (home : Option Nat) (other : Nat) : Option Heap :=
  (h.slots other).map fun _ => (h.addSlot home).transfer h.slotCount other

/-- `operator=(Task&& other)`, which reads `other` after the end of the old frame. -/
def moveAssign (h : Heap) (this other : Nat) : Option Heap := do
  let task ← h.slots this
  let _ ← h.slots other
  if this = other then
    some h
  else
    let h ← task.handle.elim (some h) h.destroy
    let _ ← h.slots this
    let _ ← h.slots other
    some (h.transfer this other)

/-- `~Task()`. -/
def destruct (h : Heap) (this : Nat) : Option Heap :=
  h.release this

/-- `none` where an object is used that is gone, or a frame is destroyed for the second time. -/
def perform (h : Heap) : Action → Option Heap
  | .call home => if ∀ c ∈ home, h.Alive c then some (call h home) else none
  | .generator home => if ∀ c ∈ home, h.Alive c then some (generator h home) else none
  | .moveConstruct home other =>
      if ∀ c ∈ home, h.Alive c then moveConstruct h home other else none
  | .moveAssign this other => moveAssign h this other
  | .destruct this => destruct h this

/-- `running` are the frames that some thread executes. -/
structure State where
  heap : Heap
  running : List Nat

inductive Event
  | run (frame : Nat)
  | suspend (frame : Nat)
  | handle (a : Action)

/-- A frame that is gone must not run, and one that runs must not be destroyed. -/
def step (s : State) : Event → Option State
  | .run frame =>
      if s.heap.Alive frame ∧ frame ∉ s.running then
        some { s with running := frame :: s.running }
      else none
  | .suspend frame =>
      if frame ∈ s.running then some { s with running := s.running.erase frame } else none
  | .handle a => do
      let heap ← perform s.heap a
      if ∀ frame ∈ s.running, heap.Alive frame then some { s with heap } else none

def frames : System State Event where
  init := { heap := Heap.empty, running := [] }
  step := step

/-- The objects and the frames in the action exist. -/
def Exists (h : Heap) : Action → Prop
  | .call home => ∀ c ∈ home, h.Alive c
  | .generator home => ∀ c ∈ home, h.Alive c
  | .moveConstruct home other => (∀ c ∈ home, h.Alive c) ∧ ∃ task, h.slots other = some task
  | .moveAssign this other =>
      (∃ task, h.slots this = some task) ∧ ∃ task, h.slots other = some task
  | .destruct this => ∃ task, h.slots this = some task

/-- The frames that the action destroys. -/
def ends (h : Heap) : Action → Set Nat
  | .moveAssign this other => {c | this ≠ other ∧ c ∈ h.cellsOf this}
  | .destruct this => h.cellsOf this
  | _ => ∅

def Suspended (s : State) (a : Action) : Prop :=
  ∀ frame ∈ s.running, frame ∉ ends s.heap a

/-- No handle goes below its own frame, and none comes from below the frame that it replaces. -/
def Apart (h : Heap) : Action → Prop
  | .moveConstruct home other => ∀ task frame, h.slots other = some task →
      task.handle = some frame → ∀ c ∈ home, c ∉ h.below frame
  | .moveAssign this other => this ≠ other →
      (∀ task frame, h.slots other = some task → task.handle = some frame →
        this ∉ h.inside frame) ∧
      ∀ task frame, h.slots this = some task → task.handle = some frame → other ∉ h.inside frame
  | _ => True

def KeptApart (s : State) : Event → Prop
  | .handle a => Apart s.heap a
  | _ => True

section Steps

variable {h h' : Heap} {a : Action} {this other : Nat} {home : Option Nat}

theorem exists_of_perform (hstep : perform h a = some h') : Exists h a := by
  cases a with
  | call home => exact (guarded_step hstep).1
  | generator home => exact (guarded_step hstep).1
  | moveConstruct home other =>
      obtain ⟨hhome, hstep⟩ := Option.ite_none_right_eq_some.mp hstep
      obtain ⟨task, htask, -⟩ := Option.map_eq_some_iff.mp hstep
      exact ⟨hhome, task, htask⟩
  | moveAssign this other =>
      obtain ⟨task, htask, hstep⟩ := Option.bind_eq_some_iff.mp hstep
      obtain ⟨source, hsource, -⟩ := Option.bind_eq_some_iff.mp hstep
      exact ⟨⟨task, htask⟩, source, hsource⟩
  | destruct this =>
      obtain ⟨task, htask, -⟩ := Option.bind_eq_some_iff.mp hstep
      exact ⟨task, htask⟩

theorem slots_new (h : Heap) (home : Option Nat) :
    (h.addSlot home).slots h.slotCount = some ⟨none, home⟩ :=
  Function.update_self ..

theorem call_wellFormed (hwf : WellFormed h) (hhome : ∀ c ∈ home, h.Alive c) :
    WellFormed (call h home) :=
  (hwf.addSlot hhome).fill (slots_new h home)

theorem new_mem_inside (hwf : WellFormed h) {frame : Nat} :
    h.slotCount ∈ (h.addSlot home).inside frame ↔ ∃ c ∈ home, c ∈ h.below frame := by
  cases home with
  | none =>
      have hout := not_mem_inside_of_outside (c := frame) (slots_new h none)
      simpa using hout
  | some d =>
      rw [mem_inside_iff (slots_new h (some d)), below_addSlot hwf]
      simp

theorem moveConstruct_wellFormed (hwf : WellFormed h) (hhome : ∀ c ∈ home, h.Alive c)
    (hapart : Apart h (.moveConstruct home other)) (hstep : moveConstruct h home other = some h') :
    WellFormed h' := by
  obtain ⟨⟨handle, home'⟩, hother, rfl⟩ := Option.map_eq_some_iff.mp hstep
  have hadd : WellFormed (h.addSlot home) := hwf.addSlot hhome
  have hother' := slots_addSlot hwf home hother
  cases handle with
  | none => rwa [transfer_none (slots_new h home) hother']
  | some frame =>
      refine hadd.transfer (slots_new h home) hother' ?_
      rw [new_mem_inside hwf]
      rintro ⟨c, hc, hbelow⟩
      exact hapart _ frame hother rfl c hc hbelow

theorem moveAssign_eq (hwf : WellFormed h) (hne : this ≠ other) {handle : Option Nat}
    {source : Slot} (hthis : h.slots this = some ⟨handle, home⟩)
    (hother : h.slots other = some source) : ∃ h₁, Reset h this handle home h₁ ∧
      moveAssign h this other = (h₁.slots other).map fun _ => h₁.transfer this other := by
  obtain ⟨h₁, hrun, hreset⟩ := hwf.reset hthis
  refine ⟨h₁, hreset, ?_⟩
  simp only [moveAssign, hthis, hother, if_neg hne, hrun, hreset.slot_eq, Option.bind_eq_bind,
    Option.bind_some]
  rw [Option.map_eq_bind]
  rfl

theorem moveAssign_wellFormed (hwf : WellFormed h) (hapart : Apart h (.moveAssign this other))
    (hstep : moveAssign h this other = some h') : WellFormed h' := by
  obtain ⟨⟨⟨handle, home⟩, hthis⟩, ⟨handle', home'⟩, hother⟩ :=
    exists_of_perform (a := .moveAssign this other) hstep
  by_cases hne : this = other
  · subst hne
    simp only [moveAssign, hthis, Option.bind_eq_bind, Option.bind_some] at hstep
    exact Option.some.inj hstep ▸ hwf
  · obtain ⟨hbelow, habove⟩ := hapart hne
    obtain ⟨h₁, hreset, heq⟩ := moveAssign_eq hwf hne hthis hother
    have hother₁ : h₁.slots other = some ⟨handle', home'⟩ :=
      (hreset.kept other fun d hd => habove _ d hthis hd).trans hother
    rw [heq, hother₁] at hstep
    obtain rfl := Option.some.inj hstep
    obtain ⟨hself, hrest⟩ := slots_setHandle hreset.slot_eq none
    rw [← transfer_setHandle (Ne.symm hne) hreset.slot_eq]
    have hother₂ := (hrest other (Ne.symm hne)).trans hother₁
    cases handle' with
    | none =>
        rw [transfer_none hself hother₂]
        exact hreset.wellFormed
    | some frame =>
        refine hreset.wellFormed.transfer hself hother₂ fun hmem => ?_
        obtain ⟨_, c, hslot, hc⟩ := mem_inside.mp hmem
        rw [hself] at hslot
        cases hslot
        refine hbelow _ frame hother rfl ((mem_inside_iff hthis).mpr ?_)
        exact below_mono (fun _ _ => hreset.holds_old) hc

theorem perform_wellFormed (hwf : WellFormed h) (hapart : Apart h a)
    (hstep : perform h a = some h') : WellFormed h' := by
  cases a with
  | call home =>
      obtain ⟨hhome, rfl⟩ := guarded_step hstep
      exact call_wellFormed hwf hhome
  | generator home =>
      obtain ⟨hhome, rfl⟩ := guarded_step hstep
      exact hwf.addSlot hhome
  | moveConstruct home other =>
      obtain ⟨hhome, hstep⟩ := Option.ite_none_right_eq_some.mp hstep
      exact moveConstruct_wellFormed hwf hhome hapart hstep
  | moveAssign this other => exact moveAssign_wellFormed hwf hapart hstep
  | destruct this =>
      obtain ⟨task, htask⟩ := exists_of_perform hstep
      obtain ⟨h₁, hrun, he⟩ := hwf.release htask
      obtain rfl := Option.some.inj (hrun.symm.trans hstep)
      exact hwf.released he

/-- An action on what exists uses nothing that is gone. -/
theorem perform_of_exists (hwf : WellFormed h) (hexists : Exists h a) (hapart : Apart h a) :
    ∃ h', perform h a = some h' := by
  cases a with
  | call home => exact ⟨_, if_pos hexists⟩
  | generator home => exact ⟨_, if_pos hexists⟩
  | moveConstruct home other =>
      obtain ⟨hhome, task, htask⟩ := hexists
      exact ⟨_, (if_pos hhome).trans (Option.map_eq_some_iff.mpr ⟨task, htask, rfl⟩)⟩
  | moveAssign this other =>
      obtain ⟨⟨⟨handle, home⟩, hthis⟩, source, hother⟩ := hexists
      by_cases hne : this = other
      · subst hne
        exact ⟨h, by simp [perform, moveAssign, hthis]⟩
      · obtain ⟨h₁, hreset, heq⟩ := moveAssign_eq hwf hne hthis hother
        have hother₁ := (hreset.kept other fun d hd => (hapart hne).2 _ d hthis hd).trans hother
        exact ⟨h₁.transfer this other, heq.trans (by rw [hother₁, Option.map_some])⟩
  | destruct this =>
      obtain ⟨task, htask⟩ := hexists
      obtain ⟨h₁, hrun, -⟩ := hwf.release htask
      exact ⟨h₁, hrun⟩

/-- An action ends nothing but the frames below a handle that it gives up. -/
theorem alive_of_perform (hwf : WellFormed h) (hstep : perform h a = some h') {c : Nat}
    (hc : h.Alive c) : h'.Alive c ↔ c ∉ ends h a := by
  cases a with
  | call home =>
      obtain ⟨-, rfl⟩ := guarded_step hstep
      exact iff_of_true ⟨Nat.lt_succ_of_lt hc.1, hc.2⟩ id
  | generator home =>
      obtain ⟨-, rfl⟩ := guarded_step hstep
      exact iff_of_true hc id
  | moveConstruct home other =>
      obtain ⟨-, hstep⟩ := Option.ite_none_right_eq_some.mp hstep
      obtain ⟨task, -, rfl⟩ := Option.map_eq_some_iff.mp hstep
      exact iff_of_true hc id
  | moveAssign this other =>
      obtain ⟨⟨⟨handle, home⟩, hthis⟩, source, hother⟩ := exists_of_perform hstep
      by_cases hne : this = other
      · subst hne
        simp only [perform, moveAssign, hthis, Option.bind_eq_bind, Option.bind_some] at hstep
        obtain rfl := Option.some.inj hstep
        exact iff_of_true hc fun hends => hends.1 rfl
      · obtain ⟨h₁, hreset, heq⟩ := moveAssign_eq hwf hne hthis hother
        obtain ⟨_, -, rfl⟩ := Option.map_eq_some_iff.mp (heq.symm.trans hstep)
        have halive : h₁.Alive c ↔ c ∉ h.cellsOf this :=
          (hreset.alive_iff c).trans (and_iff_right hc)
        exact halive.trans (not_congr (and_iff_right hne).symm)
  | destruct this =>
      obtain ⟨task, htask⟩ := exists_of_perform hstep
      obtain ⟨h₁, hrun, he⟩ := hwf.release htask
      obtain rfl := Option.some.inj (hrun.symm.trans hstep)
      exact (he.alive_iff c).trans (and_iff_right hc)

end Steps

section Ownership

variable {h : Heap} {s t : State} {a : Action} {es : List Event}

theorem step_handle (hstep : step s (.handle a) = some t) :
    perform s.heap a = some t.heap ∧ t.running = s.running ∧
      ∀ frame ∈ s.running, t.heap.Alive frame := by
  obtain ⟨heap, hperform, hguard⟩ := Option.bind_eq_some_iff.mp hstep
  obtain ⟨halive, rfl⟩ := guarded_step hguard
  exact ⟨hperform, rfl, halive⟩

/-- The owners are in order, and what runs exists. -/
structure Ordered (s : State) : Prop where
  wellFormed : WellFormed s.heap
  running : ∀ frame ∈ s.running, s.heap.Alive frame

theorem Ordered.step {e : Event} (hs : Ordered s) (hapart : KeptApart s e)
    (hstep : step s e = some t) : Ordered t := by
  cases e with
  | run frame =>
      obtain ⟨⟨halive, -⟩, rfl⟩ := guarded_step hstep
      exact ⟨hs.wellFormed, List.forall_mem_cons.mpr ⟨halive, hs.running⟩⟩
  | suspend frame =>
      obtain ⟨-, rfl⟩ := guarded_step hstep
      exact ⟨hs.wellFormed, fun c hc => hs.running c (List.mem_of_mem_erase hc)⟩
  | handle a =>
      obtain ⟨hperform, hsame, halive⟩ := step_handle hstep
      exact ⟨perform_wellFormed hs.wellFormed hapart hperform, hsame ▸ halive⟩

theorem ordered_of_run (run : Run frames KeptApart es s) : Ordered s :=
  run.invariant (fun _ s => Ordered s) ⟨wellFormed_empty, fun _ h => absurd h List.not_mem_nil⟩
    fun _ _ _ _ _ hapart hstep hs => hs.step hapart hstep

theorem step_of_perform (hs : Ordered s) (hperform : perform s.heap a = some h) :
    step s (.handle a) = some { s with heap := h } ↔ Suspended s a := by
  have halive : (∀ frame ∈ s.running, h.Alive frame) ↔ Suspended s a :=
    forall₂_congr fun c hc => alive_of_perform hs.wellFormed hperform (hs.running c hc)
  rw [← halive, HandleOwnership.step, hperform]
  constructor
  · intro hstep
    exact (guarded_step hstep).1
  · exact fun h => if_pos h

/-- Every frame has one owner as long as it lives, nothing that is gone is used, and when the
last object outside of the frames is gone, each frame has been destroyed once. -/
theorem frames_destroyed_once (run : Run frames KeptApart es s) :
    WellFormed s.heap ∧
      (∀ a, Apart s.heap a → Suspended s a →
        ((∃ t, step s (.handle a) = some t) ↔ Exists s.heap a)) ∧
      ((∀ this task, s.heap.slots this = some task → task.home ≠ none) →
        (∀ this, s.heap.slots this = none) ∧
          s.heap.destroyed.Perm (List.range s.heap.cellCount)) := by
  have hs := ordered_of_run run
  refine ⟨hs.wellFormed, fun a hapart hsuspended => ⟨?_, fun hexists => ?_⟩,
    hs.wellFormed.all_ended⟩
  · rintro ⟨t, hstep⟩
    exact exists_of_perform (step_handle hstep).1
  · obtain ⟨h, hperform⟩ := perform_of_exists hs.wellFormed hexists hapart
    exact ⟨_, (step_of_perform hs hperform).mpr hsuspended⟩

/-- A frame with a child, which it runs, replaced by a third frame. -/
def replaced : List Event :=
  [.handle (.call none), .handle (.call (some 0)), .handle (.call none), .run 0, .run 1,
    .suspend 1, .suspend 0, .handle (.moveAssign 0 2)]

theorem frames_destroyed_once_replaced : ∃ s,
    exec frames frames.init (replaced ++ [.handle (.destruct 2), .handle (.destruct 0)]) = some s ∧
      s.heap.destroyed.Perm (List.range 3) := by
  have hcalls : Run frames KeptApart (replaced.take 7) _ :=
    Run.append_exec .start (rfl : exec frames frames.init _ = some _)
      (by simp [KeptApart, Apart])
  have hassign : Run frames KeptApart replaced _ :=
    hcalls.extend (fun _ => ⟨fun _ _ _ _ => not_mem_inside_of_outside rfl,
      fun _ _ _ _ => not_mem_inside_of_outside rfl⟩)
      (rfl : frames.step _ (.handle (.moveAssign 0 2)) = some _)
  have hrun : Run frames KeptApart
      (replaced ++ [.handle (.destruct 2), .handle (.destruct 0)]) _ :=
    hassign.append_exec (rfl : exec frames _ _ = some _) (by simp [KeptApart, Apart])
  obtain ⟨hwf, -, hends⟩ := frames_destroyed_once hrun
  refine ⟨_, rfl, (hends fun this task htask => ?_).2⟩
  obtain rfl | rfl | rfl : this = 0 ∨ this = 1 ∨ this = 2 := by
    have hlt : this < 3 := hwf.slot_lt this task htask
    omega
  · cases (show none = some task from htask)
  · cases (show none = some task from htask)
  · cases (show none = some task from htask)

/-- An action that leaves every frame in reach keeps each handle apart from the frames below it. -/
theorem apart_of_held {h' : Heap} (hwf : WellFormed h) (hstep : perform h a = some h')
    (hheld : ∀ c, h'.Alive c → h'.Held c) : Apart h a := by
  cases a with
  | call home => trivial
  | generator home => trivial
  | destruct this => trivial
  | moveConstruct home other =>
      obtain ⟨hhome, hstep⟩ := Option.ite_none_right_eq_some.mp hstep
      obtain ⟨⟨handle, home'⟩, hother, rfl⟩ := Option.map_eq_some_iff.mp hstep
      intro task frame htask hframe c hc hbelow
      obtain rfl := Option.some.inj (hother.symm.trans htask)
      obtain rfl : handle = some frame := hframe
      have hadd : WellFormed (h.addSlot home) := hwf.addSlot hhome
      have hother' := slots_addSlot hwf home hother
      have hin : h.slotCount ∈ (h.addSlot home).inside frame :=
        (new_mem_inside hwf).mpr ⟨c, hc, hbelow⟩
      refine hadd.not_held_transfer (slots_new h home) hother' hin (hheld frame ?_)
      exact hadd.handle_alive other _ frame hother' rfl
  | moveAssign this other =>
      intro hne
      obtain ⟨⟨⟨handle, home⟩, hthis⟩, ⟨handle', home'⟩, hother⟩ := exists_of_perform hstep
      obtain ⟨h₁, hreset, heq⟩ := moveAssign_eq hwf hne hthis hother
      obtain ⟨source, hsource, rfl⟩ := Option.map_eq_some_iff.mp (heq.symm.trans hstep)
      have hout : ∀ d, handle = some d → other ∉ h.inside d := by
        intro d hd hmem
        rw [hreset.gone d hd other hmem] at hsource
        cases hsource
      refine ⟨?_, ?_⟩
      · intro task frame htask hframe hmem
        obtain rfl := Option.some.inj (hother.symm.trans htask)
        obtain rfl : handle' = some frame := hframe
        obtain ⟨_, c, hslot, hc⟩ := mem_inside.mp hmem
        rw [hthis] at hslot
        cases hslot
        obtain ⟨hself, hrest⟩ := slots_setHandle hreset.slot_eq none
        have hother₂ := (hrest other (Ne.symm hne)).trans ((hreset.kept other hout).trans hother)
        have hin := (mem_inside_iff hself).mpr (hreset.below_kept hwf hthis hc)
        refine hreset.wellFormed.not_held_transfer hself hother₂ hin ?_
        rw [transfer_setHandle (Ne.symm hne) hreset.slot_eq]
        exact hheld frame (hreset.wellFormed.handle_alive other _ frame hother₂ rfl)
      · intro task frame htask hframe
        obtain rfl := Option.some.inj (hthis.symm.trans htask)
        exact hout frame hframe

/-- The actions that keep every frame in reach, and use nothing that is gone, are those that
keep a handle apart from the frames below it and destroy no frame that runs. -/
theorem apart_iff (run : Run frames KeptApart es s) (hexists : Exists s.heap a) :
    (∃ t, step s (.handle a) = some t ∧ ∀ c, t.heap.Alive c → t.heap.Held c) ↔
      Apart s.heap a ∧ Suspended s a := by
  have hs := ordered_of_run run
  constructor
  · rintro ⟨t, hstep, hheld⟩
    obtain ⟨hperform, -, halive⟩ := step_handle hstep
    refine ⟨apart_of_held hs.wellFormed hperform hheld, fun c hc => ?_⟩
    exact (alive_of_perform hs.wellFormed hperform (hs.running c hc)).mp (halive c hc)
  · rintro ⟨hapart, hsuspended⟩
    obtain ⟨h, hperform⟩ := perform_of_exists hs.wellFormed hexists hapart
    exact ⟨_, (step_of_perform hs hperform).mpr hsuspended,
      (perform_wellFormed hs.wellFormed hapart hperform).held⟩

/-- An assignment from a local of the frame that it destroys. -/
theorem apart_iff_ownLocal : ∃ s,
    exec frames frames.init [.handle (.call none), .handle (.call (some 0))] = some s ∧
      ¬∃ t, step s (.handle (.moveAssign 0 1)) = some t ∧
        ∀ c, t.heap.Alive c → t.heap.Held c := by
  have hrun : Run frames KeptApart [.handle (.call none), .handle (.call (some 0))] _ :=
    Run.append_exec .start (rfl : exec frames frames.init _ = some _)
      (by simp [KeptApart, Apart])
  refine ⟨_, rfl, fun hstep => ?_⟩
  obtain ⟨hapart, -⟩ := (apart_iff hrun (a := .moveAssign 0 1) ⟨⟨_, rfl⟩, _, rfl⟩).mp hstep
  exact (hapart Nat.zero_ne_one).2 _ 0 rfl rfl (mem_inside.mpr ⟨_, 0, rfl, mem_below_self⟩)

end Ownership

end SkUtils.Coroutine.HandleOwnership
