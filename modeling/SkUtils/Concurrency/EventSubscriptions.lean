import Mathlib.Logic.Function.Basic
import SkUtils.Library.TransitionSystem

/-!
`Subscribe` and `Publish` of `EventBus`, called by any threads and by the callbacks that
`Publish` runs. A thread is the stack of its calls, and each step under `mapMutex_`, each
call of a callback and each return from one is an action of its own.
-/

namespace SkUtils.Concurrency.EventSubscriptions

open SkUtils.Library.TransitionSystem

variable {T C : Type} [DecidableEq T]

section Code

/-- The next step of `Subscribe`. -/
inductive SubscribePc
  | lock
  | find
  | add
  | unlock

/-- The next step of `Publish`: `GetHandlers` up to its `unlock`, the test of what it has
returned, and the loop from `idx` to the `last` that was the end when it began. -/
inductive PublishPc
  | lock
  | find
  | unlock (handlers : Bool)
  | test (handlers : Bool)
  | iterate (idx last : Nat)

inductive Frame (T C : Type)
  | subscribe (type : T) (callback : C) (pc : SubscribePc)
  | publish (type : T) (pc : PublishPc)
  | callback (callback : C)

/-- `subscribers` has the handler list of a type from its first `Subscribe` on. -/
structure Shared (T C : Type) where
  mapMutex : Option Nat
  subscribers : T → Option (List C)

structure State (T C : Type) where
  shared : Shared T C
  threads : List (List (Frame T C))

/-- A call, the next step of the innermost call, or the return of a callback. -/
inductive Move (T C : Type)
  | subscribe (type : T) (callback : C)
  | publish (type : T)
  | next
  | finish

structure Action (T C : Type) where
  thread : Nat
  move : Move T C

def Shared.create (shared : Shared T C) (type : T) : Shared T C :=
  match shared.subscribers type with
  | none => { shared with subscribers := Function.update shared.subscribers type (some []) }
  | some _ => shared

def Shared.add (shared : Shared T C) (type : T) (callback : C) : Shared T C :=
  { shared with
    subscribers := Function.update shared.subscribers type
      ((shared.subscribers type).map fun callbacks => callbacks ++ [callback]) }

def Shared.callbacks (shared : Shared T C) (type : T) : List C :=
  (shared.subscribers type).getD []

/-- The code of the user runs: outside all calls, or in a callback. -/
def inUserCode : List (Frame T C) → Bool
  | [] => true
  | .callback _ :: _ => true
  | _ => false

def Subscribe (shared : Shared T C) (i : Nat) (type : T) (callback : C)
    (stack : List (Frame T C)) : SubscribePc → Option (Shared T C × List (Frame T C))
  | .lock =>
      if shared.mapMutex = none then
        some ({ shared with mapMutex := some i }, .subscribe type callback .find :: stack)
      else
        none
  | .find => some (shared.create type, .subscribe type callback .add :: stack)
  | .add => some (shared.add type callback, .subscribe type callback .unlock :: stack)
  | .unlock => some ({ shared with mapMutex := none }, stack)

def Publish (shared : Shared T C) (i : Nat) (type : T) (stack : List (Frame T C)) :
    PublishPc → Option (Shared T C × List (Frame T C))
  | .lock =>
      if shared.mapMutex = none then
        some ({ shared with mapMutex := some i }, .publish type .find :: stack)
      else
        none
  | .find => some (shared, .publish type (.unlock (shared.subscribers type).isSome) :: stack)
  | .unlock handlers =>
      some ({ shared with mapMutex := none }, .publish type (.test handlers) :: stack)
  | .test false => some (shared, stack)
  | .test true =>
      some (shared, .publish type (.iterate 0 (shared.callbacks type).length) :: stack)
  | .iterate idx last =>
      if idx = last then
        some (shared, stack)
      else
        (shared.callbacks type)[idx]?.map fun callback =>
          (shared, .callback callback :: .publish type (.iterate idx last) :: stack)

def move (shared : Shared T C) (i : Nat) :
    Move T C → List (Frame T C) → Option (Shared T C × List (Frame T C))
  | .subscribe type callback, stack =>
      if inUserCode stack then some (shared, .subscribe type callback .lock :: stack) else none
  | .publish type, stack =>
      if inUserCode stack then some (shared, .publish type .lock :: stack) else none
  | .next, .subscribe type callback pc :: stack => Subscribe shared i type callback stack pc
  | .next, .publish type pc :: stack => Publish shared i type stack pc
  | .finish, .callback _ :: .publish type (.iterate idx last) :: stack =>
      some (shared, .publish type (.iterate (idx + 1) last) :: stack)
  | _, _ => none

def step (s : State T C) (a : Action T C) : Option (State T C) := do
  let stack ← s.threads[a.thread]?
  let (shared, stack) ← move s.shared a.thread a.move stack
  return { shared, threads := s.threads.set a.thread stack }

/-- `n` threads that have called nothing yet. -/
def eventBus (T C : Type) [DecidableEq T] (n : Nat) : System (State T C) (Action T C) where
  init :=
    { shared := { mapMutex := none, subscribers := fun _ => none }
      threads := List.replicate n [] }
  step := step

end Code

section Growth

/-- The loop of a `Publish` has begun and has not ended. -/
def Frame.iterates (type : T) : Frame T C → Bool
  | .publish other (.iterate _ _) => other = type
  | _ => false

/-- A `Subscribe` has `mapMutex_` and has still to append. -/
def Frame.adds (type : T) : Frame T C → Bool
  | .subscribe other _ .find => other = type
  | .subscribe other _ .add => other = type
  | _ => false

def iterating (s : State T C) (type : T) : Bool :=
  s.threads.any fun stack => stack.any (Frame.iterates type)

def adding (s : State T C) (type : T) : Bool :=
  s.threads.any fun stack => stack.any (Frame.adds type)

/-- The type to whose handler list the action appends. -/
def appends (s : State T C) (a : Action T C) : Option T :=
  match a.move, s.threads[a.thread]? with
  | .next, some (.subscribe type _ .add :: _) => some type
  | _, _ => none

/-- A handler list grows while a `Publish` iterates over it. -/
def GrowsUnderDelivery (s : State T C) (a : Action T C) : Prop :=
  ∃ type, appends s a = some type ∧ iterating s type ∧ (step s a).isSome

/-- The move takes `mapMutex_` in a `Subscribe` of the type. -/
def entersSubscribe (type : T) : Move T C → List (Frame T C) → Bool
  | .next, .subscribe other _ .lock :: _ => other = type
  | _, _ => false

/-- The move begins the loop of a `Publish` of the type. -/
def entersLoop (type : T) : Move T C → List (Frame T C) → Bool
  | .next, .publish other (.test true) :: _ => other = type
  | _, _ => false

/-- `Subscribe` takes the mutex when no loop over its list is under way, and a loop begins
when no `Subscribe` of its type has the mutex and is still to append. -/
def Separate (s : State T C) (a : Action T C) : Prop :=
  ∀ type, ∀ stack ∈ s.threads[a.thread]?,
    (entersSubscribe type a.move stack → iterating s type = false) ∧
    (entersLoop type a.move stack → adding s type = false)

end Growth

section Moves

variable {shared shared' : Shared T C} {i : Nat} {m : Move T C} {type : T} {callback : C}
  {stack stack' : List (Frame T C)}

theorem Subscribe_cases {pc : SubscribePc}
    (h : Subscribe shared i type callback stack pc = some (shared', stack')) :
    (pc = .lock ∧ stack' = .subscribe type callback .find :: stack) ∨
    (pc = .find ∧ stack' = .subscribe type callback .add :: stack) ∨
    (pc = .add ∧ stack' = .subscribe type callback .unlock :: stack) ∨
    (pc = .unlock ∧ stack' = stack) := by
  cases pc with
  | lock =>
      simp only [Subscribe] at h
      split at h
      · cases h
        simp
      · cases h
  | find => cases h; simp
  | add => cases h; simp
  | unlock => cases h; simp

theorem Publish_cases {pc : PublishPc}
    (h : Publish shared i type stack pc = some (shared', stack')) :
    stack' = stack ∨
    (pc = .test true ∧ ∃ last, stack' = .publish type (.iterate 0 last) :: stack) ∨
    (∃ pc', stack' = .publish type pc' :: stack ∧
      ∀ other, (.publish type pc' : Frame T C).iterates other = false) ∨
    (∃ idx last callback, pc = .iterate idx last ∧
      stack' = .callback callback :: .publish type (.iterate idx last) :: stack) := by
  cases pc with
  | lock =>
      simp only [Publish] at h
      split at h
      · cases h
        exact .inr (.inr (.inl ⟨_, rfl, fun _ => rfl⟩))
      · cases h
  | find =>
      cases h
      exact .inr (.inr (.inl ⟨_, rfl, fun _ => rfl⟩))
  | unlock handlers =>
      cases h
      exact .inr (.inr (.inl ⟨_, rfl, fun _ => rfl⟩))
  | test handlers =>
      cases handlers with
      | false =>
          cases h
          exact .inl rfl
      | true =>
          cases h
          exact .inr (.inl ⟨rfl, _, rfl⟩)
  | iterate idx last =>
      simp only [Publish] at h
      split at h
      · cases h
        exact .inl rfl
      · obtain ⟨callback, -, heq⟩ := Option.map_eq_some_iff.mp h
        cases heq
        exact .inr (.inr (.inr ⟨idx, last, callback, rfl, rfl⟩))

/-- Everything that a move can do to the stack of its thread. -/
theorem move_cases (h : move shared i m stack = some (shared', stack')) :
    (inUserCode stack ∧ ∃ frame, stack' = frame :: stack ∧
      ∀ type, frame.iterates type = false ∧ frame.adds type = false) ∨
    (∃ type callback pc below, m = .next ∧ stack = .subscribe type callback pc :: below ∧
      Subscribe shared i type callback below pc = some (shared', stack')) ∨
    (∃ type pc below, m = .next ∧ stack = .publish type pc :: below ∧
      Publish shared i type below pc = some (shared', stack')) ∨
    (∃ callback type idx last below,
      stack = .callback callback :: .publish type (.iterate idx last) :: below ∧
      stack' = .publish type (.iterate (idx + 1) last) :: below) := by
  unfold move at h
  split at h
  case h_1 type callback stack =>
    split at h
    case isTrue huser =>
      cases h
      exact .inl ⟨huser, _, rfl, fun _ => ⟨rfl, rfl⟩⟩
    case isFalse => cases h
  case h_2 type stack =>
    split at h
    case isTrue huser =>
      cases h
      exact .inl ⟨huser, _, rfl, fun _ => ⟨rfl, rfl⟩⟩
    case isFalse => cases h
  case h_3 type callback pc stack => exact .inr (.inl ⟨_, _, _, _, rfl, rfl, h⟩)
  case h_4 type pc stack => exact .inr (.inr (.inl ⟨_, _, _, rfl, rfl, h⟩))
  case h_5 callback type idx last stack =>
    cases h
    exact .inr (.inr (.inr ⟨_, _, _, _, _, rfl, rfl⟩))
  case h_6 => cases h

/-- A loop that is under way has been under way, or begins. -/
theorem iterates_of_move (h : move shared i m stack = some (shared', stack'))
    (hloop : stack'.any (Frame.iterates type)) :
    stack.any (Frame.iterates type) ∨ entersLoop type m stack := by
  rcases move_cases h with ⟨-, frame, rfl, hfresh⟩ | ⟨other, callback, pc, below, rfl, rfl, hsub⟩ |
    ⟨other, pc, below, rfl, rfl, hpub⟩ | ⟨callback, other, idx, last, below, rfl, rfl⟩
  · left
    simpa [(hfresh type).1] using hloop
  · left
    rcases Subscribe_cases hsub with ⟨rfl, rfl⟩ | ⟨rfl, rfl⟩ | ⟨rfl, rfl⟩ | ⟨rfl, rfl⟩
    all_goals simpa [Frame.iterates] using hloop
  · rcases Publish_cases hpub with rfl | ⟨rfl, last, rfl⟩ | ⟨pc', rfl, hpc'⟩ |
      ⟨idx, last, callback, rfl, rfl⟩
    · left
      rw [List.any_cons, hloop, Bool.or_true]
    · simpa [Frame.iterates, entersLoop, or_comm] using hloop
    · left
      rw [List.any_cons, hpc', Bool.false_or] at hloop
      rw [List.any_cons, hloop, Bool.or_true]
    · left
      simpa [Frame.iterates] using hloop
  · left
    simpa [Frame.iterates] using hloop

/-- A `Subscribe` that is still to append has the mutex, or takes it. -/
theorem adds_of_move (h : move shared i m stack = some (shared', stack'))
    (hadds : stack'.any (Frame.adds type)) :
    stack.any (Frame.adds type) ∨ entersSubscribe type m stack := by
  rcases move_cases h with ⟨-, frame, rfl, hfresh⟩ | ⟨other, callback, pc, below, rfl, rfl, hsub⟩ |
    ⟨other, pc, below, rfl, rfl, hpub⟩ | ⟨callback, other, idx, last, below, rfl, rfl⟩
  · left
    simpa [(hfresh type).2] using hadds
  · rcases Subscribe_cases hsub with ⟨rfl, rfl⟩ | ⟨rfl, rfl⟩ | ⟨rfl, rfl⟩ | ⟨rfl, rfl⟩
    · simpa [Frame.adds, entersSubscribe, or_comm] using hadds
    · left
      simpa [Frame.adds] using hadds
    · left
      have hbelow : below.any (Frame.adds type) := by simpa [Frame.adds] using hadds
      rw [List.any_cons, hbelow, Bool.or_true]
    · left
      rw [List.any_cons, hadds, Bool.or_true]
  · left
    have hbelow : below.any (Frame.adds type) := by
      rcases Publish_cases hpub with rfl | ⟨rfl, last, rfl⟩ | ⟨pc', rfl, -⟩ |
        ⟨idx, last, callback, rfl, rfl⟩
      · exact hadds
      all_goals simpa [Frame.adds] using hadds
    rw [List.any_cons, hbelow, Bool.or_true]
  · left
    simpa [Frame.adds] using hadds

theorem not_entersSubscribe_of_entersLoop (h : entersLoop type m stack) :
    ¬entersSubscribe type m stack := by
  intro hsub
  unfold entersLoop at h
  split at h
  · cases hsub
  · cases h

theorem adds_of_entersSubscribe (h : move shared i m stack = some (shared', stack'))
    (henters : entersSubscribe type m stack) :
    stack'.any (Frame.adds type) ∧
      ∀ other, stack.any (Frame.iterates other) → stack'.any (Frame.iterates other) := by
  unfold entersSubscribe at henters
  split at henters
  case h_1 other callback below =>
    obtain rfl := of_decide_eq_true henters
    change Subscribe shared i other callback below .lock = some (shared', stack') at h
    rcases Subscribe_cases h with ⟨-, rfl⟩ | ⟨hpc, -⟩ | ⟨hpc, -⟩ | ⟨hpc, -⟩
    · simp [Frame.adds, Frame.iterates]
    all_goals cases hpc
  case h_2 => cases henters

theorem iterates_of_entersLoop (h : move shared i m stack = some (shared', stack'))
    (henters : entersLoop type m stack) :
    stack'.any (Frame.iterates type) ∧
      ∀ other, stack.any (Frame.adds other) → stack'.any (Frame.adds other) := by
  unfold entersLoop at henters
  split at henters
  case h_1 other below =>
    obtain rfl := of_decide_eq_true henters
    cases h
    simp [Frame.adds, Frame.iterates]
  case h_2 => cases henters

/-- A `Subscribe` calls nothing: it is the innermost call of its thread. -/
def AddsInnermost (stack : List (Frame T C)) : Prop :=
  ∀ type, stack.tail.any (Frame.adds type) = false

theorem addsInnermost_of_move (h : move shared i m stack = some (shared', stack'))
    (hinner : AddsInnermost stack) : AddsInnermost stack' := by
  intro type
  have hbelow := hinner type
  rcases move_cases h with ⟨huser, frame, rfl, -⟩ | ⟨other, callback, pc, below, rfl, rfl, hsub⟩ |
    ⟨other, pc, below, rfl, rfl, hpub⟩ | ⟨callback, other, idx, last, below, rfl, rfl⟩
  · cases stack with
    | nil => rfl
    | cons top stack =>
        cases top with
        | callback callback => simpa [Frame.adds] using hbelow
        | subscribe type callback pc => cases huser
        | publish type pc => cases huser
  · rw [List.tail_cons] at hbelow
    rcases Subscribe_cases hsub with ⟨rfl, rfl⟩ | ⟨rfl, rfl⟩ | ⟨rfl, rfl⟩ | ⟨rfl, rfl⟩
    · exact hbelow
    · exact hbelow
    · exact hbelow
    · cases stack' with
      | nil => rfl
      | cons top stack' => exact (Bool.or_eq_false_iff.mp (List.any_cons ▸ hbelow)).2
  · rw [List.tail_cons] at hbelow
    rcases Publish_cases hpub with rfl | ⟨rfl, last, rfl⟩ | ⟨pc', rfl, -⟩ |
      ⟨idx, last, callback, rfl, rfl⟩
    · cases stack' with
      | nil => rfl
      | cons top stack' => exact (Bool.or_eq_false_iff.mp (List.any_cons ▸ hbelow)).2
    · exact hbelow
    · exact hbelow
    · simpa [Frame.adds] using hbelow
  · simpa [Frame.adds] using hbelow

end Moves

section Steps

variable {s t : State T C} {a : Action T C} {type : T}

theorem step_cases (h : step s a = some t) : ∃ stack shared' stack',
    s.threads[a.thread]? = some stack ∧
    move s.shared a.thread a.move stack = some (shared', stack') ∧
    t = { shared := shared', threads := s.threads.set a.thread stack' } := by
  obtain ⟨stack, hstack, hrest⟩ := Option.bind_eq_some_iff.mp h
  obtain ⟨⟨shared', stack'⟩, hmove, heq⟩ := Option.bind_eq_some_iff.mp hrest
  exact ⟨stack, shared', stack', hstack, hmove, (Option.some.inj heq).symm⟩

theorem any_of_any_set {α : Type} {p : α → Bool} {xs : List α} {i : Nat} {x : α}
    (h : (xs.set i x).any p) : p x ∨ xs.any p := by
  obtain ⟨y, hy, hp⟩ := List.any_eq_true.mp h
  rcases List.mem_or_eq_of_mem_set hy with hy | rfl
  · exact .inr (List.any_eq_true.mpr ⟨y, hy, hp⟩)
  · exact .inl hp

theorem any_set_of_any {α : Type} {p : α → Bool} {xs : List α} {i : Nat} {x old : α}
    (h : xs.any p) (hold : xs[i]? = some old) (hkeeps : p old → p x) : (xs.set i x).any p := by
  obtain ⟨y, hy, hp⟩ := List.any_eq_true.mp h
  obtain ⟨j, hj⟩ := List.getElem?_of_mem hy
  obtain ⟨hi, -⟩ := List.getElem?_eq_some_iff.mp hold
  refine List.any_eq_true.mpr ?_
  rcases eq_or_ne i j with rfl | hij
  · obtain rfl : old = y := Option.some.inj (hold.symm.trans hj)
    exact ⟨x, List.mem_of_getElem? (List.getElem?_set_self hi), hkeeps hp⟩
  · exact ⟨y, List.mem_of_getElem? ((List.getElem?_set_ne hij).trans hj), hp⟩

/-- What a move brings onto its stack, a step brings into the state. -/
theorem any_of_step {p : Frame T C → Bool} {enters : Move T C → List (Frame T C) → Bool}
    (hmove : ∀ {shared shared' : Shared T C} {i : Nat} {m : Move T C}
      {stack stack' : List (Frame T C)}, move shared i m stack = some (shared', stack') →
      stack'.any p → stack.any p ∨ enters m stack)
    (h : step s a = some t) (hany : t.threads.any fun stack => stack.any p) :
    (s.threads.any fun stack => stack.any p) ∨
      ∃ stack ∈ s.threads[a.thread]?, enters a.move stack := by
  obtain ⟨stack, shared', stack', hstack, hstep, rfl⟩ := step_cases h
  rcases any_of_any_set hany with hnew | hold
  · rcases hmove hstep hnew with hbefore | henters
    · exact .inl (List.any_eq_true.mpr ⟨stack, List.mem_of_getElem? hstack, hbefore⟩)
    · exact .inr ⟨stack, hstack, henters⟩
  · exact .inl hold

theorem iterating_of_step (h : step s a = some t) (hloop : iterating t type) :
    iterating s type ∨ ∃ stack ∈ s.threads[a.thread]?, entersLoop type a.move stack :=
  any_of_step iterates_of_move h hloop

theorem adding_of_step (h : step s a = some t) (hadds : adding t type) :
    adding s type ∨ ∃ stack ∈ s.threads[a.thread]?, entersSubscribe type a.move stack :=
  any_of_step adds_of_move h hadds

/-- Only a `Subscribe` with the mutex appends. -/
theorem adding_of_appends (h : appends s a = some type) : adding s type := by
  unfold appends at h
  split at h
  case h_1 other callback below hstack =>
    obtain rfl := Option.some.inj h
    exact List.any_eq_true.mpr ⟨_, List.mem_of_getElem? hstack, by simp [Frame.adds]⟩
  case h_2 => cases h

end Steps

section Runs

variable {n : Nat} {s t : State T C} {a : Action T C}

/-- Loops over a list and changes of it exclude each other. -/
def Exclusive (s : State T C) : Prop :=
  ∀ type, iterating s type → adding s type = false

theorem exclusive_init : Exclusive (eventBus T C n).init := by
  intro type _
  simp [eventBus, adding]

theorem Exclusive.step (h : Exclusive s) (hseparate : Separate s a) (hstep : step s a = some t) :
    Exclusive t := by
  intro type hloop
  cases hadds : adding t type with
  | false => rfl
  | true =>
      rcases iterating_of_step hstep hloop with hloop | ⟨stack, hstack, hloop⟩
      · rcases adding_of_step hstep hadds with hadds | ⟨stack, hstack, hadds⟩
        · exact hadds.symm.trans (h type hloop)
        · exact hloop.symm.trans ((hseparate type stack hstack).1 hadds)
      · rcases adding_of_step hstep hadds with hadds | ⟨stack', hstack', hadds⟩
        · exact hadds.symm.trans ((hseparate type stack hstack).2 hloop)
        · obtain rfl := Option.some.inj (hstack.symm.trans hstack')
          exact absurd hadds (not_entersSubscribe_of_entersLoop hloop)

theorem Exclusive.not_grows (h : Exclusive s) : ¬GrowsUnderDelivery s a := by
  rintro ⟨type, happends, hloop, -⟩
  exact absurd (adding_of_appends happends) (by simp [h type hloop])

def SubscribesInnermost (s : State T C) : Prop :=
  ∀ stack ∈ s.threads, AddsInnermost stack

theorem subscribesInnermost_of_reachable (hs : Reachable (eventBus T C n) s) :
    SubscribesInnermost s := by
  refine hs.invariant SubscribesInnermost ?_ ?_
  · intro stack hstack type
    obtain rfl : stack = [] := (List.mem_replicate.mp hstack).2
    rfl
  · intro s a t hstep hs stack hmem
    obtain ⟨before, shared', after, hbefore, hmove, rfl⟩ := step_cases hstep
    rcases List.mem_or_eq_of_mem_set hmem with hold | rfl
    · exact hs stack hold
    · exact addsInnermost_of_move hmove (hs before (List.mem_of_getElem? hbefore))

end Runs

section Registrations

variable {n : Nat} {s t : State T C} {shared shared' : Shared T C} {i : Nat} {m : Move T C}
  {type : T} {callback : C} {stack stack' : List (Frame T C)}

theorem callbacks_create (shared : Shared T C) (type other : T) :
    (shared.create type).callbacks other = shared.callbacks other := by
  cases hslot : shared.subscribers type with
  | none =>
      simp only [Shared.create, hslot, Shared.callbacks]
      rcases eq_or_ne other type with rfl | hne
      · rw [Function.update_self, hslot]
        rfl
      · rw [Function.update_of_ne hne]
  | some callbacks => simp only [Shared.create, hslot]

theorem mem_callbacks_add {other : T} {callback' : C}
    (h : callback' ∈ (shared.add type callback).callbacks other) :
    callback' ∈ shared.callbacks other ∨ (other = type ∧ callback' = callback) := by
  rw [Shared.callbacks, Shared.add] at h
  dsimp only at h
  rcases eq_or_ne other type with rfl | hne
  · rw [Function.update_self] at h
    cases hslot : shared.subscribers other with
    | none =>
        rw [hslot] at h
        exact absurd h List.not_mem_nil
    | some callbacks =>
        rw [hslot] at h
        rcases List.mem_append.mp h with hold | hnew
        · left
          rw [Shared.callbacks, hslot]
          exact hold
        · exact .inr ⟨rfl, List.mem_singleton.mp hnew⟩
  · rw [Function.update_of_ne hne] at h
    exact .inl h

theorem Subscribe_callbacks {pc : SubscribePc} {other : T} {callback' : C}
    (h : Subscribe shared i type callback stack pc = some (shared', stack'))
    (hmem : callback' ∈ shared'.callbacks other) :
    callback' ∈ shared.callbacks other ∨ (other = type ∧ callback' = callback) := by
  cases pc with
  | lock =>
      simp only [Subscribe] at h
      split at h
      · cases h
        exact .inl hmem
      · cases h
  | find =>
      cases h
      rw [callbacks_create] at hmem
      exact .inl hmem
  | add =>
      cases h
      exact mem_callbacks_add hmem
  | unlock =>
      cases h
      exact .inl hmem

omit [DecidableEq T] in
theorem Publish_callbacks {pc : PublishPc}
    (h : Publish shared i type stack pc = some (shared', stack')) (other : T) :
    shared'.callbacks other = shared.callbacks other := by
  cases pc with
  | lock =>
      simp only [Publish] at h
      split at h
      · cases h
        rfl
      · cases h
  | find => cases h; rfl
  | unlock handlers => cases h; rfl
  | test handlers => cases handlers <;> cases h <;> rfl
  | iterate idx last =>
      simp only [Publish] at h
      split at h
      · cases h
        rfl
      · obtain ⟨callback, -, heq⟩ := Option.map_eq_some_iff.mp h
        cases heq
        rfl

/-- A callback comes into a list from a `Subscribe` of the type. -/
theorem callbacks_of_move (h : move shared i m stack = some (shared', stack'))
    (hmem : callback ∈ shared'.callbacks type) :
    callback ∈ shared.callbacks type ∨ ∃ pc, .subscribe type callback pc ∈ stack := by
  unfold move at h
  split at h
  case h_1 | h_2 =>
    split at h
    case isTrue =>
      cases h
      exact .inl hmem
    case isFalse => cases h
  case h_3 other callback' pc below =>
    rcases Subscribe_callbacks h hmem with hold | ⟨rfl, rfl⟩
    · exact .inl hold
    · exact .inr ⟨pc, List.mem_cons_self⟩
  case h_4 other pc below =>
    rw [Publish_callbacks h] at hmem
    exact .inl hmem
  case h_5 =>
    cases h
    exact .inl hmem
  case h_6 => cases h

/-- A `Subscribe` is under way since it was called. -/
theorem subscribes_of_move {pc : SubscribePc}
    (h : move shared i m stack = some (shared', stack'))
    (hmem : .subscribe type callback pc ∈ stack') :
    (∃ pc', .subscribe type callback pc' ∈ stack) ∨ m = .subscribe type callback := by
  unfold move at h
  split at h
  case h_1 other callback' stack =>
    split at h
    case isTrue =>
      cases h
      rcases List.mem_cons.mp hmem with heq | hold
      · cases heq
        exact .inr rfl
      · exact .inl ⟨pc, hold⟩
    case isFalse => cases h
  case h_2 other stack =>
    split at h
    case isTrue =>
      cases h
      rcases List.mem_cons.mp hmem with heq | hold
      · cases heq
      · exact .inl ⟨pc, hold⟩
    case isFalse => cases h
  case h_3 other callback' pc' below =>
    left
    rcases Subscribe_cases h with ⟨-, rfl⟩ | ⟨-, rfl⟩ | ⟨-, rfl⟩ | ⟨-, rfl⟩
    case inr.inr.inr => exact ⟨pc, List.mem_cons_of_mem _ hmem⟩
    all_goals
      rcases List.mem_cons.mp hmem with heq | hold
      · cases heq
        exact ⟨pc', List.mem_cons_self⟩
      · exact ⟨pc, List.mem_cons_of_mem _ hold⟩
  case h_4 other pc' below =>
    left
    refine ⟨pc, List.mem_cons_of_mem _ ?_⟩
    rcases Publish_cases h with rfl | ⟨-, last, rfl⟩ | ⟨next, rfl, -⟩ |
      ⟨idx, last, callback', -, rfl⟩
    · exact hmem
    all_goals simpa using hmem
  case h_5 callback' other idx last below =>
    cases h
    left
    exact ⟨pc, by simpa using hmem⟩
  case h_6 => cases h

/-- The run has a call that subscribes the callback to the type. -/
def Registered (as : List (Action T C)) (type : T) (callback : C) : Prop :=
  ∃ i, ⟨i, .subscribe type callback⟩ ∈ as

omit [DecidableEq T] in
theorem Registered.extend {as : List (Action T C)} (h : Registered as type callback)
    (a : Action T C) : Registered (as ++ [a]) type callback := by
  obtain ⟨i, hmem⟩ := h
  exact ⟨i, List.mem_append_left [a] hmem⟩

/-- Every callback in a list, and every one that is to come into it, has been subscribed. -/
structure AllRegistered (as : List (Action T C)) (s : State T C) : Prop where
  callbacks : ∀ type, ∀ callback ∈ s.shared.callbacks type, Registered as type callback
  subscribes : ∀ stack ∈ s.threads, ∀ type callback pc,
    .subscribe type callback pc ∈ stack → Registered as type callback

theorem AllRegistered.step {as : List (Action T C)} {a : Action T C} (h : AllRegistered as s)
    (hstep : step s a = some t) : AllRegistered (as ++ [a]) t := by
  obtain ⟨stack, shared', stack', hstack, hmove, rfl⟩ := step_cases hstep
  have hold := h.subscribes stack (List.mem_of_getElem? hstack)
  constructor
  · intro type callback hmem
    rcases callbacks_of_move hmove hmem with hmem | ⟨pc, hmem⟩
    · exact (h.callbacks type callback hmem).extend a
    · exact (hold type callback pc hmem).extend a
  · intro other hother type callback pc hmem
    rcases List.mem_or_eq_of_mem_set hother with hother | rfl
    · exact (h.subscribes other hother type callback pc hmem).extend a
    · rcases subscribes_of_move hmove hmem with ⟨pc', hmem⟩ | hcall
      · exact (hold type callback pc' hmem).extend a
      · refine ⟨a.thread, List.mem_append_right as (List.mem_singleton.mpr ?_)⟩
        rw [← hcall]

theorem allRegistered_of_run {as : List (Action T C)}
    (run : Run (eventBus T C n) Unrestricted as s) : AllRegistered as s := by
  apply run.invariant AllRegistered
  · constructor
    · intro type callback hmem
      exact absurd hmem List.not_mem_nil
    · intro stack hstack type callback pc hmem
      obtain rfl : stack = [] := (List.mem_replicate.mp hstack).2
      exact absurd hmem List.not_mem_nil
  · intro as s a t _ _ hstep hs
    exact hs.step hstep

end Registrations

section Continuations

/-! A `Subscribe` that has the mutex can always go on to its append. -/

variable {n : Nat} {s : State T C} {j : Nat} {type : T} {callback : C}
  {below : List (Frame T C)}

theorem grows_of_add (hstack : s.threads[j]? = some (.subscribe type callback .add :: below))
    (hloop : iterating s type) : GrowsUnderDelivery s ⟨j, .next⟩ :=
  ⟨type, by simp [appends, hstack], hloop, by simp [step, hstack, move, Subscribe]⟩

theorem exists_grows_of_find
    (hstack : s.threads[j]? = some (.subscribe type callback .find :: below))
    (hloop : iterating s type) :
    ∃ t, exec (eventBus T C n) s [⟨j, .next⟩] = some t ∧ GrowsUnderDelivery t ⟨j, .next⟩ := by
  obtain ⟨hj, -⟩ := List.getElem?_eq_some_iff.mp hstack
  refine ⟨_, exec_singleton (t := { shared := s.shared.create type
                                    threads := s.threads.set j
                                      (.subscribe type callback .add :: below) }) ?_, ?_⟩
  · simp [eventBus, step, hstack, move, Subscribe]
  · refine grows_of_add (List.getElem?_set_self hj) (any_set_of_any hloop hstack ?_)
    simp [Frame.iterates]

/-- A step that is not separate leaves a loop under way and an append to come. -/
theorem overlap_of_not_separate {t : State T C} {a : Action T C} (hstep : step s a = some t)
    (h : ¬Separate s a) : ∃ type, adding t type ∧ iterating t type := by
  obtain ⟨stack, shared', stack', hstack, hmove, rfl⟩ := step_cases hstep
  obtain ⟨hi, -⟩ := List.getElem?_eq_some_iff.mp hstack
  have hmem : stack' ∈ s.threads.set a.thread stack' :=
    List.mem_of_getElem? (List.getElem?_set_self hi)
  obtain ⟨type, hoverlap⟩ : ∃ type, (entersSubscribe type a.move stack ∧ iterating s type) ∨
      (entersLoop type a.move stack ∧ adding s type) := by
    by_contra hnone
    refine h fun type other hother => ?_
    obtain rfl : stack = other := Option.some.inj (hstack.symm.trans hother)
    have hseparate := not_or.mp (not_exists.mp hnone type)
    exact ⟨fun henters => by simpa [henters] using hseparate.1,
      fun henters => by simpa [henters] using hseparate.2⟩
  refine ⟨type, ?_⟩
  rcases hoverlap with ⟨henters, hloop⟩ | ⟨henters, hadds⟩
  · obtain ⟨hadds, hkeeps⟩ := adds_of_entersSubscribe hmove henters
    exact ⟨List.any_eq_true.mpr ⟨stack', hmem, hadds⟩,
      any_set_of_any hloop hstack (hkeeps type)⟩
  · obtain ⟨hloop, hkeeps⟩ := iterates_of_entersLoop hmove henters
    exact ⟨any_set_of_any hadds hstack (hkeeps type),
      List.any_eq_true.mpr ⟨stack', hmem, hloop⟩⟩

/-- Where the thread of an unfinished `Subscribe` stands. -/
theorem exists_grows (hadds : adding s type) (hloop : iterating s type)
    (hinner : SubscribesInnermost s) :
    ∃ j as t, (∀ b ∈ as, b = ⟨j, .next⟩) ∧ exec (eventBus T C n) s as = some t ∧
      GrowsUnderDelivery t ⟨j, .next⟩ := by
  obtain ⟨stack, hmem, hstackAdds⟩ := List.any_eq_true.mp hadds
  obtain ⟨j, hstack⟩ := List.getElem?_of_mem hmem
  cases stack with
  | nil => cases hstackAdds
  | cons top below =>
      rw [List.any_cons, show below.any (Frame.adds type) = false from hinner _ hmem type,
        Bool.or_false] at hstackAdds
      unfold Frame.adds at hstackAdds
      split at hstackAdds
      · obtain rfl := of_decide_eq_true hstackAdds
        obtain ⟨t, hexec, hgrows⟩ := exists_grows_of_find (n := n) hstack hloop
        exact ⟨j, [⟨j, .next⟩], t, by simp, hexec, hgrows⟩
      · obtain rfl := of_decide_eq_true hstackAdds
        exact ⟨j, [], s, by simp, rfl, grows_of_add hstack hloop⟩
      · cases hstackAdds

end Continuations

section Contract

/-- No handler list grows under a delivery while all steps are separate, and any other step
lets a `Subscribe` go on to such an append. -/
theorem grows_only_without_separation (T C : Type) [DecidableEq T] (n : Nat) :
    (∀ s, ReachableUnder (eventBus T C n) Separate s → ∀ a, ¬GrowsUnderDelivery s a) ∧
    ∀ s a t, Reachable (eventBus T C n) s → step s a = some t → ¬Separate s a →
      ∃ j as u, (∀ b ∈ as, b = ⟨j, .next⟩) ∧ exec (eventBus T C n) t as = some u ∧
        GrowsUnderDelivery u ⟨j, .next⟩ := by
  constructor
  · intro s hs a
    have hexclusive : Exclusive s :=
      hs.invariant Exclusive exclusive_init fun _ _ _ hseparate hstep hs =>
        hs.step hseparate hstep
    exact hexclusive.not_grows
  · intro s a t hs hstep hmixed
    obtain ⟨type, hadds, hloop⟩ := overlap_of_not_separate hstep hmixed
    have ht : Reachable (eventBus T C n) t := hs.step hstep
    exact exists_grows hadds hloop (subscribesInnermost_of_reachable ht)

/-- A callback subscribes to the type that it is called for. -/
def resubscription : List (Action Unit Unit) :=
  [⟨0, .subscribe () ()⟩, ⟨0, .next⟩, ⟨0, .next⟩, ⟨0, .next⟩, ⟨0, .next⟩,
    ⟨0, .publish ()⟩, ⟨0, .next⟩, ⟨0, .next⟩, ⟨0, .next⟩, ⟨0, .next⟩, ⟨0, .next⟩,
    ⟨0, .subscribe () ()⟩, ⟨0, .next⟩, ⟨0, .next⟩]

theorem grows_after_resubscription :
    ¬∀ (n : Nat) (s : State Unit Unit), Reachable (eventBus Unit Unit n) s →
      ∀ a, ¬GrowsUnderDelivery s a := by
  intro hnever
  obtain ⟨s, hexec, hgrows⟩ : ∃ s, exec (eventBus Unit Unit 1) (eventBus Unit Unit 1).init
      resubscription = some s ∧ GrowsUnderDelivery s ⟨0, .next⟩ :=
    ⟨_, rfl, (), rfl, rfl, rfl⟩
  exact hnever 1 s (reachable_of_exec hexec) _ hgrows

end Contract

end SkUtils.Concurrency.EventSubscriptions
