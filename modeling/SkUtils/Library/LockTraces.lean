import Mathlib.Data.List.Basic
import SkUtils.Library.TransitionSystem

/-!
Threads that share one lock which is not recursive, each with the trace of what it does.
A thread that takes the lock while it holds it is found by following its trace alone.
-/

namespace SkUtils.Library.LockTraces

open SkUtils.Library.TransitionSystem

universe u

variable {α : Type u}

inductive Event (α : Type u)
  | lock
  | unlock
  | emit (a : α)

/-- How a thread ends that has the lock for itself: without the lock or with it, at a lock
that it holds, or at an unlock of a lock that it does not hold. -/
inductive Outcome
  | released
  | held
  | relocks
  | strays
deriving DecidableEq

def follow : Bool → List (Event α) → Outcome
  | false, [] => .released
  | true, [] => .held
  | held, .emit _ :: trace => follow held trace
  | false, .lock :: trace => follow true trace
  | true, .lock :: _ => .relocks
  | true, .unlock :: trace => follow false trace
  | false, .unlock :: _ => .strays

@[simp]
theorem follow_emit (held : Bool) (a : α) (trace : List (Event α)) :
    follow held (.emit a :: trace) = follow held trace := by
  cases held <;> rfl

@[simp]
theorem follow_lock (trace : List (Event α)) :
    follow false (.lock :: trace) = follow true trace := rfl

@[simp]
theorem follow_unlock (trace : List (Event α)) :
    follow true (.unlock :: trace) = follow false trace := rfl

section Threads

/-- `traces` are the events that the threads have still to do. -/
structure State (α : Type u) where
  owner : Option Nat
  traces : List (List (Event α))

/-- The next event of thread `i`. A lock that is taken has to be waited for. -/
def step (s : State α) (i : Nat) : Option (State α) :=
  match s.traces[i]? with
  | some (.lock :: rest) =>
      if s.owner = none then some { owner := some i, traces := s.traces.set i rest } else none
  | some (.unlock :: rest) => some { owner := none, traces := s.traces.set i rest }
  | some (.emit _ :: rest) => some { s with traces := s.traces.set i rest }
  | _ => none

def threads (traces : List (List (Event α))) : System (State α) Nat where
  init := { owner := none, traces }
  step := step

/-- A thread that has the lock is about to take it. -/
def Relocks (s : State α) : Prop :=
  ∃ i rest, s.owner = some i ∧ s.traces[i]? = some (.lock :: rest)

/-- Every thread, left alone, ends without the lock. -/
def Disciplined (s : State α) : Prop :=
  ∀ i trace, s.traces[i]? = some trace → follow (decide (s.owner = some i)) trace = .released

variable {s t : State α} {i : Nat} {traces : List (List (Event α))}

theorem step_cases (h : step s i = some t) : ∃ event rest,
    s.traces[i]? = some (event :: rest) ∧ t.traces = s.traces.set i rest ∧
    match event with
    | .lock => s.owner = none ∧ t.owner = some i
    | .unlock => t.owner = none
    | .emit _ => t.owner = s.owner := by
  unfold step at h
  split at h
  case h_1 rest hnext =>
    split at h
    case isTrue hfree =>
      obtain rfl := Option.some.inj h
      exact ⟨.lock, rest, hnext, rfl, hfree, rfl⟩
    case isFalse => cases h
  case h_2 rest hnext =>
    obtain rfl := Option.some.inj h
    exact ⟨.unlock, rest, hnext, rfl, rfl⟩
  case h_3 a rest hnext =>
    obtain rfl := Option.some.inj h
    exact ⟨.emit a, rest, hnext, rfl, rfl⟩
  case h_4 => cases h

/-- A thread that does not step keeps its trace, and does not get the lock. -/
theorem Disciplined.step (h : Disciplined s) (hstep : step s i = some t) : Disciplined t := by
  obtain ⟨event, rest, hnext, htraces, howner⟩ := step_cases hstep
  have hself := h i _ hnext
  intro j trace htrace
  rw [htraces] at htrace
  rcases eq_or_ne i j with rfl | hij
  · obtain ⟨hi, -⟩ := List.getElem?_eq_some_iff.mp hnext
    rw [List.getElem?_set_self hi] at htrace
    obtain rfl := Option.some.inj htrace
    cases event with
    | lock =>
        rw [howner.1] at hself
        simpa [howner.2] using hself
    | unlock =>
        rw [howner]
        cases howned : decide (s.owner = some i) with
        | true => simpa [howned] using hself
        | false =>
            rw [howned] at hself
            cases hself
    | emit a => simpa [howner] using hself
  · rw [List.getElem?_set_ne hij] at htrace
    have hother := h j trace htrace
    cases event with
    | lock =>
        rw [howner.1] at hother
        simpa [howner.2, hij] using hother
    | unlock =>
        rw [howner]
        have howned : s.owner = some i := by
          cases howned : decide (s.owner = some i) with
          | true => exact of_decide_eq_true howned
          | false =>
              rw [howned] at hself
              cases hself
        rw [howned] at hother
        simpa [hij] using hother
    | emit a => simpa [howner] using hother

theorem Disciplined.not_relocks (h : Disciplined s) : ¬Relocks s := by
  rintro ⟨i, rest, howner, hnext⟩
  have hself := h i _ hnext
  rw [decide_eq_true howner] at hself
  cases hself

theorem not_relocks_of_released (h : ∀ trace ∈ traces, follow false trace = .released)
    (hs : Reachable (threads traces) s) : ¬Relocks s := by
  have hdisciplined : Disciplined s := by
    refine hs.invariant Disciplined ?_ fun _ _ _ hstep hs => hs.step hstep
    intro i trace htrace
    exact h trace (List.mem_of_getElem? htrace)
  exact hdisciplined.not_relocks

/-- The thread goes on alone until it takes the lock again. -/
theorem exists_relocks {trace : List (Event α)} {held : Bool} (hs : Reachable (threads traces) s)
    (htrace : s.traces[i]? = some trace) (howner : s.owner = if held then some i else none)
    (h : follow held trace = .relocks) : ∃ t, Reachable (threads traces) t ∧ Relocks t := by
  induction trace generalizing s held with
  | nil => cases held <;> cases h
  | cons event rest ih =>
      obtain ⟨hi, -⟩ := List.getElem?_eq_some_iff.mp htrace
      cases event with
      | emit a =>
          rw [follow_emit] at h
          have hstep : step s i = some { s with traces := s.traces.set i rest } := by
            simp [step, htrace]
          exact ih (hs.step hstep) (List.getElem?_set_self hi) howner h
      | lock =>
          cases held with
          | true => exact ⟨s, hs, i, rest, howner, htrace⟩
          | false =>
              have hfree : s.owner = none := howner
              have hstep : step s i =
                  some { owner := some i, traces := s.traces.set i rest } := by
                simp [step, htrace, hfree]
              have howned : some i = if true then some i else none := rfl
              exact ih (hs.step hstep) (List.getElem?_set_self hi) howned h
      | unlock =>
          cases held with
          | true =>
              have hstep : step s i = some { owner := none, traces := s.traces.set i rest } := by
                simp [step, htrace]
              have hreleased : none = if false then some i else none := rfl
              exact ih (hs.step hstep) (List.getElem?_set_self hi) hreleased h
          | false => cases h

theorem exists_relocks_of_mem {trace : List (Event α)} (hmem : trace ∈ traces)
    (h : follow false trace = .relocks) : ∃ t, Reachable (threads traces) t ∧ Relocks t := by
  obtain ⟨i, hi⟩ := List.getElem?_of_mem hmem
  have hfree : none = if false then some i else none := rfl
  exact exists_relocks ⟨[], .start⟩ hi hfree h

end Threads

end SkUtils.Library.LockTraces
