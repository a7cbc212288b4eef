import Mathlib.Data.Fin.VecNotation
import SkUtils.Coroutine.WhenAllResults

/-!
`when_all(Task<T1>, Task<T2>)` of `task.h`. It has two slots of different types and
no loop, and is otherwise the protocol of the vector overload on two tasks: each of
its steps is one or two steps of that one, on tasks whose values are pairs with a
default in the other place.
-/

namespace SkUtils.Coroutine.WhenAllPair

open SkUtils.Library.TransitionSystem
open SkUtils.Coroutine.WhenAll
open SkUtils.Coroutine.WhenAllResults

/-- Where the coroutine of `when_all` stands. `inW1` and `inW2` say that its thread
runs that wrapper inside the call of `resume`. -/
inductive PairPc (T1 T2 E : Type*)
  | resumeW1
  | inW1
  | resumeW2
  | inW2
  | awaitReady
  | awaitSuspend
  | suspended
  | awaitResume
  | done (result : Except E (T1 × T2))

/-- `results` and `exception` are the fields of `SharedState`, `remaining` and
`continuation` those of its `coord`. -/
structure PairState (T1 T2 E : Type*) where
  results : T1 × T2
  exception : Option E
  remaining : Nat
  continuation : Bool
  w1 : WrapperPc
  w2 : WrapperPc
  coroutine : PairPc T1 T2 E
  resumers : Nat

inductive PairAction
  | coroutine
  | launch1
  | launch2
  | suspendTask1
  | suspendTask2
  | resume
  deriving DecidableEq

section Steps

variable {T1 T2 E : Type*}

def PairState.gotoW1 (s : PairState T1 T2 E) (pc : WrapperPc) : PairState T1 T2 E :=
  { s with w1 := pc }

def PairState.gotoW2 (s : PairState T1 T2 E) (pc : WrapperPc) : PairState T1 T2 E :=
  { s with w2 := pc }

def PairState.store1 (s : PairState T1 T2 E) : Except E T1 → PairState T1 T2 E
  | .ok value => { s with results := (value, s.results.2) }
  | .error e => { s with exception := some e }

def PairState.store2 (s : PairState T1 T2 E) : Except E T2 → PairState T1 T2 E
  | .ok value => { s with results := (s.results.1, value) }
  | .error e => { s with exception := some e }

def PairPc.leaveW1 : PairPc T1 T2 E → PairPc T1 T2 E
  | .inW1 => .resumeW2
  | pc => pc

def PairPc.leaveW2 : PairPc T1 T2 E → PairPc T1 T2 E
  | .inW2 => .awaitReady
  | pc => pc

/-- The body that `launch1` and `launch2` share: `goto` moves the wrapper, `stored` is
the state after its slot is written, `leave` what its end means to the coroutine. -/
def launch (s stored : PairState T1 T2 E)
    (goto : PairState T1 T2 E → WrapperPc → PairState T1 T2 E)
    (leave : PairPc T1 T2 E → PairPc T1 T2 E) : WrapperPc → Option (PairState T1 T2 E)
  | .created => none
  | .awaiting => some (goto stored .fetchSub)
  | .fetchSub =>
      some { goto s (if s.remaining = 1 then .getContinuation else .leave) with
        remaining := s.remaining - 1 }
  | .getContinuation => some (goto s (if s.continuation then .spawn else .leave))
  | .spawn => some { goto s .leave with resumers := s.resumers + 1 }
  | .leave => some { goto s .finished with coroutine := leave s.coroutine }
  | .finished => none

def launch1 (first : Except E T1) (s : PairState T1 T2 E) : Option (PairState T1 T2 E) :=
  launch s (s.store1 first) .gotoW1 .leaveW1 s.w1

def launch2 (second : Except E T2) (s : PairState T1 T2 E) : Option (PairState T1 T2 E) :=
  launch s (s.store2 second) .gotoW2 .leaveW2 s.w2

def whenAllPair (s : PairState T1 T2 E) : Option (PairState T1 T2 E) :=
  match s.coroutine with
  | .resumeW1 =>
      if s.w1 = .created then some { s with w1 := .awaiting, coroutine := .inW1 } else none
  | .inW1 => none
  | .resumeW2 =>
      if s.w2 = .created then some { s with w2 := .awaiting, coroutine := .inW2 } else none
  | .inW2 => none
  | .awaitReady =>
      some { s with
        coroutine := if s.remaining = 0 then .awaitResume else .awaitSuspend }
  | .awaitSuspend => some { s with continuation := true, coroutine := .suspended }
  | .suspended => none
  | .awaitResume =>
      some { s with
        coroutine := .done (match s.exception with
          | some e => .error e
          | none => .ok s.results) }
  | .done _ => none

def pairStep (first : Except E T1) (second : Except E T2) (s : PairState T1 T2 E) :
    PairAction → Option (PairState T1 T2 E)
  | .coroutine => whenAllPair s
  | .launch1 => launch1 first s
  | .launch2 => launch2 second s
  | .suspendTask1 =>
      match s.coroutine with
      | .inW1 => if s.w1 = .awaiting then some { s with coroutine := .resumeW2 } else none
      | _ => none
  | .suspendTask2 =>
      match s.coroutine with
      | .inW2 => if s.w2 = .awaiting then some { s with coroutine := .awaitReady } else none
      | _ => none
  | .resume =>
      if 0 < s.resumers then
        some { s with resumers := s.resumers - 1, coroutine := .awaitResume }
      else none

def pairSystem [Inhabited T1] [Inhabited T2] (first : Except E T1) (second : Except E T2) :
    System (PairState T1 T2 E) PairAction where
  init :=
    { results := default
      exception := none
      remaining := 2
      continuation := false
      w1 := .created
      w2 := .created
      coroutine := .resumeW1
      resumers := 0 }
  step := pairStep first second

end Steps

section Simulation

variable {T1 T2 E : Type*} [Inhabited T1] [Inhabited T2]

def slots (results : T1 × T2) : Fin 2 → T1 × T2 :=
  ![(results.1, default), (default, results.2)]

def pairOutcomes (first : Except E T1) (second : Except E T2) :
    Fin 2 → Except E (T1 × T2) :=
  ![first.map fun value => (value, default), second.map fun value => (default, value)]

def PairPc.abs : PairPc T1 T2 E → CoroutinePc 2 (T1 × T2) E
  | .resumeW1 => .resumeWrapper 0
  | .inW1 => .inWrapper 0
  | .resumeW2 => .resumeWrapper 1
  | .inW2 => .inWrapper 1
  | .awaitReady => .awaitReady
  | .awaitSuspend => .awaitSuspend
  | .suspended => .suspended
  | .awaitResume => .awaitResume
  | .done result => .done (result.map slots)

def PairState.abs (s : PairState T1 T2 E) : State 2 (T1 × T2) E where
  remaining := s.remaining
  continuation := s.continuation
  exception := s.exception
  results := slots s.results
  wrappers := ![s.w1, s.w2]
  coroutine := s.coroutine.abs
  resumers := s.resumers

theorem update_cons_zero {α : Type*} (a b c : α) :
    Function.update ![a, b] 0 c = ![c, b] := by
  funext i
  exact Fin.cases rfl (fun j => by rw [Subsingleton.elim j 0]; rfl) i

theorem update_cons_one {α : Type*} (a b c : α) :
    Function.update ![a, b] 1 c = ![a, c] := by
  funext i
  exact Fin.cases rfl (fun j => by rw [Subsingleton.elim j 0]; rfl) i

variable {first : Except E T1} {second : Except E T2} {s t : PairState T1 T2 E}

theorem abs_store1 (first : Except E T1) (second : Except E T2) : (s.store1 first).abs =
    s.abs.store 0 (pairOutcomes first second 0) := by
  cases first <;> simp [PairState.store1, PairState.abs, State.store, pairOutcomes, slots,
    Except.map, update_cons_zero]

theorem abs_store2 (first : Except E T1) (second : Except E T2) : (s.store2 second).abs =
    s.abs.store 1 (pairOutcomes first second 1) := by
  cases second <;> simp [PairState.store2, PairState.abs, State.store, pairOutcomes, slots,
    Except.map, update_cons_one]

theorem abs_gotoW1 (pc : WrapperPc) : (s.gotoW1 pc).abs = s.abs.goto 0 pc := by
  simp [PairState.gotoW1, PairState.abs, State.goto, update_cons_zero]

theorem abs_gotoW2 (pc : WrapperPc) : (s.gotoW2 pc).abs = s.abs.goto 1 pc := by
  simp [PairState.gotoW2, PairState.abs, State.goto, update_cons_one]

theorem abs_leaveW1 (pc : PairPc T1 T2 E) : pc.leaveW1.abs = pc.abs.leaveWrapper 0 := by
  cases pc <;> rfl

theorem launch1_abs : (launch1 first s).map PairState.abs =
    launchWrapper (pairOutcomes first second) s.abs 0 := by
  have hw1 : s.abs.wrappers 0 = s.w1 := rfl
  unfold launch1 launchWrapper
  rw [hw1]
  cases s.w1 with
  | created => rfl
  | awaiting => simp [launch, abs_gotoW1, abs_store1 first second]
  | fetchSub =>
      simp [launch, PairState.abs, PairState.gotoW1, State.goto, update_cons_zero]
      rfl
  | getContinuation =>
      simp [launch, PairState.abs, PairState.gotoW1, State.goto, update_cons_zero]
      rfl
  | spawn => simp [launch, PairState.abs, PairState.gotoW1, State.goto, update_cons_zero]
  | leave =>
      simp [launch, PairState.abs, PairState.gotoW1, State.goto, update_cons_zero, abs_leaveW1]
  | finished => rfl

theorem abs_leaveW2 {pc : PairPc T1 T2 E} (h : pc ≠ .inW2) :
    pc.leaveW2.abs = pc.abs.leaveWrapper 1 := by
  cases pc with
  | inW2 => exact absurd rfl h
  | _ => rfl

/-- The vector overload goes through the end of its loop where this one stands at
its awaiter, so the inline end of `launch2` is two of its steps. -/
theorem launch2_abs (h : launch2 second s = some t) :
    ∃ bs, exec (system (pairOutcomes first second)) s.abs bs = some t.abs := by
  have hw2 : s.abs.wrappers 1 = s.w2 := rfl
  have hone : launchWrapper (pairOutcomes first second) s.abs 1 = some t.abs →
      ∃ bs, exec (system (pairOutcomes first second)) s.abs bs = some t.abs :=
    fun hstep => ⟨[.wrapper 1], exec_singleton hstep⟩
  rw [launch2] at h
  cases hpc : s.w2 with
  | created => simp [launch, hpc] at h
  | awaiting =>
      rw [hpc] at h
      obtain rfl := Option.some.inj h
      apply hone
      simp [launchWrapper, hw2, hpc, abs_gotoW2, abs_store2 first second]
  | fetchSub =>
      rw [hpc] at h
      obtain rfl := Option.some.inj h
      apply hone
      simp [launchWrapper, hpc, PairState.abs, PairState.gotoW2, State.goto, update_cons_one]
  | getContinuation =>
      rw [hpc] at h
      obtain rfl := Option.some.inj h
      apply hone
      simp [launchWrapper, hpc, PairState.abs, PairState.gotoW2, State.goto, update_cons_one]
  | spawn =>
      rw [hpc] at h
      obtain rfl := Option.some.inj h
      apply hone
      simp [launchWrapper, hpc, PairState.abs, PairState.gotoW2, State.goto, update_cons_one]
  | leave =>
      rw [hpc] at h
      obtain rfl := Option.some.inj h
      by_cases hin : s.coroutine = .inW2
      · refine ⟨[.wrapper 1, .coroutine], ?_⟩
        simp [exec, system, step, launchWrapper, whenAll, hpc, hin, PairState.abs,
          PairState.gotoW2, State.goto, update_cons_one, PairPc.abs, PairPc.leaveW2,
          CoroutinePc.leaveWrapper]
      · apply hone
        simp [launchWrapper, hpc, PairState.abs, PairState.gotoW2, State.goto, update_cons_one,
          abs_leaveW2 hin]
  | finished => simp [launch, hpc] at h

theorem whenAllPair_abs (h : whenAllPair s = some t) :
    ∃ bs, exec (system (pairOutcomes first second)) s.abs bs = some t.abs := by
  refine ⟨[.coroutine], exec_singleton ?_⟩
  change whenAll s.abs = some t.abs
  unfold whenAllPair at h
  cases hpc : s.coroutine with
  | resumeW1 =>
      obtain ⟨hcreated, rfl⟩ := guarded_step (by simpa only [hpc] using h)
      simp [whenAll, PairState.abs, PairPc.abs, hpc, hcreated, State.goto, update_cons_zero]
  | inW1 => simp [hpc] at h
  | resumeW2 =>
      obtain ⟨hcreated, rfl⟩ := guarded_step (by simpa only [hpc] using h)
      simp [whenAll, PairState.abs, PairPc.abs, hpc, hcreated, State.goto, update_cons_one]
  | inW2 => simp [hpc] at h
  | awaitReady =>
      obtain rfl := Option.some.inj (by simpa only [hpc] using h)
      by_cases hready : s.remaining = 0 <;>
        simp [whenAll, PairState.abs, PairPc.abs, hpc, hready]
  | awaitSuspend =>
      obtain rfl := Option.some.inj (by simpa only [hpc] using h)
      simp [whenAll, PairState.abs, PairPc.abs, hpc]
  | suspended => simp [hpc] at h
  | awaitResume =>
      obtain rfl := Option.some.inj (by simpa only [hpc] using h)
      cases hexception : s.exception <;>
        simp [whenAll, PairState.abs, PairPc.abs, hpc, hexception, Except.map]
  | done r => simp [hpc] at h

theorem pairStep_abs {a : PairAction}
    (h : pairStep first second s a = some t) :
    ∃ bs, exec (system (pairOutcomes first second)) s.abs bs = some t.abs := by
  cases a with
  | coroutine => exact whenAllPair_abs h
  | launch1 =>
      have hstep : (launch1 first s).map PairState.abs =
          launchWrapper (pairOutcomes first second) s.abs 0 := launch1_abs
      rw [show launch1 first s = some t from h] at hstep
      exact ⟨[.wrapper 0], exec_singleton hstep.symm⟩
  | launch2 => exact launch2_abs h
  | suspendTask1 =>
      refine ⟨[.suspendTask 0], exec_singleton ?_⟩
      cases hpc : s.coroutine <;> simp [pairStep, hpc] at h
      obtain ⟨hawaiting, rfl⟩ := h
      simp [system, step, PairState.abs, PairPc.abs, hpc, hawaiting]
  | suspendTask2 =>
      refine ⟨[.suspendTask 1, .coroutine], ?_⟩
      cases hpc : s.coroutine <;> simp [pairStep, hpc] at h
      obtain ⟨hawaiting, rfl⟩ := h
      simp [exec, system, step, whenAll, PairState.abs, PairPc.abs, hpc, hawaiting]
  | resume =>
      obtain ⟨hpending, rfl⟩ := guarded_step h
      refine ⟨[.resume], exec_singleton ?_⟩
      exact if_pos hpending

theorem reachable_abs
    (h : Reachable (pairSystem first second) s) :
    Reachable (system (pairOutcomes first second)) s.abs := by
  refine h.simulate PairState.abs ?_ fun s a t _ hstep => pairStep_abs hstep
  have hexec : exec (system (pairOutcomes first second))
      (system (pairOutcomes first second)).init [.coroutine] =
        some (pairSystem first second).init.abs := by
    have hslots : (fun _ => default : Fin 2 → T1 × T2) = slots default := by
      funext i
      exact Fin.cases rfl (fun j => by rw [Subsingleton.elim j 0]; rfl) i
    have hwrappers : (fun _ => .created : Fin 2 → WrapperPc) = ![.created, .created] := by
      funext i
      exact Fin.cases rfl (fun j => by rw [Subsingleton.elim j 0]; rfl) i
    simp [exec, system, step, whenAll, pairSystem, PairState.abs, PairPc.abs, hslots, hwrappers]
  exact reachable_of_exec hexec

end Simulation

section Result

variable {T1 T2 E : Type*} [Inhabited T1] [Inhabited T2]
variable {first : Except E T1} {second : Except E T2} {s t : PairState T1 T2 E}

def ReturnsPair (first : Except E T1) (second : Except E T2)
    (result : Except E (T1 × T2)) : Prop :=
  (∃ a b, first = .ok a ∧ second = .ok b ∧ result = .ok (a, b)) ∨
    ∃ e, (first = .error e ∨ second = .error e) ∧ result = .error e

theorem returnsPair_of_returns {result : Except E (T1 × T2)}
    (h : Returns (pairOutcomes first second) (result.map slots)) :
    ReturnsPair first second result := by
  rcases h with ⟨values, hvalues, hresult⟩ | ⟨i, e, hi, hresult⟩
  · have hfirst : first.map (fun value => (value, default)) = .ok (values 0) := hvalues 0
    have hsecond : second.map (fun value => (default, value)) = .ok (values 1) := hvalues 1
    cases result with
    | error e => simp [Except.map] at hresult
    | ok r =>
        obtain rfl : slots r = values := by simpa [Except.map] using hresult
        cases first with
        | error e => simp [Except.map] at hfirst
        | ok a =>
            cases second with
            | error e => simp [Except.map] at hsecond
            | ok b =>
                obtain rfl : a = r.1 := by simpa [Except.map, slots] using hfirst
                obtain rfl : b = r.2 := by simpa [Except.map, slots] using hsecond
                exact .inl ⟨_, _, rfl, rfl, rfl⟩
  · have hthrown : first = .error e ∨ second = .error e := by
      refine Fin.cases (fun hi => ?_) (fun j hi => ?_) i hi
      · left
        cases first <;> simp_all [pairOutcomes, Except.map]
      · right
        rw [Subsingleton.elim j 0] at hi
        cases second <;> simp_all [pairOutcomes, Except.map]
    refine .inr ⟨e, hthrown, ?_⟩
    cases result <;> simp_all [Except.map]

theorem hasCompleted_of_awaitResume_pair (h : Reachable (pairSystem first second) s)
    (pc : s.coroutine = .awaitResume) : HasCompleted s.w1 ∧ HasCompleted s.w2 := by
  obtain ⟨as, run⟩ := reachable_abs h
  have hpc : s.abs.coroutine = .awaitResume := by simp [PairState.abs, PairPc.abs, pc]
  exact ⟨hasCompleted_of_awaitResume run hpc 0, hasCompleted_of_awaitResume run hpc 1⟩

theorem returnsPair_of_done (h : Reachable (pairSystem first second) s)
    {result : Except E (T1 × T2)} (pc : s.coroutine = .done result) :
    ReturnsPair first second result := by
  obtain ⟨as, run⟩ := reachable_abs h
  have hpc : s.abs.coroutine = .done (result.map slots) := by
    simp [PairState.abs, PairPc.abs, pc]
  exact returnsPair_of_returns (returns_of_done run hpc)

/-- The vector overload passes its awaiter only when all tasks have completed, and returns
there what the tasks say. -/
theorem returns_of_reachable {T : Type*} [Inhabited T] {n : Nat} {outcomes : Fin n → Except E T}
    {s : State n T E} (hs : Reachable (system outcomes) s) :
    (s.coroutine = .awaitResume →
      (∀ i, HasCompleted (s.wrappers i)) ∧
      ∃ t r, step outcomes s .coroutine = some t ∧ t.coroutine = .done r) ∧
    ∀ r, s.coroutine = .done r → Returns outcomes r := by
  obtain ⟨as, run⟩ := hs
  refine ⟨fun pc => ⟨hasCompleted_of_awaitResume run pc, ?_⟩, fun r => returns_of_done run⟩
  simp only [step, whenAll, pc]
  exact ⟨_, _, rfl, rfl⟩

theorem returnsPair_of_reachable (hs : Reachable (pairSystem first second) s) :
    (s.coroutine = .awaitResume →
      (HasCompleted s.w1 ∧ HasCompleted s.w2) ∧
      ∃ t r, pairStep first second s .coroutine = some t ∧ t.coroutine = .done r) ∧
    ∀ r, s.coroutine = .done r → ReturnsPair first second r := by
  refine ⟨fun pc => ⟨hasCompleted_of_awaitResume_pair hs pc, ?_⟩,
    fun r => returnsPair_of_done hs⟩
  simp only [pairStep, whenAllPair, pc]
  exact ⟨_, _, rfl, rfl⟩

end Result

end SkUtils.Coroutine.WhenAllPair
