import Mathlib.Data.List.Basic
import Mathlib.Logic.Basic

/-!
Labelled transition systems with a partial step function. A run records the
actions taken since the start; the rules below turn a fact about one step into
a fact about every run.
-/

namespace SkUtils.Library.TransitionSystem

universe u v

/-- A start state and a step function. `step s a = none` says that the action
`a` is not enabled in `s`. -/
structure System (σ : Type u) (α : Type v) where
  init : σ
  step : σ → α → Option σ

variable {σ : Type u} {α : Type v}

/-- `Run M Allowed as s` says that `M` reaches `s` by the actions `as`, each of
them allowed in the state where it is taken. -/
inductive Run (M : System σ α) (Allowed : σ → α → Prop) : List α → σ → Prop
  | start : Run M Allowed [] M.init
  | extend {as : List α} {s t : σ} {a : α} (run : Run M Allowed as s)
      (allowed : Allowed s a) (step : M.step s a = some t) :
      Run M Allowed (as ++ [a]) t

def Unrestricted : σ → α → Prop := fun _ _ => True

def ReachableUnder (M : System σ α) (Allowed : σ → α → Prop) (s : σ) : Prop :=
  ∃ as, Run M Allowed as s

def Reachable (M : System σ α) (s : σ) : Prop :=
  ReachableUnder M Unrestricted s

/-- What a step with a guard says of the states before and after it. -/
theorem guarded_step {guard : Prop} [Decidable guard] {s t : σ}
    (h : (if guard then some s else none) = some t) : guard ∧ s = t := by
  obtain ⟨hguard, h⟩ := Option.ite_none_right_eq_some.mp h
  exact ⟨hguard, Option.some.inj h⟩

theorem Run.mono {M : System σ α} {P Q : σ → α → Prop}
    (h : ∀ s a, P s a → Q s a) {as : List α} {s : σ} (run : Run M P as s) :
    Run M Q as s := by
  induction run with
  | start => exact .start
  | extend _ allowed step ih => exact .extend ih (h _ _ allowed) step

theorem Run.reachable {M : System σ α} {P : σ → α → Prop} {as : List α} {s : σ}
    (run : Run M P as s) : Reachable M s :=
  ⟨as, run.mono fun _ _ _ => trivial⟩

/-- Invariant rule over runs. The predicate may mention the actions taken. -/
theorem Run.invariant {M : System σ α} {P : σ → α → Prop}
    (I : List α → σ → Prop) (start : I [] M.init)
    (preserved : ∀ as s a t, Run M P as s → P s a → M.step s a = some t →
      I as s → I (as ++ [a]) t)
    {as : List α} {s : σ} (run : Run M P as s) : I as s := by
  induction run with
  | start => exact start
  | extend run allowed step ih => exact preserved _ _ _ _ run allowed step ih

theorem ReachableUnder.invariant {M : System σ α} {P : σ → α → Prop}
    (I : σ → Prop) (start : I M.init)
    (preserved : ∀ s a t, P s a → M.step s a = some t → I s → I t)
    {s : σ} (reachable : ReachableUnder M P s) : I s := by
  obtain ⟨as, run⟩ := reachable
  exact run.invariant (fun _ => I) start
    fun _ s a t _ allowed step hs => preserved s a t allowed step hs

theorem Reachable.invariant {M : System σ α} (I : σ → Prop) (start : I M.init)
    (preserved : ∀ s a t, M.step s a = some t → I s → I t)
    {s : σ} (reachable : Reachable M s) : I s :=
  ReachableUnder.invariant I start (fun s a t _ => preserved s a t) reachable

def exec (M : System σ α) : σ → List α → Option σ
  | s, [] => some s
  | s, a :: as => (M.step s a).bind fun t => exec M t as

theorem Run.append_exec {M : System σ α} {P : σ → α → Prop} {before as : List α} {s t : σ}
    (run : Run M P before s) (h : exec M s as = some t) (allowed : ∀ a ∈ as, ∀ u, P u a) :
    Run M P (before ++ as) t := by
  induction as generalizing before s with
  | nil =>
      have hst : s = t := by simpa [exec] using h
      subst t
      simpa using run
  | cons a as ih =>
      obtain ⟨u, hstep, hrest⟩ := Option.bind_eq_some_iff.mp h
      obtain ⟨hfirst, hall⟩ := List.forall_mem_cons.mp allowed
      have := ih (run.extend (hfirst s) hstep) hrest hall
      simpa using this

theorem run_append_of_exec {M : System σ α} {before as : List α} {s t : σ}
    (run : Run M Unrestricted before s) (h : exec M s as = some t) :
    Run M Unrestricted (before ++ as) t :=
  run.append_exec h fun _ _ _ => trivial

theorem run_of_exec {M : System σ α} {as : List α} {t : σ}
    (h : exec M M.init as = some t) : Run M Unrestricted as t := by
  simpa using run_append_of_exec Run.start h

theorem reachable_of_exec {M : System σ α} {as : List α} {t : σ}
    (h : exec M M.init as = some t) : Reachable M t :=
  ⟨as, run_of_exec h⟩

theorem exec_append {M : System σ α} {as bs : List α} {s t u : σ} (h : exec M s as = some t)
    (h' : exec M t bs = some u) : exec M s (as ++ bs) = some u := by
  induction as generalizing s with
  | nil =>
      obtain rfl := Option.some.inj h
      exact h'
  | cons a as ih =>
      obtain ⟨next, hstep, hrest⟩ := Option.bind_eq_some_iff.mp h
      exact Option.bind_eq_some_iff.mpr ⟨next, hstep, ih hrest⟩

theorem Reachable.exec {M : System σ α} {as : List α} {s t : σ} (hs : Reachable M s)
    (h : exec M s as = some t) : Reachable M t := by
  obtain ⟨before, run⟩ := hs
  exact ⟨_, run_append_of_exec run h⟩

theorem Reachable.step {M : System σ α} {s t : σ} {a : α} (hs : Reachable M s)
    (h : M.step s a = some t) : Reachable M t := by
  obtain ⟨before, run⟩ := hs
  exact ⟨_, run.extend trivial h⟩

/-- Forward simulation rule: each step of `M` is a sequence of steps of `N`. -/
theorem Reachable.simulate {σ' α' : Type*} {M : System σ α} {N : System σ' α'} {s : σ}
    (reachable : Reachable M s) (f : σ → σ') (start : Reachable N (f M.init))
    (simulated : ∀ s a t, Reachable M s → M.step s a = some t →
      ∃ bs, TransitionSystem.exec N (f s) bs = some (f t)) : Reachable N (f s) := by
  obtain ⟨as, run⟩ := reachable
  refine run.invariant (fun _ s => Reachable N (f s)) start fun as s a t run _ hstep hs => ?_
  obtain ⟨bs, hexec⟩ := simulated s a t ⟨as, run⟩ hstep
  exact hs.exec hexec

theorem exec_singleton {M : System σ α} {s t : σ} {a : α} (h : M.step s a = some t) :
    TransitionSystem.exec M s [a] = some t :=
  Option.bind_eq_some_iff.mpr ⟨t, h, rfl⟩

theorem Run.exec {M : System σ α} {P : σ → α → Prop} {as : List α} {s : σ}
    (run : Run M P as s) : TransitionSystem.exec M M.init as = some s := by
  induction run with
  | start => rfl
  | extend _ _ step ih => exact exec_append ih (exec_singleton step)

/-- Whether a longer run keeps to `P` is decided by its last step. -/
theorem Run.extend_iff {M : System σ α} {P Q : σ → α → Prop} {as : List α} {s t : σ} {a : α}
    (run : Run M Q as s) (step : M.step s a = some t) :
    Run M P (as ++ [a]) t ↔ Run M P as s ∧ P s a := by
  constructor
  · intro h
    generalize hbs : as ++ [a] = bs at h
    cases h with
    | start => simp at hbs
    | extend run' allowed _ =>
        obtain ⟨rfl, hlast⟩ := List.append_inj' hbs rfl
        obtain rfl : a = _ := by simpa using hlast
        obtain rfl := Option.some.inj (run.exec.symm.trans run'.exec)
        exact ⟨run', allowed⟩
  · rintro ⟨run', allowed⟩
    exact run'.extend allowed step

/-- A property of runs that each step keeps exactly if it meets `Q` tells the runs apart
whose steps all do. -/
theorem Run.iff_run_of_step {M : System σ α} {P Q : σ → α → Prop}
    (I : List α → σ → Prop) (start : I [] M.init)
    (kept : ∀ as s a t, Run M P as s → M.step s a = some t →
      (I (as ++ [a]) t ↔ I as s ∧ Q s a))
    {as : List α} {s : σ} (run : Run M P as s) : I as s ↔ Run M Q as s := by
  induction run with
  | start => exact iff_of_true start .start
  | extend run _ step ih => rw [kept _ _ _ _ run step, ih, run.extend_iff step]

/-- Invariant rule over what comes after a state. It also says which actions are
never taken from there on. -/
theorem exec_invariant {M : System σ α} (I : σ → Prop) (P Q : α → Prop)
    (preserved : ∀ s a t, P a → M.step s a = some t → I s → I t ∧ Q a)
    {as : List α} {s t : σ} (h : exec M s as = some t) (allowed : ∀ a ∈ as, P a)
    (hs : I s) : I t ∧ ∀ a ∈ as, Q a := by
  induction as generalizing s with
  | nil =>
      obtain rfl := Option.some.inj h
      exact ⟨hs, by simp⟩
  | cons a as ih =>
      obtain ⟨next, hstep, hrest⟩ := Option.bind_eq_some_iff.mp h
      obtain ⟨hnext, ha⟩ := preserved s a next (allowed a List.mem_cons_self) hstep hs
      obtain ⟨ht, has⟩ := ih hrest (fun b hb => allowed b (List.mem_cons_of_mem a hb)) hnext
      exact ⟨ht, List.forall_mem_cons.mpr ⟨ha, has⟩⟩

section Outputs

variable {β : Type*}

/-- What the steps put out along a run, when `out` says it of one step. -/
def outputs (M : System σ α) (out : σ → α → List β) : σ → List α → List β
  | _, [] => []
  | s, a :: as => out s a ++ (M.step s a).elim [] fun t => outputs M out t as

theorem outputs_append_of_exec {M : System σ α} {out : σ → α → List β} {as bs : List α}
    {s t : σ} (h : exec M s as = some t) :
    outputs M out s (as ++ bs) = outputs M out s as ++ outputs M out t bs := by
  induction as generalizing s with
  | nil =>
      obtain rfl := Option.some.inj h
      rfl
  | cons a as ih =>
      obtain ⟨next, hstep, hrest⟩ := Option.bind_eq_some_iff.mp h
      simp [outputs, hstep, ih hrest]

theorem outputs_singleton (M : System σ α) (out : σ → α → List β) (s : σ) (a : α) :
    outputs M out s [a] = out s a := by
  cases hstep : M.step s a <;> simp [outputs, hstep]

theorem Run.outputs_extend {M : System σ α} {P : σ → α → Prop} {out : σ → α → List β}
    {as : List α} {s : σ} (run : Run M P as s) (a : α) :
    outputs M out M.init (as ++ [a]) = outputs M out M.init as ++ out s a := by
  rw [outputs_append_of_exec run.exec, outputs_singleton]

theorem outputs_filterMap (M : System σ α) (out : σ → α → List β) {γ : Type*}
    (f : β → Option γ) (s : σ) (as : List α) :
    outputs M (fun s a => (out s a).filterMap f) s as =
      (outputs M out s as).filterMap f := by
  induction as generalizing s with
  | nil => rfl
  | cons a as ih => cases hstep : M.step s a <;> simp [outputs, hstep, ih]

end Outputs

end SkUtils.Library.TransitionSystem
