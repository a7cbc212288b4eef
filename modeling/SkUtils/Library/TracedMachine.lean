import Mathlib.Data.List.Basic

/-!
Deterministic machines whose steps emit outputs. A path to a halted state can be cut at
every state on the way: what has been emitted and what is still to come make up its trace.
-/

namespace SkUtils.Library.TracedMachine

universe u v w

variable {σ : Type u} {β : Type v} {γ : Type w} {step : σ → Option (σ × List β)}

/-- The machine goes from the first to the second state and emits the list. -/
inductive Path (step : σ → Option (σ × List β)) : σ → List β → σ → Prop
  | refl (s : σ) : Path step s [] s
  | head {s s' t : σ} {out outs : List β} (first : step s = some (s', out))
      (rest : Path step s' outs t) : Path step s (out ++ outs) t

theorem Path.single {s t : σ} {out : List β} (h : step s = some (t, out)) :
    Path step s out t := by
  have hpath := Path.head h (.refl t)
  rwa [List.append_nil] at hpath

theorem Path.trans {s t u : σ} {outs outs' : List β} (h : Path step s outs t)
    (h' : Path step t outs' u) : Path step s (outs ++ outs') u := by
  induction h with
  | refl _ => exact h'
  | head first _ ih =>
      rw [List.append_assoc]
      exact .head first (ih h')

/-- The first step of a path to a halted state is the step of the machine. -/
theorem Path.after_step {s s' t : σ} {out outs : List β} (h : Path step s outs t)
    (hhalt : step t = none) (hstep : step s = some (s', out)) :
    ∃ rest, outs = out ++ rest ∧ Path step s' rest t := by
  cases h with
  | refl _ => cases hhalt.symm.trans hstep
  | head first rest =>
      cases first.symm.trans hstep
      exact ⟨_, rfl, rest⟩

theorem Path.of_halted {s t : σ} {outs : List β} (h : Path step s outs t)
    (hhalt : step s = none) : outs = [] ∧ t = s := by
  cases h with
  | refl _ => exact ⟨rfl, rfl⟩
  | head first _ => cases hhalt.symm.trans first

/-- Every path is the beginning of the path to the halted state. -/
theorem Path.completes {s t u : σ} {outs outs' : List β} (h : Path step s outs u)
    (hrun : Path step s outs' t) (hhalt : step t = none) :
    ∃ rest, outs' = outs ++ rest ∧ Path step u rest t := by
  induction h generalizing outs' with
  | refl _ => exact ⟨outs', rfl, hrun⟩
  | head first _ ih =>
      obtain ⟨rest, rfl, hrest⟩ := hrun.after_step hhalt first
      obtain ⟨rest', rfl, hlast⟩ := ih hrest
      exact ⟨rest', (List.append_assoc ..).symm, hlast⟩

/-- Where the steps emit one by one, a path can be cut between any two outputs. -/
theorem Path.split {s t : σ} {before after : List β}
    (hsingle : ∀ s s' out, step s = some (s', out) → out.length ≤ 1)
    (h : Path step s (before ++ after) t) :
    ∃ u, Path step s before u ∧ Path step u after t := by
  generalize houts : before ++ after = outs at h
  induction h generalizing before with
  | refl s =>
      obtain ⟨rfl, rfl⟩ := List.append_eq_nil_iff.mp houts
      exact ⟨s, .refl s, .refl s⟩
  | @head s s' t out outs first rest ih =>
      cases before with
      | nil =>
          rw [List.nil_append] at houts
          exact ⟨s, .refl s, houts ▸ .head first rest⟩
      | cons b before =>
          match out, hsingle _ _ _ first with
          | [], _ =>
              obtain ⟨u, hbefore, hafter⟩ := ih houts
              exact ⟨u, .head first hbefore, hafter⟩
          | [b'], _ =>
              obtain ⟨rfl, htail⟩ := List.cons.inj houts
              obtain ⟨u, hbefore, hafter⟩ := ih htail
              exact ⟨u, .head first hbefore, hafter⟩

theorem Path.imp {step' : σ → Option (σ × List β)} {s t : σ} {outs : List β}
    (hstep : ∀ s next, step s = some next → step' s = some next)
    (h : Path step s outs t) : Path step' s outs t := by
  induction h with
  | refl s => exact .refl s
  | head first _ ih => exact .head (hstep _ _ first) ih

/-- The path of a machine that emits a part of what the other emits. -/
theorem Path.filterMap {step' : σ → Option (σ × List γ)} {s t : σ} {outs : List β}
    (f : β → Option γ) (hstep : ∀ s t out, step s = some (t, out) →
      step' s = some (t, out.filterMap f))
    (h : Path step s outs t) : Path step' s (outs.filterMap f) t := by
  induction h with
  | refl s => exact .refl s
  | head first _ ih =>
      rw [List.filterMap_append]
      exact .head (hstep _ _ _ first) ih

end SkUtils.Library.TracedMachine
