import Mathlib.Data.Fintype.BigOperators
import Mathlib.Data.List.Basic
import Mathlib.Logic.Function.Basic
import Mathlib.Order.WellFounded
import SkUtils.Library.Processes
import SkUtils.Library.TransitionSystem

/-!
Threads that work on objects, each object behind a spin lock of its own. An operation goes on
in steps while its thread has the lock. Any interleaving of the steps has the effect of the
operations one after another, in the order in which they end.
-/

namespace SkUtils.Library.CriticalSections

open SkUtils.Library.Processes
open SkUtils.Library.TransitionSystem

universe u v w x

/-- An object of states `σ` whose operations are done in steps, with `Local` for what the thread
knows on the way. `cost` bounds the steps that are left. -/
structure Object (σ : Type u) (Op : Type v) (Local : Type w) where
  enter : Op → Local
  next : Local → σ → Option (Local × σ)
  cost : Local → σ → Nat
  decreases : ∀ l x l' x', next l x = some (l', x') → cost l' x' < cost l x

section Sequential

variable {σ : Type u} {Op : Type v} {Local : Type w} (obj : Object σ Op Local)

/-- The thread comes from `l` to `l'`, and the object from `x` to `x'`. -/
inductive Steps : Local → σ → Local → σ → Prop
  | refl (l : Local) (x : σ) : Steps l x l x
  | tail {l l' l'' : Local} {x x' x'' : σ} (before : Steps l x l' x')
      (step : obj.next l' x' = some (l'', x'')) : Steps l x l'' x''

/-- The operation as a whole, done by nobody but one thread; `l` is what it leaves. -/
def Does (op : Op) (x : σ) (l : Local) (y : σ) : Prop :=
  Steps obj (obj.enter op) x l y ∧ obj.next l y = none

variable {obj} {op : Op} {l l' l'' : Local} {x x' y y' : σ}

theorem Steps.trans (h : Steps obj l x l' x') (h' : Steps obj l' x' l'' y) :
    Steps obj l x l'' y := by
  induction h' with
  | refl => exact h
  | tail _ step ih => exact (ih h).tail step

theorem Steps.head {m n : Local} {z : σ} (h : obj.next l x = some (m, z))
    (rest : Steps obj m z n y) : Steps obj l x n y :=
  ((Steps.refl l x).tail h).trans rest

theorem Steps.cases_head (h : Steps obj l x l'' y) :
    (l'' = l ∧ y = x) ∨ ∃ l' x', obj.next l x = some (l', x') ∧ Steps obj l' x' l'' y := by
  induction h with
  | refl => exact .inl ⟨rfl, rfl⟩
  | tail _ step ih =>
      rcases ih with ⟨rfl, rfl⟩ | ⟨l', x', hfirst, hrest⟩
      · exact .inr ⟨_, _, step, .refl ..⟩
      · exact .inr ⟨l', x', hfirst, hrest.tail step⟩

/-- All steps lie on the way to the end. -/
theorem Steps.completes (h : Steps obj l x l' x') (hend : Steps obj l x l'' y)
    (hnone : obj.next l'' y = none) : Steps obj l' x' l'' y := by
  induction h with
  | refl => exact hend
  | tail _ step ih =>
      rcases (ih hend).cases_head with ⟨rfl, rfl⟩ | ⟨m, z, hfirst, hrest⟩
      · rw [hnone] at step
        cases step
      · rw [step] at hfirst
        cases hfirst
        exact hrest

theorem Does.unique (h : Does obj op x l y) (h' : Does obj op x l' y') : l = l' ∧ y = y' := by
  rcases (h.1.completes h'.1 h'.2).cases_head with ⟨rfl, rfl⟩ | ⟨m, z, hfirst, -⟩
  · exact ⟨rfl, rfl⟩
  · rw [h.2] at hfirst
    cases hfirst

end Sequential

variable {κ : Type u} {σ : κ → Type v} {Op : κ → Type w} {Local : κ → Type x}

/-- An operation that has ended, with what it has left. -/
abbrev Done (Op : κ → Type w) (Local : κ → Type x) :=
  Sigma fun k => Op k × Local k

variable {ι : Type*} [DecidableEq ι] [DecidableEq κ]
  (obj : ∀ k, Object (σ k) (Op k) (Local k))

/-- The operations one after another. -/
inductive Sequence (start : ∀ k, σ k) : List (Done Op Local) → (∀ k, σ k) → Prop
  | nil : Sequence start [] start
  | concat {ops : List (Done Op Local)} {settled : ∀ k, σ k} {k : κ} {op : Op k} {l : Local k}
      {y : σ k} (before : Sequence start ops settled) (last : Does (obj k) op (settled k) l y) :
      Sequence start (ops ++ [⟨k, op, l⟩]) (Function.update settled k y)

section Code

inductive Pc (Op : κ → Type w) (Local : κ → Type x)
  | outside
  | inside (k : κ) (op : Op k) (l : Local k)

structure Thread (Op : κ → Type w) (Local : κ → Type x) where
  pc : Pc Op Local
  todo : List (Sigma Op)
  returned : List (Done Op Local)

/-- The end of a section. -/
def Thread.leave (thread : Thread Op Local) (done : Done Op Local) : Thread Op Local :=
  { thread with pc := .outside, returned := thread.returned ++ [done] }

structure State (ι : Type*) (σ : κ → Type v) (Op : κ → Type w) (Local : κ → Type x) where
  flag : κ → Bool
  shared : ∀ k, σ k
  threads : ι → Thread Op Local

def State.set (s : State ι σ Op Local) (i : ι) (thread : Thread Op Local) :
    State ι σ Op Local :=
  { s with threads := Function.update s.threads i thread }

/-- A `test_and_set`: the thread goes on spinning if it finds the flag set. -/
def lock (s : State ι σ Op Local) (i : ι) (k : κ) (op : Op k) (todo : List (Sigma Op)) :
    State ι σ Op Local :=
  if s.flag k then
    s
  else
    { s with flag := Function.update s.flag k true }.set i
      { s.threads i with pc := .inside k op ((obj k).enter op), todo }

/-- A step of the section, or the `clear` at its end. -/
def work (s : State ι σ Op Local) (i : ι) (k : κ) (op : Op k) (l : Local k) :
    State ι σ Op Local :=
  match (obj k).next l (s.shared k) with
  | some (l', x) =>
      { s with shared := Function.update s.shared k x }.set i
        { s.threads i with pc := .inside k op l' }
  | none =>
      { s with flag := Function.update s.flag k false }.set i
        ((s.threads i).leave ⟨k, op, l⟩)

def step (s : State ι σ Op Local) (i : ι) : Option (State ι σ Op Local) :=
  match (s.threads i).pc, (s.threads i).todo with
  | .outside, [] => none
  | .outside, ⟨k, op⟩ :: todo => some (lock obj s i k op todo)
  | .inside k op l, _ => some (work obj s i k op l)

def system (start : ∀ k, σ k) (programs : ι → List (Sigma Op)) :
    System (State ι σ Op Local) ι where
  init :=
    { flag _ := false
      shared := start
      threads i := { pc := .outside, todo := programs i, returned := [] } }
  step := step obj

end Code

section Steps

variable {obj} {s t : State ι σ Op Local} {i : ι}

/-- What a thread can do: it spins, enters a section, goes on in it, or leaves it. -/
theorem step_cases (h : step obj s i = some t) :
    t = s ∨
    (∃ k op todo, (s.threads i).pc = .outside ∧ (s.threads i).todo = ⟨k, op⟩ :: todo ∧
      s.flag k = false ∧ t = { s with flag := Function.update s.flag k true }.set i
        { s.threads i with pc := .inside k op ((obj k).enter op), todo }) ∨
    (∃ k op l l' x, (s.threads i).pc = .inside k op l ∧
      (obj k).next l (s.shared k) = some (l', x) ∧
      t = { s with shared := Function.update s.shared k x }.set i
        { s.threads i with pc := .inside k op l' }) ∨
    ∃ k op l, (s.threads i).pc = .inside k op l ∧ (obj k).next l (s.shared k) = none ∧
      t = { s with flag := Function.update s.flag k false }.set i
        ((s.threads i).leave ⟨k, op, l⟩) := by
  unfold step at h
  split at h
  case h_1 => cases h
  case h_2 k op todo hpc htodo =>
    obtain rfl := Option.some.inj h
    cases hflag : s.flag k with
    | true =>
        left
        rw [lock, if_pos hflag]
    | false =>
        refine .inr (.inl ⟨k, op, todo, hpc, htodo, hflag, ?_⟩)
        rw [lock, if_neg (by simp [hflag])]
  case h_3 k op l hpc =>
    obtain rfl := Option.some.inj h
    rw [work]
    split
    case h_1 l' x hnext => exact .inr (.inr (.inl ⟨k, op, l, l', x, hpc, hnext, rfl⟩))
    case h_2 hnext => exact .inr (.inr (.inr ⟨k, op, l, hpc, hnext, rfl⟩))

end Steps

section Exclusion

def Thread.In (thread : Thread Op Local) (k : κ) : Prop :=
  ∃ op l, thread.pc = .inside k op l

omit [DecidableEq κ] in
theorem Thread.In.unique {thread : Thread Op Local} {k k' : κ} (h : thread.In k)
    (h' : thread.In k') : k = k' := by
  obtain ⟨op, l, hpc⟩ := h
  obtain ⟨op', l', hpc'⟩ := h'
  cases hpc.symm.trans hpc'
  rfl

variable {obj} {s t : State ι σ Op Local} {flag : κ → Bool} {threads : ι → Thread Op Local}
  {thread : Thread Op Local} {i j : ι} {k : κ}

/-- A flag is set exactly while a thread, and then only one, is in the section. -/
structure Exclusive (flag : κ → Bool) (threads : ι → Thread Op Local) : Prop where
  held : ∀ i k, (threads i).In k → flag k = true
  owned : ∀ k, flag k = true → ∃ i, (threads i).In k
  alone : ∀ i j k, (threads i).In k → (threads j).In k → i = j

omit [DecidableEq κ] in
/-- A thread that has moved is in no section but `k`, all others are where they were. -/
theorem in_update (h : (Function.update threads i thread j).In k) :
    (j = i ∧ thread.In k) ∨ (j ≠ i ∧ (threads j).In k) := by
  rcases eq_or_ne j i with rfl | hij
  · rw [Function.update_self] at h
    exact .inl ⟨rfl, h⟩
  · rw [Function.update_of_ne hij] at h
    exact .inr ⟨hij, h⟩

theorem Exclusive.enter (h : Exclusive flag threads) (hk : flag k = false)
    (hout : (threads i).pc = .outside) (hin : thread.In k) :
    Exclusive (Function.update flag k true) (Function.update threads i thread) := by
  have hfree : ∀ j, ¬(threads j).In k := by
    intro j hj
    rw [h.held j k hj] at hk
    cases hk
  constructor
  case held =>
    intro j k' hj
    rcases eq_or_ne k' k with rfl | hne
    · exact Function.update_self ..
    · rw [Function.update_of_ne hne]
      rcases in_update hj with ⟨-, hj⟩ | ⟨-, hj⟩
      · exact absurd (hj.unique hin) hne
      · exact h.held j k' hj
  case owned =>
    intro k' hk'
    rcases eq_or_ne k' k with rfl | hne
    · refine ⟨i, ?_⟩
      rwa [Function.update_self]
    · rw [Function.update_of_ne hne] at hk'
      obtain ⟨j, hj⟩ := h.owned k' hk'
      have hij : j ≠ i := by
        rintro rfl
        obtain ⟨op, l, hpc⟩ := hj
        cases hout.symm.trans hpc
      refine ⟨j, ?_⟩
      rwa [Function.update_of_ne hij]
  case alone =>
    intro a b k' ha hb
    rcases in_update ha with ⟨hai, hak⟩ | ⟨-, hak⟩
    · obtain rfl := hak.unique hin
      rcases in_update hb with ⟨hbi, -⟩ | ⟨-, hbk⟩
      · exact hai.trans hbi.symm
      · exact absurd hbk (hfree b)
    · rcases in_update hb with ⟨-, hbk⟩ | ⟨-, hbk⟩
      · obtain rfl := hbk.unique hin
        exact absurd hak (hfree a)
      · exact h.alone a b k' hak hbk

theorem Exclusive.leave (h : Exclusive flag threads) (hin : (threads i).In k)
    (hout : ∀ k', ¬thread.In k') :
    Exclusive (Function.update flag k false) (Function.update threads i thread) := by
  have hothers : ∀ j k', (Function.update threads i thread j).In k' →
      j ≠ i ∧ (threads j).In k' := by
    intro j k' hj
    rcases in_update hj with ⟨-, hj⟩ | hj
    · exact absurd hj (hout k')
    · exact hj
  constructor
  case held =>
    intro j k' hj
    obtain ⟨hij, hj⟩ := hothers j k' hj
    have hne : k' ≠ k := by
      rintro rfl
      exact hij (h.alone j i k' hj hin)
    rw [Function.update_of_ne hne]
    exact h.held j k' hj
  case owned =>
    intro k' hk'
    have hne : k' ≠ k := by
      rintro rfl
      rw [Function.update_self] at hk'
      cases hk'
    rw [Function.update_of_ne hne] at hk'
    obtain ⟨j, hj⟩ := h.owned k' hk'
    have hij : j ≠ i := by
      rintro rfl
      exact hne (hj.unique hin)
    refine ⟨j, ?_⟩
    rwa [Function.update_of_ne hij]
  case alone =>
    intro a b k' ha hb
    exact h.alone a b k' (hothers a k' ha).2 (hothers b k' hb).2

omit [DecidableEq κ] in
theorem Exclusive.stay (h : Exclusive flag threads)
    (hin : ∀ k, thread.In k ↔ (threads i).In k) :
    Exclusive flag (Function.update threads i thread) := by
  have hiff : ∀ j k, (Function.update threads i thread j).In k ↔ (threads j).In k := by
    intro j k
    rcases eq_or_ne j i with rfl | hij
    · rw [Function.update_self, hin]
    · rw [Function.update_of_ne hij]
  constructor
  case held => exact fun j k hj => h.held j k ((hiff j k).mp hj)
  case owned =>
    intro k hk
    obtain ⟨j, hj⟩ := h.owned k hk
    exact ⟨j, (hiff j k).mpr hj⟩
  case alone => exact fun a b k ha hb => h.alone a b k ((hiff a k).mp ha) ((hiff b k).mp hb)

theorem Exclusive.step (h : Exclusive s.flag s.threads) (hstep : step obj s i = some t) :
    Exclusive t.flag t.threads := by
  rcases step_cases hstep with rfl | ⟨k, op, todo, hpc, -, hflag, rfl⟩ |
    ⟨k, op, l, l', x, hpc, -, rfl⟩ | ⟨k, op, l, hpc, -, rfl⟩
  · exact h
  · exact h.enter hflag hpc ⟨op, _, rfl⟩
  · refine h.stay fun k' => ?_
    constructor
    · rintro ⟨op', l'', hin⟩
      cases hin
      exact ⟨op, l, hpc⟩
    · rintro ⟨op', l'', hin⟩
      cases hpc.symm.trans hin
      exact ⟨op, l', rfl⟩
  · refine h.leave ⟨op, l, hpc⟩ ?_
    rintro k' ⟨op', l', hin⟩
    cases hin

end Exclusion

section Order

variable {obj} {start : ∀ k, σ k} {programs : ι → List (Sigma Op)} {s t : State ι σ Op Local}
  {i : ι} {order : List (ι × Done Op Local)}

def Done.op (done : Done Op Local) : Sigma Op :=
  ⟨done.1, done.2.1⟩

def Pc.current : Pc Op Local → List (Sigma Op)
  | .outside => []
  | .inside k op _ => [⟨k, op⟩]

/-- What the thread has done, is doing, and has still to do. -/
def Thread.program (thread : Thread Op Local) : List (Sigma Op) :=
  thread.returned.map Done.op ++ thread.pc.current ++ thread.todo

/-- The operations of the thread in the order. -/
def byThread (i : ι) (order : List (ι × Done Op Local)) : List (Done Op Local) :=
  (order.filter fun e => e.1 = i).map Prod.snd

omit [DecidableEq κ] in
theorem byThread_concat_self (done : Done Op Local) :
    byThread i (order ++ [(i, done)]) = byThread i order ++ [done] := by
  simp [byThread]

omit [DecidableEq κ] in
theorem byThread_concat_of_ne {j : ι} (hij : j ≠ i) (done : Done Op Local) :
    byThread j (order ++ [(i, done)]) = byThread j order := by
  simp [byThread, hij.symm]

variable (obj start) in
/-- The objects are as the operations that have ended have left them one after another, but for
the steps of the sections that are under way. -/
structure Settled (s : State ι σ Op Local) (order : List (ι × Done Op Local))
    (settled : ∀ k, σ k) : Prop where
  returned : ∀ i, byThread i order = (s.threads i).returned
  sequence : Sequence obj start (order.map Prod.snd) settled
  free : ∀ k, s.flag k = false → s.shared k = settled k
  inside : ∀ i k op l, (s.threads i).pc = .inside k op l →
    Steps (obj k) ((obj k).enter op) (settled k) l (s.shared k)

theorem program_step (hstep : step obj s i = some t) (j : ι) :
    (t.threads j).program = (s.threads j).program := by
  rcases step_cases hstep with rfl | ⟨k, op, todo, hpc, htodo, -, rfl⟩ |
    ⟨k, op, l, l', x, hpc, -, rfl⟩ | ⟨k, op, l, hpc, -, rfl⟩
  · rfl
  all_goals
    rcases eq_or_ne j i with rfl | hij
    case inr => simp [State.set, hij]
  · simp [State.set, Thread.program, Pc.current, hpc, htodo]
  · simp [State.set, Thread.program, Pc.current, hpc]
  · simp [State.set, Thread.program, Thread.leave, Pc.current, Done.op, hpc]

variable {settled : ∀ k, σ k} {k : κ} {op : Op k} {l : Local k}

theorem Settled.enter (h : Settled obj start s order settled) {todo : List (Sigma Op)}
    (hflag : s.flag k = false) :
    Settled obj start ({ s with flag := Function.update s.flag k true }.set i
      { s.threads i with pc := .inside k op ((obj k).enter op), todo }) order settled where
  returned := by
    intro j
    rw [h.returned]
    rcases eq_or_ne j i with rfl | hij
    · simp [State.set]
    · simp [State.set, hij]
  sequence := h.sequence
  free := by
    intro k' hk'
    have hne : k' ≠ k := by
      rintro rfl
      simp [State.set] at hk'
    exact h.free k' (by simpa [State.set, hne] using hk')
  inside := by
    intro j k' op' l' hpc'
    rcases eq_or_ne j i with rfl | hij
    · have hself : Pc.inside k op ((obj k).enter op) = .inside k' op' l' := by
        simpa [State.set] using hpc'
      cases hself
      rw [← h.free k hflag]
      exact .refl ..
    · exact h.inside j k' op' l' (by simpa [State.set, hij] using hpc')

theorem Settled.work (h : Settled obj start s order settled)
    (hexclusive : Exclusive s.flag s.threads) {l' : Local k} {x : σ k}
    (hpc : (s.threads i).pc = .inside k op l)
    (hnext : (obj k).next l (s.shared k) = some (l', x)) :
    Settled obj start ({ s with shared := Function.update s.shared k x }.set i
      { s.threads i with pc := .inside k op l' }) order settled where
  returned := by
    intro j
    rw [h.returned]
    rcases eq_or_ne j i with rfl | hij
    · simp [State.set]
    · simp [State.set, hij]
  sequence := h.sequence
  free := by
    intro k' hk'
    have hne : k' ≠ k := by
      rintro rfl
      rw [State.set, hexclusive.held i k' ⟨op, l, hpc⟩] at hk'
      cases hk'
    change Function.update s.shared k x k' = settled k'
    rw [Function.update_of_ne hne]
    exact h.free k' hk'
  inside := by
    intro j k' op' l'' hpc'
    rcases eq_or_ne j i with rfl | hij
    · have hself : Pc.inside k op l' = .inside k' op' l'' := by
        simpa [State.set] using hpc'
      cases hself
      change Steps (obj k) ((obj k).enter op) (settled k) l' (Function.update s.shared k x k)
      rw [Function.update_self]
      exact (h.inside j k op l hpc).tail hnext
    · have hother : (s.threads j).pc = .inside k' op' l'' := by simpa [State.set, hij] using hpc'
      have hne : k' ≠ k := by
        rintro rfl
        exact hij (hexclusive.alone j i k' ⟨op', l'', hother⟩ ⟨op, l, hpc⟩)
      change Steps (obj k') ((obj k').enter op') (settled k') l''
        (Function.update s.shared k x k')
      rw [Function.update_of_ne hne]
      exact h.inside j k' op' l'' hother

theorem Settled.leave (h : Settled obj start s order settled)
    (hexclusive : Exclusive s.flag s.threads) (hpc : (s.threads i).pc = .inside k op l)
    (hnext : (obj k).next l (s.shared k) = none) :
    Settled obj start ({ s with flag := Function.update s.flag k false }.set i
      ((s.threads i).leave ⟨k, op, l⟩)) (order ++ [(i, ⟨k, op, l⟩)])
      (Function.update settled k (s.shared k)) where
  returned := by
    intro j
    rcases eq_or_ne j i with rfl | hij
    · rw [byThread_concat_self, h.returned]
      simp [State.set, Thread.leave]
    · rw [byThread_concat_of_ne hij, h.returned]
      simp [State.set, hij]
  sequence := by
    rw [List.map_append]
    exact h.sequence.concat ⟨h.inside i k op l hpc, hnext⟩
  free := by
    intro k' hk'
    change s.shared k' = Function.update settled k (s.shared k) k'
    rcases eq_or_ne k' k with rfl | hne
    · rw [Function.update_self]
    · rw [Function.update_of_ne hne]
      exact h.free k' (by simpa [State.set, hne] using hk')
  inside := by
    intro j k' op' l' hpc'
    rcases eq_or_ne j i with rfl | hij
    · simp [State.set, Thread.leave] at hpc'
    · have hother : (s.threads j).pc = .inside k' op' l' := by simpa [State.set, hij] using hpc'
      have hne : k' ≠ k := by
        rintro rfl
        exact hij (hexclusive.alone j i k' ⟨op', l', hother⟩ ⟨op, l, hpc⟩)
      rw [Function.update_of_ne hne]
      exact h.inside j k' op' l' hother

/-- A step ends an operation, or leaves the order as it is. -/
theorem Settled.step (h : Settled obj start s order settled)
    (hexclusive : Exclusive s.flag s.threads) (hstep : step obj s i = some t) :
    ∃ order' settled', Settled obj start t (order ++ order') settled' := by
  rcases step_cases hstep with rfl | ⟨k, op, todo, hpc, htodo, hflag, rfl⟩ |
    ⟨k, op, l, l', x, hpc, hnext, rfl⟩ | ⟨k, op, l, hpc, hnext, rfl⟩
  · refine ⟨[], settled, ?_⟩
    rwa [List.append_nil]
  · refine ⟨[], settled, ?_⟩
    rw [List.append_nil]
    exact h.enter hflag
  · refine ⟨[], settled, ?_⟩
    rw [List.append_nil]
    exact h.work hexclusive hpc hnext
  · exact ⟨_, _, h.leave hexclusive hpc hnext⟩

theorem exclusive_of_reachable (hs : Reachable (system obj start programs) s) :
    Exclusive s.flag s.threads := by
  refine hs.invariant (fun s => Exclusive s.flag s.threads) ?_ fun _ _ _ hstep h => h.step hstep
  constructor
  case held =>
    rintro i k ⟨op, l, hpc⟩
    cases hpc
  case owned =>
    intro k hk
    cases hk
  case alone =>
    rintro i j k ⟨op, l, hpc⟩
    cases hpc

theorem program_of_reachable (hs : Reachable (system obj start programs) s) (i : ι) :
    (s.threads i).program = programs i := by
  refine hs.invariant (fun s => (s.threads i).program = programs i) ?_ ?_
  · simp [system, Thread.program, Pc.current]
  · intro s a t hstep h
    rw [program_step hstep, h]

/-- Every run does its operations one after another, and what ends later comes later. -/
theorem exists_settled_of_run {as : List ι}
    (run : Run (system obj start programs) Unrestricted as s) :
    ∃ order settled, Settled obj start s order settled ∧ ∀ before, before <+: as →
      ∃ r front settled', exec (system obj start programs) (system obj start programs).init
        before = some r ∧ front <+: order ∧ Settled obj start r front settled' := by
  refine run.invariant (fun as s => ∃ order settled, Settled obj start s order settled ∧
    ∀ before, before <+: as → ∃ r front settled', exec (system obj start programs)
      (system obj start programs).init before = some r ∧ front <+: order ∧
        Settled obj start r front settled') ?_ ?_
  · have hstart : Settled obj start (system obj start programs).init [] start := by
      refine ⟨fun _ => rfl, .nil, fun _ _ => rfl, ?_⟩
      intro i k op l hpc
      cases hpc
    refine ⟨[], start, hstart, fun before hbefore => ?_⟩
    obtain rfl := List.prefix_nil.mp hbefore
    exact ⟨_, [], start, rfl, List.prefix_refl [], hstart⟩
  · rintro as s i t run - hstep ⟨order, settled, h, hfronts⟩
    obtain ⟨order', settled', h'⟩ := h.step (exclusive_of_reachable run.reachable) hstep
    refine ⟨_, _, h', fun before hbefore => ?_⟩
    rcases List.prefix_concat_iff.mp hbefore with rfl | hearlier
    · exact ⟨t, _, _, exec_append run.exec (exec_singleton hstep), List.prefix_refl _, h'⟩
    · obtain ⟨r, front, settled'', hexec, hfront, hr⟩ := hfronts before hearlier
      exact ⟨r, front, settled'', hexec, hfront.trans (List.prefix_append ..), hr⟩

theorem exists_settled (hs : Reachable (system obj start programs) s) :
    ∃ order settled, Settled obj start s order settled := by
  obtain ⟨as, run⟩ := hs
  obtain ⟨order, settled, h, -⟩ := exists_settled_of_run run
  exact ⟨order, settled, h⟩

end Order

section Progress

variable {obj} {start : ∀ k, σ k} {programs : ι → List (Sigma Op)} {s t : State ι σ Op Local}
  {i : ι} {order : List (ι × Done Op Local)}

/-- The thread has come to its end. -/
def Thread.finished (thread : Thread Op Local) : Prop :=
  thread.pc = .outside ∧ thread.todo = []

variable (obj) in
/-- The steps that are left of a section. -/
def Pc.left (shared : ∀ k, σ k) : Pc Op Local → Nat
  | .outside => 0
  | .inside k _ l => (obj k).cost l (shared k) + 1

variable [Fintype ι]

/-- The operations that have not been begun. -/
def waiting (s : State ι σ Op Local) : Nat :=
  ∑ i, (s.threads i).todo.length

variable (obj) in
def left (s : State ι σ Op Local) : Nat :=
  ∑ i, (s.threads i).pc.left obj s.shared

variable (obj) in
/-- An operation is begun, or a section goes on. -/
def Less (t s : State ι σ Op Local) : Prop :=
  Prod.Lex (· < ·) (· < ·) (waiting t, left obj t) (waiting s, left obj s)

omit [DecidableEq ι] [DecidableEq κ] in
theorem less_wellFounded : WellFounded (Less obj : State ι σ Op Local → _ → Prop) :=
  InvImage.wf _ (Prod.lex Nat.lt_wfRel Nat.lt_wfRel).wf

variable {k : κ} {op : Op k}

theorem less_lock {todo : List (Sigma Op)} (htodo : (s.threads i).todo = ⟨k, op⟩ :: todo)
    (hflag : s.flag k = false) : Less obj (lock obj s i k op todo) s := by
  apply Prod.Lex.left
  rw [lock, if_neg (by simp [hflag])]
  have hsum := sum_update_weight (fun thread : Thread Op Local => thread.todo.length) s.threads i
    { s.threads i with pc := .inside k op ((obj k).enter op), todo }
  simp only [htodo, List.length_cons] at hsum
  simp only [waiting, State.set]
  omega

/-- Only the thread itself looks at the object of its section. -/
theorem left_work {l : Local k} (h : Exclusive s.flag s.threads)
    (hpc : (s.threads i).pc = .inside k op l) : left obj (work obj s i k op l) < left obj s := by
  have hothers : ∀ x j, j ≠ i →
      (s.threads j).pc.left obj (Function.update s.shared k x) =
        (s.threads j).pc.left obj s.shared := by
    intro x j hij
    cases hj : (s.threads j).pc with
    | outside => rfl
    | inside k' op' l' =>
        have hne : k' ≠ k := by
          rintro rfl
          exact hij (h.alone j i k' ⟨op', l', hj⟩ ⟨op, l, hpc⟩)
        rw [Pc.left, Pc.left, Function.update_of_ne hne]
  rw [left, left]
  refine Finset.sum_lt_sum (fun j _ => ?_) ⟨i, Finset.mem_univ i, ?_⟩
  · rw [work]
    split
    case h_1 l' x hnext =>
      rcases eq_or_ne j i with rfl | hij
      · have hcost := (obj k).decreases _ _ _ _ hnext
        simp only [State.set, Function.update_self, Pc.left, hpc]
        omega
      · simp only [State.set, Function.update_of_ne hij]
        exact (hothers x j hij).le
    case h_2 hnext =>
      rcases eq_or_ne j i with rfl | hij
      · simp [State.set, Thread.leave, Pc.left]
      · simp [State.set, hij]
  · rw [work]
    split
    case h_1 l' x hnext =>
      have hcost := (obj k).decreases _ _ _ _ hnext
      simp only [State.set, Function.update_self, Pc.left, hpc]
      omega
    case h_2 hnext => simp [State.set, Thread.leave, Pc.left, hpc]

theorem waiting_work {l : Local k} : waiting (work obj s i k op l) = waiting s := by
  rw [waiting, waiting]
  refine Finset.sum_congr rfl fun j _ => ?_
  rcases eq_or_ne j i with rfl | hij
  · rw [work]
    split
    · simp [State.set]
    · simp [State.set, Thread.leave]
  · rw [work]
    split
    · simp [State.set, hij]
    · simp [State.set, hij]

theorem less_work {l : Local k} (h : Exclusive s.flag s.threads)
    (hpc : (s.threads i).pc = .inside k op l) : Less obj (work obj s i k op l) s := by
  rw [Less, waiting_work]
  exact Prod.Lex.right _ (left_work h hpc)

/-- A thread spins, or there is less to do. -/
theorem less_step (h : Exclusive s.flag s.threads) (hstep : step obj s i = some t) :
    t = s ∨ Less obj t s := by
  unfold step at hstep
  split at hstep
  case h_1 => cases hstep
  case h_2 k op todo hpc htodo =>
    obtain rfl := Option.some.inj hstep
    cases hflag : s.flag k with
    | true =>
        left
        rw [lock, if_pos hflag]
    | false => exact .inr (less_lock htodo hflag)
  case h_3 k op l hpc =>
    obtain rfl := Option.some.inj hstep
    exact .inr (less_work h hpc)

/-- Threads that do not spin come to an end. -/
theorem not_endless (run : Nat → State ι σ Op Local)
    (hexclusive : ∀ n, Exclusive (run n).flag (run n).threads)
    (hstep : ∀ n, ∃ i, step obj (run n) i = some (run (n + 1))) : ∃ n, run (n + 1) = run n := by
  by_contra hmoves
  have hless : ∀ n, Less obj (run (n + 1)) (run n) := by
    intro n
    obtain ⟨i, hi⟩ := hstep n
    exact (less_step (hexclusive n) hi).resolve_left fun hsame => hmoves ⟨n, hsame⟩
  have hwf : IsWellFounded (State ι σ Op Local) (Less obj) := ⟨less_wellFounded⟩
  obtain ⟨n, hn⟩ := WellFounded.not_rel_apply_succ (r := Less obj) run
  exact hn (hless n)

/-- Somebody can go on without spinning: who is in a section, or else anybody. -/
theorem exists_step (h : Exclusive s.flag s.threads) (hleft : ∃ i, ¬(s.threads i).finished) :
    ∃ i t, step obj s i = some t ∧ Less obj t s := by
  obtain ⟨i, hi⟩ := hleft
  cases hpc : (s.threads i).pc with
  | inside k op l => exact ⟨i, work obj s i k op l, by simp [step, hpc], less_work h hpc⟩
  | outside =>
      cases htodo : (s.threads i).todo with
      | nil => exact absurd ⟨hpc, htodo⟩ hi
      | cons next todo =>
          obtain ⟨k, op⟩ := next
          cases hflag : s.flag k with
          | false =>
              exact ⟨i, lock obj s i k op todo, by simp [step, hpc, htodo],
                less_lock htodo hflag⟩
          | true =>
              obtain ⟨j, op', l, hj⟩ := h.owned k hflag
              exact ⟨j, work obj s j k op' l, by simp [step, hj], less_work h hj⟩

/-- Every run can be brought to its end, and only finished threads end it. -/
theorem exists_exec_finished (h : Exclusive s.flag s.threads) :
    ∃ as t, exec (system obj start programs) s as = some t ∧ ∀ i, (t.threads i).finished := by
  have hwf : WellFounded (Less obj : State ι σ Op Local → _ → Prop) := less_wellFounded
  induction s using hwf.induction with
  | _ s ih =>
      by_cases hleft : ∃ i, ¬(s.threads i).finished
      · obtain ⟨i, t, hstep, hless⟩ := exists_step h hleft
        obtain ⟨as, u, hexec, hfinished⟩ := ih t hless (h.step hstep)
        exact ⟨i :: as, u, Option.bind_eq_some_iff.mpr ⟨t, hstep, hexec⟩, hfinished⟩
      · refine ⟨[], s, rfl, fun i => ?_⟩
        by_contra hi
        exact hleft ⟨i, hi⟩

end Progress

section Ends

variable {obj} {start : ∀ k, σ k} {programs : ι → List (Sigma Op)} {s : State ι σ Op Local}

/-- When all threads have ended, the objects are as some order of the operations leaves them that
keeps the order of each thread. -/
theorem exists_sequence (hs : Reachable (system obj start programs) s)
    (hfinished : ∀ i, (s.threads i).finished) :
    ∃ order, Sequence obj start (order.map Prod.snd) s.shared ∧
      ∀ i, (byThread i order).map Done.op = programs i := by
  obtain ⟨order, settled, h⟩ := exists_settled hs
  have hexclusive := exclusive_of_reachable hs
  have hall : settled = s.shared := by
    funext k
    refine (h.free k ?_).symm
    by_contra hflag
    obtain ⟨i, op, l, hpc⟩ := hexclusive.owned k (by simpa using hflag)
    cases (hfinished i).1.symm.trans hpc
  refine ⟨order, hall ▸ h.sequence, fun i => ?_⟩
  obtain ⟨hpc, htodo⟩ := hfinished i
  rw [h.returned, ← program_of_reachable hs i]
  simp [Thread.program, Pc.current, hpc, htodo]

omit [DecidableEq κ] in
theorem sum_byThread [Fintype ι] (order : List (ι × Done Op Local)) :
    ∑ i, (byThread i order : Multiset (Done Op Local)) = (order.map Prod.snd : List _) := by
  induction order with
  | nil => simp [byThread]
  | cons e order ih =>
      obtain ⟨j, done⟩ := e
      have hcons : ∀ i, (byThread i ((j, done) :: order) : Multiset (Done Op Local)) =
          (if j = i then {done} else 0) + (byThread i order : Multiset (Done Op Local)) := by
        intro i
        rcases eq_or_ne j i with rfl | hij
        · simp [byThread]
        · simp [byThread, hij]
      simp only [hcons]
      rw [Finset.sum_add_distrib, Finset.sum_ite_eq, if_pos (Finset.mem_univ j), ih]
      rfl

omit [DecidableEq κ] in
/-- The operations of the order are those of all the programs. -/
theorem perm_programs [Fintype ι] {order : List (ι × Done Op Local)}
    (h : ∀ i, (byThread i order).map Done.op = programs i) :
    (((order.map Prod.snd).map Done.op : List _) : Multiset (Sigma Op)) =
      ∑ i, (programs i : Multiset (Sigma Op)) := by
  rw [← Multiset.map_coe, ← sum_byThread, ← Multiset.coe_mapAddMonoidHom, map_sum]
  refine Finset.sum_congr rfl fun i _ => ?_
  rw [← h i, Multiset.coe_mapAddMonoidHom, Multiset.map_coe]

end Ends

end SkUtils.Library.CriticalSections
