import SkUtils.Containers.TopkLaw
import SkUtils.Library.CriticalSections

/-!
`push` and `pop` of `topk_queue`, called by several threads. Each call is a section under the
spin lock of the queue, done in steps; a read of the top of an empty queue breaks the queue.
-/

namespace SkUtils.Containers.TopkConcurrency

open SkUtils.Library.StrictWeakOrder
open SkUtils.Library.PriorityQueues
open SkUtils.Library.CriticalSections
open SkUtils.Library.TransitionSystem
open SkUtils.Containers.TopkQueues
open SkUtils.Containers.TopkLaw

universe u

variable {T : Type u} {comp : T → T → Bool}

section Code

/-- Where a call is in its section. -/
inductive CallPc (T : Type u)
  | size (val : T)
  | room (val : T)
  | compare (val : T)
  | replace (val : T)
  | shrink
  | isEmpty (ret : List T)
  | top (ret : List T)
  | remove (ret : List T)
  | done (ret : Option (List T))

/-- The next step of the call. -/
def next (std : PriorityQueue T (reversed_type comp)) (q : TopkQueue std) :
    CallPc T → Option (CallPc T × Option (TopkQueue std))
  | .size val => some (if std.size q.pq < q.cap then .room val else .compare val, some q)
  | .room val => some (.done none, some { q with pq := std.push q.pq val })
  | .compare val =>
      match std.top q.pq with
      | some top => some (if reversed_type comp val top then .replace val else .done none, some q)
      | none => some (.done none, none)
  | .replace val => some (.shrink, some { q with pq := std.push q.pq val })
  | .shrink => some (.done none, some { q with pq := std.pop q.pq })
  | .isEmpty ret =>
      some (if std.size q.pq = 0 then .done (some ret.reverse) else .top ret, some q)
  | .top ret =>
      match std.top q.pq with
      | some top => some (.remove (ret ++ [top]), some q)
      | none => some (.done none, none)
  | .remove ret => some (.isEmpty ret, some { q with pq := std.pop q.pq })
  | .done _ => none

/-- The steps that are left of a call. -/
def cost (std : PriorityQueue T (reversed_type comp)) : CallPc T → Option (TopkQueue std) → Nat
  | .size _, some _ => 4
  | .room _, some _ => 1
  | .compare _, some _ => 3
  | .replace _, some _ => 2
  | .shrink, some _ => 1
  | .isEmpty _, some q => 3 * std.size q.pq + 1
  | .top _, some q => 3 * std.size (std.pop q.pq) + 3
  | .remove _, some q => 3 * std.size (std.pop q.pq) + 2
  | .done _, _ => 0
  | _, none => 1

/-- A call that has found the queue broken does nothing more. -/
def nextOf (std : PriorityQueue T (reversed_type comp)) :
    CallPc T → Option (TopkQueue std) → Option (CallPc T × Option (TopkQueue std))
  | pc, some q => next std q pc
  | .done _, none => none
  | _, none => some (.done none, none)

def enter : Call T → CallPc T
  | .push val => .size val
  | .pop => .isEmpty []

theorem exists_top {std : PriorityQueue T (reversed_type comp)} {pq : std.Queue}
    (h : std.size pq ≠ 0) : ∃ top, std.top pq = some top := by
  apply std.exists_top
  rwa [std.size_eq, Ne, Multiset.card_eq_zero] at h

theorem size_pop {std : PriorityQueue T (reversed_type comp)} {pq : std.Queue}
    (h : std.size pq ≠ 0) : std.size (std.pop pq) + 1 = std.size pq := by
  obtain ⟨top, htop⟩ := exists_top h
  rw [std.size_eq, std.size_eq, std.contents_pop pq top htop, Multiset.card_cons]

theorem cost_next (std : PriorityQueue T (reversed_type comp)) (pc : CallPc T)
    (q : Option (TopkQueue std)) (pc' : CallPc T) (q' : Option (TopkQueue std))
    (h : nextOf std pc q = some (pc', q')) : cost std pc' q' < cost std pc q := by
  cases q with
  | none => cases pc <;> cases h <;> simp [cost]
  | some q =>
      cases pc with
      | size val =>
          cases h
          split <;> simp [cost]
      | room val =>
          cases h
          simp [cost]
      | compare val =>
          simp only [nextOf, next] at h
          split at h
          · cases h
            split <;> simp [cost]
          · cases h
            simp [cost]
      | replace val =>
          cases h
          simp [cost]
      | shrink =>
          cases h
          simp [cost]
      | isEmpty ret =>
          cases h
          split
          · simp [cost]
          case isFalse hsize =>
            have hpop := size_pop hsize
            simp only [cost]
            omega
      | top ret =>
          simp only [nextOf, next] at h
          split at h
          · cases h
            simp [cost]
          · cases h
            simp [cost]
      | remove ret =>
          cases h
          simp [cost]
      | done ret => cases h

/-- The spin lock of the queue is that of the sections. -/
def queue (std : PriorityQueue T (reversed_type comp)) :
    Object (Option (TopkQueue std)) (Call T) (CallPc T) where
  enter := enter
  next := nextOf std
  cost := cost std
  decreases := cost_next std

end Code

section Alone

variable {std : PriorityQueue T (reversed_type comp)} {q q' : TopkQueue std}

/-- A `push` that nobody disturbs is `TopkQueue.push`. -/
theorem does_push (q : TopkQueue std) (val : T) :
    Does (queue std) (.push val) (some q) (.done none) (q.push val) := by
  refine ⟨.head rfl ?_, by cases q.push val <;> rfl⟩
  rw [TopkQueue.push]
  split
  · exact .head rfl (.refl ..)
  · cases htop : std.top q.pq with
    | none =>
        refine .head (z := none) (m := .done none) ?_ (.refl ..)
        simp [queue, nextOf, next, htop]
    | some top =>
        change Steps _ _ _ _ (if reversed_type comp val top then
          some { q with pq := std.pop (std.push q.pq val) } else some q)
        cases hless : reversed_type comp val top with
        | true =>
            refine .head (z := some q) (m := .replace val) ?_ ?_
            · simp [queue, nextOf, next, htop, hless]
            · exact .head rfl (.head rfl (.refl ..))
        | false =>
            refine .head (z := some q) (m := .done none) ?_ ?_
            · simp [queue, nextOf, next, htop, hless]
            · exact .refl ..

theorem steps_empty {pq : std.Queue} (hsize : std.size pq = 0) (ret : List T) :
    Steps (queue std) (.isEmpty ret) (some { q with pq }) (.done (some ret.reverse))
      (some { q with pq }) := by
  refine .head (z := some { q with pq }) (m := .done (some ret.reverse)) ?_ (.refl ..)
  simp [queue, nextOf, next, hsize]

theorem steps_drain {fuel : Nat} {pq : std.Queue} {ret out : List T} {pq' : std.Queue}
    (h : TopkQueue.drain std fuel pq ret = some (out, pq')) :
    Steps (queue std) (.isEmpty ret) (some { q with pq }) (.done (some out.reverse))
      (some { q with pq := pq' }) := by
  induction fuel generalizing pq ret with
  | zero =>
      rw [TopkQueue.drain] at h
      split at h
      case isTrue hsize =>
        cases h
        exact steps_empty hsize out
      case isFalse => cases h
  | succ fuel ih =>
      rw [TopkQueue.drain] at h
      split at h
      case isTrue hsize =>
        cases h
        exact steps_empty hsize out
      case isFalse hsize =>
        obtain ⟨top, htop, hrest⟩ := Option.bind_eq_some_iff.mp h
        refine .head (z := some { q with pq }) (m := .top ret) ?_ ?_
        · simp [queue, nextOf, next, hsize]
        refine .head (z := some { q with pq }) (m := .remove (ret ++ [top])) ?_ ?_
        · simp [queue, nextOf, next, htop]
        exact .head rfl (ih hrest)

/-- A `pop` that nobody disturbs is `TopkQueue.pop`. -/
theorem does_pop {ret : List T} (h : q.pop = some (ret, q')) :
    Does (queue std) .pop (some q) (.done (some ret)) (some q') := by
  obtain ⟨⟨out, pq'⟩, hdrain, hret⟩ := Option.bind_eq_some_iff.mp h
  cases hret
  exact ⟨steps_drain hdrain, rfl⟩

end Alone

section Linearized

variable {std : PriorityQueue T (reversed_type comp)} {k : Nat}

/-- A call by one thread, with what it returns. -/
def invoke (q : TopkQueue std) : Call T → Option (Option (List T) × TopkQueue std)
  | .push val => (q.push val).map fun q' => (none, q')
  | .pop => q.pop.map fun (ret, q') => (some ret, q')

def replay (q : TopkQueue std) : List (Call T) → Option (List (Option (List T)) × TopkQueue std)
  | [] => some ([], q)
  | call :: calls => do
      let (ret, q) ← invoke q call
      let (rets, q) ← replay q calls
      return (ret :: rets, q)

theorem replay_concat {q q' q'' : TopkQueue std} {calls : List (Call T)}
    {rets : List (Option (List T))} {call : Call T} {ret : Option (List T)}
    (h : replay q calls = some (rets, q')) (hlast : invoke q' call = some (ret, q'')) :
    replay q (calls ++ [call]) = some (rets ++ [ret], q'') := by
  induction calls generalizing q rets with
  | nil =>
      cases h
      simp [replay, hlast]
  | cons first calls ih =>
      obtain ⟨⟨r, q₁⟩, hfirst, hrest⟩ := Option.bind_eq_some_iff.mp h
      obtain ⟨⟨rs, q₂⟩, hcalls, heq⟩ := Option.bind_eq_some_iff.mp hrest
      cases heq
      simp [replay, hfirst, ih hcalls]

/-- What a call has returned at its end. -/
def CallPc.result : CallPc T → Option (List T)
  | .done ret => ret
  | _ => none

variable [IsStrictWeakOrder T (RelOf (reversed_type comp))]

/-- A call that nobody disturbs never breaks a queue that keeps its values. -/
theorem does_of_keeps {q : TopkQueue std} {vs : List T} (h : Keeps q k vs) (hk : 1 ≤ k)
    (call : Call T) : ∃ ret q' vs', invoke q call = some (ret, q') ∧ Keeps q' k vs' ∧
      Does (queue std) call (some q) (.done ret) (some q') := by
  cases call with
  | push val =>
      obtain ⟨q', hpush, h'⟩ := h.push hk val
      refine ⟨none, q', _, ?_, h', ?_⟩
      · rw [invoke, hpush]
        rfl
      · rw [← hpush]
        exact does_push q val
  | pop =>
      obtain ⟨ret, q', hpop, -, h', -⟩ := h.pop
      refine ⟨some ret, q', _, ?_, h', does_pop hpop⟩
      rw [invoke, hpop]
      rfl

theorem exists_replay (hk : 1 ≤ k) {ops : List (Done (fun _ : Unit => Call T) fun _ => CallPc T)}
    {settled : Unit → Option (TopkQueue std)}
    (h : Sequence (fun _ => queue std) (fun _ => some (.ofCapacity std k)) ops settled) :
    ∃ q vs, settled () = some q ∧ Keeps q k vs ∧
      replay (.ofCapacity std k) (ops.map fun d => d.2.1) =
        some (ops.map fun d => d.2.2.result, q) := by
  induction h with
  | nil => exact ⟨_, [], rfl, keeps_empty rfl std.contents_empty, rfl⟩
  | concat before last ih =>
      rename_i ops settled _ op l y
      obtain ⟨q, vs, hq, hkeeps, hreplay⟩ := ih
      obtain ⟨ret, q', vs', hinvoke, hkeeps', hdoes⟩ := does_of_keeps hkeeps hk op
      rw [hq] at last
      obtain ⟨rfl, rfl⟩ := last.unique hdoes
      refine ⟨q', vs', Function.update_self .., hkeeps', ?_⟩
      rw [List.map_append, List.map_append]
      exact replay_concat hreplay hinvoke

omit [IsStrictWeakOrder T (RelOf (reversed_type comp))] in
theorem next_broken {pc pc' : CallPc T} {q : Option (TopkQueue std)}
    (h : (queue std).next pc none = some (pc', q)) : q = none := by
  change nextOf std pc none = _ at h
  cases pc <;> cases h <;> rfl

omit [IsStrictWeakOrder T (RelOf (reversed_type comp))] in
theorem steps_broken {pc pc' : CallPc T} {q q' : Option (TopkQueue std)}
    (h : Steps (queue std) pc q pc' q') (hq : q = none) : q' = none := by
  induction h with
  | refl => exact hq
  | tail before step ih =>
      rw [ih hq] at step
      exact next_broken step

end Linearized

section Threads

variable {n : Nat} (std : PriorityQueue T (reversed_type comp)) (k : Nat)

/-- Threads that each make their calls on one queue. -/
def callers (programs : Fin n → List (Call T)) :
    System (State (Fin n) (fun _ : Unit => Option (TopkQueue std)) (fun _ => Call T)
      fun _ => CallPc T) (Fin n) :=
  system (fun _ => queue std) (fun _ => some (.ofCapacity std k))
    fun i => (programs i).map fun call => ⟨(), call⟩

/-- The calls of the thread that have ended, with what they have returned. -/
def returns (thread : Thread (fun _ : Unit => Call T) fun _ => CallPc T) :
    List (Call T × Option (List T)) :=
  thread.returned.map fun d => (d.2.1, d.2.2.result)

variable {std k} {programs : Fin n → List (Call T)}
  {s : State (Fin n) (fun _ : Unit => Option (TopkQueue std)) (fun _ => Call T)
    fun _ => CallPc T}

theorem returns_append (hs : Reachable (callers std k programs) s) (i : Fin n) :
    (returns (s.threads i)).map Prod.fst ++
      ((s.threads i).pc.current ++ (s.threads i).todo).map Sigma.snd = programs i := by
  have hprogram := congrArg (List.map Sigma.snd) (program_of_reachable hs i)
  rw [Thread.program, List.append_assoc, List.map_append, List.map_map, List.map_map] at hprogram
  rw [returns, List.map_map]
  simpa [Function.comp_def, Done.op] using hprogram

variable [IsStrictWeakOrder T (RelOf (reversed_type comp))]

theorem not_broken (hk : 1 ≤ k) (hs : Reachable (callers std k programs) s) :
    s.shared () ≠ none := by
  obtain ⟨order, settled, h⟩ := exists_settled hs
  obtain ⟨q, vs, hq, hkeeps, -⟩ := exists_replay hk h.sequence
  intro hbroken
  cases hflag : s.flag () with
  | false =>
      rw [h.free () hflag, hq] at hbroken
      cases hbroken
  | true =>
      obtain ⟨i, op, l, hpc⟩ := (exclusive_of_reachable hs).owned () hflag
      have hsteps := h.inside i () op l hpc
      rw [hq] at hsteps
      obtain ⟨ret, q', vs', -, -, hdoes⟩ := does_of_keeps hkeeps hk op
      cases steps_broken (hsteps.completes hdoes.1 hdoes.2) hbroken

omit [IsStrictWeakOrder T (RelOf (reversed_type comp))] in
theorem returns_of_finished (hs : Reachable (callers std k programs) s) (i : Fin n)
    (h : (s.threads i).finished) : (returns (s.threads i)).map Prod.fst = programs i := by
  have hall := returns_append hs i
  rw [h.1, h.2] at hall
  simpa [Pc.current] using hall

omit [IsStrictWeakOrder T (RelOf (reversed_type comp))] in
variable (std k) in
/-- The calls that have ended return what they return one after another in the order, which
keeps the order of each thread. -/
structure Linearizes (s : State (Fin n) (fun _ : Unit => Option (TopkQueue std))
    (fun _ => Call T) fun _ => CallPc T)
    (order : List (Fin n × Call T × Option (List T))) : Prop where
  replayed : ∃ q, replay (.ofCapacity std k) (order.map fun e => e.2.1) =
    some (order.map fun e => e.2.2, q) ∧ (s.flag () = false → s.shared () = some q)
  returned : ∀ i, (order.filter fun e => e.1 = i).map Prod.snd = returns (s.threads i)

def entry (e : Fin n × Done (fun _ : Unit => Call T) fun _ => CallPc T) :
    Fin n × Call T × Option (List T) :=
  (e.1, e.2.2.1, e.2.2.2.result)

theorem linearizes_of_settled (hk : 1 ≤ k)
    {order : List (Fin n × Done (fun _ : Unit => Call T) fun _ => CallPc T)}
    {settled : Unit → Option (TopkQueue std)}
    (h : Settled (fun _ => queue std) (fun _ => some (.ofCapacity std k)) s order settled) :
    Linearizes std k s (order.map entry) := by
  obtain ⟨q, vs, hq, -, hreplay⟩ := exists_replay hk h.sequence
  constructor
  case replayed =>
    refine ⟨q, ?_, fun hflag => (h.free () hflag).trans hq⟩
    simpa [Function.comp_def, entry] using hreplay
  case returned =>
    intro i
    rw [returns, ← h.returned i, byThread, List.filter_map, List.map_map, List.map_map]
    rfl

/-- Whatever the interleaving, the calls return what they return one after another, in an order
whose fronts are those of the fronts of the run, so that a call that has ended before another
begins comes before it. Nobody reads the top of an empty queue, and all calls can be brought to
their end. -/
theorem calls_linearizable (hk : 1 ≤ k) (programs : Fin n → List (Call T)) (as s)
    (run : Run (callers std k programs) Unrestricted as s) :
    (∃ order, Linearizes std k s order ∧ ∀ before, before <+: as → ∃ r front,
      exec (callers std k programs) (callers std k programs).init before = some r ∧
        front <+: order ∧ Linearizes std k r front) ∧
    (∀ i, (returns (s.threads i)).map Prod.fst <+: programs i) ∧
    s.shared () ≠ none ∧
    ∃ as t, exec (callers std k programs) s as = some t ∧
      ∀ i, (t.threads i).finished ∧ (returns (t.threads i)).map Prod.fst = programs i := by
  have hs : Reachable (callers std k programs) s := run.reachable
  refine ⟨?_, fun i => ⟨_, returns_append hs i⟩, not_broken hk hs, ?_⟩
  · obtain ⟨order, settled, h, hfronts⟩ := exists_settled_of_run run
    refine ⟨order.map entry, linearizes_of_settled hk h, fun before hbefore => ?_⟩
    obtain ⟨r, front, settled', hexec, hfront, hr⟩ := hfronts before hbefore
    exact ⟨r, front.map entry, hexec, hfront.map entry, linearizes_of_settled hk hr⟩
  · have hexclusive := exclusive_of_reachable hs
    obtain ⟨as, t, hexec, hfinished⟩ : ∃ as t, exec (callers std k programs) s as = some t ∧
        ∀ i, (t.threads i).finished := exists_exec_finished hexclusive
    exact ⟨as, t, hexec, fun i =>
      ⟨hfinished i, returns_of_finished (hs.exec hexec) i (hfinished i)⟩⟩

/-- A `push` and a `pop` by two threads. -/
def pushAndPop (i : Fin 2) : List (Call Nat) :=
  if i.val = 0 then [.push 3] else [.pop]

theorem calls_linearizable_pushAndPop :
    ∃ as t, Run (callers (sortedListQueue (reversed_type (less : Nat → _))) 1 pushAndPop)
        Unrestricted as t ∧ (∃ order, Linearizes _ 1 t order) ∧ t.shared () ≠ none ∧
      ∀ i, (returns (t.threads i)).map Prod.fst = pushAndPop i := by
  obtain ⟨-, -, -, as, t, hexec, hends⟩ := calls_linearizable (by decide) pushAndPop [] _
    (.start : Run (callers (sortedListQueue (reversed_type less)) 1 pushAndPop) Unrestricted _ _)
  have run := run_of_exec hexec
  obtain ⟨⟨order, horder, -⟩, -, hshared, -⟩ := calls_linearizable (by decide) pushAndPop _ t run
  exact ⟨as, t, run, ⟨order, horder⟩, hshared, fun i => (hends i).2⟩

end Threads

theorem largest_of_perm {below : T → T → Prop} {k : Nat} {vs vs' ret : List T}
    (h : Largest below k vs ret) (hperm : vs.Perm vs') : Largest below k vs' ret where
  length := by
    rw [h.length, hperm.length_eq]
  descending := h.descending
  rest := by
    obtain ⟨left, hleft, hbelow⟩ := h.rest
    exact ⟨left, hperm.symm.trans hleft, hbelow⟩

section Sides

/-! `push` of `topbottomk_queue` is a call on the one queue and then a call on the other. -/

inductive Side
  | max
  | min
deriving DecidableEq

variable {n : Nat} (maxStd : PriorityQueue T (reversed_type comp))
  (minStd : PriorityQueue T (reversed_type (reversed_type comp))) (k : Nat)

def Queue : Side → Type u
  | .max => Option (TopkQueue maxStd)
  | .min => Option (TopkQueue minStd)

def sides : ∀ side, Object (Queue maxStd minStd side) (Call T) (CallPc T)
  | .max => queue maxStd
  | .min => queue minStd

def start : ∀ side, Queue maxStd minStd side
  | .max => some (.ofCapacity maxStd k)
  | .min => some (.ofCapacity minStd k)

def push (val : T) : List (Sigma fun _ : Side => Call T) :=
  [⟨.max, .push val⟩, ⟨.min, .push val⟩]

/-- Threads that each push their values. -/
def pushers (vals : Fin n → List T) :
    System (State (Fin n) (Queue maxStd minStd) (fun _ => Call T) fun _ => CallPc T) (Fin n) :=
  system (sides maxStd minStd) (start maxStd minStd k) fun i => (vals i).flatMap push

/-- The value that the operation pushes onto the queue of the side. -/
def pushed (side : Side) : (Sigma fun _ : Side => Call T) → Option T
  | ⟨side', .push val⟩ => if side' = side then some val else none
  | ⟨_, .pop⟩ => none

variable {maxStd minStd k} [IsStrictWeakOrder T (RelOf comp)]

omit [IsStrictWeakOrder T (RelOf comp)] in
theorem keeps_of_does {cmp : T → T → Bool} [IsStrictWeakOrder T (RelOf (reversed_type cmp))]
    {std : PriorityQueue T (reversed_type cmp)} {q : TopkQueue std} {vs : List T}
    (h : Keeps q k vs) (hk : 1 ≤ k) {val : T} {pc : CallPc T} {q' : Option (TopkQueue std)}
    (hdoes : Does (queue std) (.push val) (some q) pc q') :
    ∃ q'', q' = some q'' ∧ Keeps q'' k (vs ++ [val]) := by
  obtain ⟨q'', hpush, h'⟩ := h.push hk val
  obtain ⟨-, rfl⟩ := hdoes.unique (does_push q val)
  exact ⟨q'', hpush, h'⟩

/-- Both queues keep the values that have been pushed onto them. -/
theorem exists_keeps (hk : 1 ≤ k) {ops : List (Done (fun _ : Side => Call T) fun _ => CallPc T)}
    {settled : ∀ side, Queue maxStd minStd side}
    (h : Sequence (sides maxStd minStd) (start maxStd minStd k) ops settled)
    (hpushes : ∀ d ∈ ops, ∃ val, d.2.1 = .push val) :
    (∃ q, settled .max = some q ∧ Keeps q k ((ops.map Done.op).filterMap (pushed .max))) ∧
    ∃ q, settled .min = some q ∧ Keeps q k ((ops.map Done.op).filterMap (pushed .min)) := by
  induction h with
  | nil =>
      exact ⟨⟨_, rfl, keeps_empty rfl maxStd.contents_empty⟩,
        _, rfl, keeps_empty rfl minStd.contents_empty⟩
  | concat before last ih =>
      rename_i ops settled side op l y
      obtain ⟨hbefore, hlast⟩ := List.forall_mem_append.mp hpushes
      obtain ⟨val, rfl⟩ := hlast _ (List.mem_singleton.mpr rfl)
      obtain ⟨⟨max, hmax, hkeepsmax⟩, min, hmin, hkeepsmin⟩ := ih hbefore
      rw [List.map_append, List.filterMap_append, List.filterMap_append]
      cases side with
      | max =>
          rw [hmax] at last
          obtain ⟨q, rfl, hq⟩ := keeps_of_does hkeepsmax hk last
          refine ⟨⟨q, Function.update_self .., hq⟩,
            min, (Function.update_of_ne (by decide) ..).trans hmin, ?_⟩
          simpa [pushed, Done.op] using hkeepsmin
      | min =>
          rw [hmin] at last
          obtain ⟨q, rfl, hq⟩ := keeps_of_does hkeepsmin hk last
          refine ⟨⟨max, (Function.update_of_ne (by decide) ..).trans hmax, ?_⟩,
            q, Function.update_self .., hq⟩
          simpa [pushed, Done.op] using hkeepsmax

omit [IsStrictWeakOrder T (RelOf comp)] in
theorem filterMap_push (side : Side) (vals : List T) :
    (vals.flatMap push).filterMap (pushed side) = vals := by
  induction vals with
  | nil => rfl
  | cons val vals ih =>
      rw [List.flatMap_cons, List.filterMap_append, ih]
      cases side <;> rfl

omit [IsStrictWeakOrder T (RelOf comp)] in
/-- The values pushed in the order are those of all the threads. -/
theorem perm_pushed {vals : Fin n → List T} {all : List T}
    {order : List (Fin n × Done (fun _ : Side => Call T) fun _ => CallPc T)}
    (hall : (all : Multiset T) = ∑ i, (vals i : Multiset T))
    (h : ∀ i, (byThread i order).map Done.op = (vals i).flatMap push) (side : Side) :
    (((order.map Prod.snd).map Done.op).filterMap (pushed side)).Perm all := by
  have hops := congrArg (Multiset.filterMap (pushed side)) (perm_programs h)
  have hsum : ∀ threads : Finset (Fin n),
      Multiset.filterMap (pushed side) (∑ i ∈ threads,
        ((vals i).flatMap push : Multiset (Sigma fun _ : Side => Call T))) =
      ∑ i ∈ threads, (vals i : Multiset T) := by
    intro threads
    induction threads using Finset.cons_induction with
    | empty => rfl
    | cons i threads hi ih =>
        rw [Finset.sum_cons, Finset.sum_cons, Multiset.filterMap_add, ih, Multiset.filterMap_coe,
          filterMap_push]
  rw [hsum, ← hall, Multiset.filterMap_coe] at hops
  exact Multiset.coe_eq_coe.mp hops

/-- After any interleaving of the pushes, `pop_top` returns the largest of all the values and
`pop_bottom` the smallest; and threads come to their end that do not spin for ever. -/
theorem pushes_kept (hk : 1 ≤ k) (vals : Fin n → List T) (s)
    (hs : Reachable (pushers maxStd minStd k vals) s) :
    (∃ as t, exec (pushers maxStd minStd k vals) s as = some t ∧ ∀ i, (t.threads i).finished) ∧
    (∀ run : Nat → State (Fin n) (Queue maxStd minStd) (fun _ => Call T) fun _ => CallPc T,
      run 0 = s → (∀ m, ∃ i, (pushers maxStd minStd k vals).step (run m) i = some (run (m + 1))) →
      ∃ m, run (m + 1) = run m) ∧
    ((∀ i, (s.threads i).finished) → ∀ all : List T,
      (all : Multiset T) = ∑ i, (vals i : Multiset T) →
      ∃ (max : TopkQueue maxStd) (min : TopkQueue minStd),
        s.shared .max = some max ∧ s.shared .min = some min ∧
        (∃ ret q, (TopbottomkQueue.mk max min).pop_top = some (ret, q) ∧
          Largest (RelOf comp) k all ret) ∧
        ∃ ret q, (TopbottomkQueue.mk max min).pop_bottom = some (ret, q) ∧
          Largest (fun a b => RelOf comp b a) k all ret) := by
  refine ⟨exists_exec_finished (exclusive_of_reachable hs), ?_, ?_⟩
  · rintro run rfl hstep
    have hreachable : ∀ m, Reachable (pushers maxStd minStd k vals) (run m) := by
      intro m
      induction m with
      | zero => exact hs
      | succ m ih =>
          obtain ⟨i, hi⟩ := hstep m
          exact ih.step hi
    exact not_endless run (fun m => exclusive_of_reachable (hreachable m)) hstep
  · intro hfinished all hall
    obtain ⟨order, hsequence, hprograms⟩ := exists_sequence hs hfinished
    have hpushes : ∀ d ∈ order.map Prod.snd, ∃ val, d.2.1 = .push val := by
      intro d hd
      obtain ⟨⟨i, d⟩, he, rfl⟩ := List.mem_map.mp hd
      have hmem : Done.op d ∈ (vals i).flatMap push := by
        rw [← hprograms i]
        refine List.mem_map_of_mem (List.mem_map.mpr ⟨(i, d), ?_, rfl⟩)
        exact List.mem_filter.mpr ⟨he, by simp⟩
      obtain ⟨val, -, hval⟩ := List.mem_flatMap.mp hmem
      obtain ⟨side, op, l⟩ := d
      refine ⟨val, ?_⟩
      simp only [push, List.mem_cons, List.not_mem_nil, or_false] at hval
      rcases hval with hval | hval <;> cases hval <;> rfl
    obtain ⟨⟨max, hmax, hkeepsmax⟩, min, hmin, hkeepsmin⟩ :=
      exists_keeps hk hsequence hpushes
    obtain ⟨top, m, htop, hlargest, -⟩ := hkeepsmax.pop
    obtain ⟨bottom, m', hbottom, hsmallest, -⟩ := hkeepsmin.pop
    refine ⟨max, min, hmax, hmin, ⟨top, ⟨m, min⟩, ?_, ?_⟩, bottom, ⟨max, m'⟩, ?_, ?_⟩
    · simp [TopbottomkQueue.pop_top, htop]
    · rw [← below_eq comp]
      exact largest_of_perm hlargest (perm_pushed hall hprograms .max)
    · simp [TopbottomkQueue.pop_bottom, hbottom]
    · rw [← above_eq comp]
      exact largest_of_perm hsmallest (perm_pushed hall hprograms .min)

/-- Two threads with three values. -/
def three (i : Fin 2) : List Nat :=
  if i.val = 0 then [3, 1] else [2]

theorem pushes_kept_three :
    ∃ t, Reachable (pushers (sortedListQueue (reversed_type (less : Nat → _)))
        (sortedListQueue (reversed_type (reversed_type less))) 2 three) t ∧
      ∃ max ret q, t.shared .max = some max ∧ max.pop = some (ret, q) ∧
        Largest (RelOf less) 2 [3, 1, 2] ret := by
  obtain ⟨⟨as, t, hexec, hfinished⟩, -⟩ := pushes_kept (by decide) three _
    (⟨[], .start⟩ : Reachable (pushers (sortedListQueue (reversed_type less))
      (sortedListQueue (reversed_type (reversed_type less))) 2 three) _)
  have ht := reachable_of_exec hexec
  obtain ⟨max, min, hmax, -, ⟨ret, q, hpop, hlargest⟩, -⟩ :=
    (pushes_kept (by decide) three t ht).2.2 hfinished [3, 1, 2] (by decide)
  obtain ⟨⟨ret', q'⟩, hpop', heq⟩ := Option.bind_eq_some_iff.mp hpop
  cases heq
  exact ⟨t, ht, max, ret, q', hmax, hpop', hlargest⟩

end Sides

end SkUtils.Containers.TopkConcurrency
