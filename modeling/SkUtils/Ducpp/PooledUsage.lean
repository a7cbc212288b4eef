import SkUtils.Concurrency.PoolFutures
import SkUtils.Concurrency.ThreadPoolShutdown
import SkUtils.Ducpp.DiskUsage

/-!
`du_pool` of `ducpp.cpp` over the steps of its `ThreadPool`: for every entry of a directory it
submits a `du` and then adds up what the futures give. It returns behind `~ThreadPool`, whether
its body ended with a value or with an exception.
-/

namespace SkUtils.Ducpp.PooledUsage

open SkUtils.Library.CheckedLoop
open SkUtils.Library.TransitionSystem
open SkUtils.Concurrency
open SkUtils.Concurrency.PoolFutures hiding State Move step callerStep move_of_step
open SkUtils.Concurrency.ThreadPool (WorkerPc LockHeld pool)
open SkUtils.Concurrency.ThreadPoolShutdown
open SkUtils.Concurrency.ThreadPoolWakeup hiding Heard
open SkUtils.Ducpp.DiskUsage

variable {ι : Type} {n : Nat}

/-- What a call of `du` ends with. -/
abbrev Result := Except Failure Nat

/-- `none` for a task that does not return. -/
def taskResult (fs : FileSystem ι) (fuel : Nat) (e : Entry ι) : Option Result :=
  match du fs fuel e with
  | .error .endless => none
  | result => some result

/-- A task reads the file system only. Its result goes to its future. -/
def perform (fs : FileSystem ι) (fuel : Nat) (values : List (Option Result))
    (task : Nat × Entry ι) : Option (List (Option Result)) :=
  (taskResult fs fuel task.2).map fun result => values.set task.1 (some result)

/-- The paths for which a `du` is submitted. -/
def submitted (fs : FileSystem ι) (path : Entry ι) : List (Entry ι) :=
  match path.target.map fs.node with
  | some (.directory entries) => entries.map path.below
  | _ => []

/-- What `du_pool` ends with if it submits nothing; `none` at a directory. -/
def checked (fs : FileSystem ι) (path : Entry ι) : Option Result :=
  if fs.exceeds path then some (throw .tooManyLinks)
  else
    match path.target.map fs.node with
    | none => some (return 0)
    | some (.directory _) => none
    | some (.file size) => some (return add 0 size)

/-- `outcome` is what the body of `du_pool` has ended with, by a value or by an exception. From
then on its thread runs `~ThreadPool`. -/
structure State (n : Nat) (ι : Type) where
  client : PoolFutures.State n (List (Option Result)) (Nat × Entry ι)
  sz : Nat
  outcome : Option Result

section Code

/-- `fu.get()` waits until the future is ready; it throws what the task has thrown. -/
def getStep (s : State n ι) (i : Nat) : Option (State n ι) :=
  if i < s.client.bodies.length then
    if i ∈ s.client.ready then
      match s.client.shared[i]?.join with
      | some (.ok size) =>
          some { s with client := { s.client with caller := .get (i + 1) }, sz := add s.sz size }
      | some (.error e) => some { s with outcome := some (throw e) }
      | none => none
    else none
  else some { s with outcome := some (return s.sz) }

def callerStep (s : State n ι) (woken : Option (Fin n)) : Option (State n ι) :=
  match s.outcome with
  | some _ =>
      (ThreadPool.step s.client.pool .shutdown).map fun pool =>
        { s with client := { s.client with pool } }
  | none =>
      match s.client.caller with
      | .get i => getStep s i
      | _ => (PoolFutures.callerStep s.client woken).map fun client => { s with client }

variable (fs : FileSystem ι) (fuel : Nat)

def step (s : State n ι) : Action n → Option (State n ι)
  | .caller woken => callerStep s woken
  | .work w => (PoolFutures.step (perform fs fuel) s.client (.work w)).map ({ s with client := · })
  | .spurious w =>
      (PoolFutures.step (perform fs fuel) s.client (.spurious w)).map ({ s with client := · })

/-- The pool and the tasks of `du_pool`. -/
def tasks (n : Nat) (path : Entry ι) :
    System (PoolFutures.State n (List (Option Result)) (Nat × Entry ι)) (Action n) :=
  PoolFutures.client (perform fs fuel) n (List.replicate (submitted fs path).length none)
    ((submitted fs path).mapIdx fun i e => [(i, e)])

/-- `du_pool` with a pool of `n` workers, whose tasks go at most `fuel` levels deep. -/
def du_pool (n : Nat) (path : Entry ι) : System (State n ι) (Action n) where
  init := { client := (tasks fs fuel n path).init, sz := 0, outcome := checked fs path }
  step := step fs fuel

end Code

/-- `du_pool` has returned, or thrown. -/
def State.returned (s : State n ι) : Option Result :=
  if s.client.pool.shutdown = .join n then s.outcome else none

section Moves

variable {fs : FileSystem ι} {fuel : Nat} {s t : State n ι}

/-- What a step does. -/
inductive Move (fs : FileSystem ι) (fuel : Nat) (s : State n ι) : Action n → State n ι → Prop
  | submit {woken : Option (Fin n)}
      {client : PoolFutures.State n (List (Option Result)) (Nat × Entry ι)}
      (running : s.outcome = none) (pc : ∀ i, s.client.caller ≠ .get i)
      (hstep : PoolFutures.step (perform fs fuel) s.client (.caller woken) = some client) :
      Move fs fuel s (.caller woken) { s with client }
  | get {i size : Nat} {woken : Option (Fin n)} (running : s.outcome = none)
      (pc : s.client.caller = .get i) (hi : i < s.client.bodies.length)
      (ready : i ∈ s.client.ready) (value : s.client.shared[i]?.join = some (.ok size)) :
      Move fs fuel s (.caller woken)
        { s with client := { s.client with caller := .get (i + 1) }, sz := add s.sz size }
  | failed {i : Nat} {e : Failure} {woken : Option (Fin n)} (running : s.outcome = none)
      (pc : s.client.caller = .get i) (hi : i < s.client.bodies.length)
      (ready : i ∈ s.client.ready) (value : s.client.shared[i]?.join = some (.error e)) :
      Move fs fuel s (.caller woken) { s with outcome := some (.error e) }
  | summed {i : Nat} {woken : Option (Fin n)} (running : s.outcome = none)
      (pc : s.client.caller = .get i) (hi : s.client.bodies.length ≤ i) :
      Move fs fuel s (.caller woken) { s with outcome := some (.ok s.sz) }
  | shutdown {woken : Option (Fin n)} {pool : ThreadPool.State n Nat} (ended : s.outcome ≠ none)
      (hpool : ThreadPool.step s.client.pool .shutdown = some pool) :
      Move fs fuel s (.caller woken) { s with client := { s.client with pool } }
  | work {a : Action n} {client : PoolFutures.State n (List (Option Result)) (Nat × Entry ι)}
      (other : ∀ woken, a ≠ .caller woken)
      (hstep : PoolFutures.step (perform fs fuel) s.client a = some client) :
      Move fs fuel s a { s with client }

theorem getStep_cases {i : Nat} {woken : Option (Fin n)} (running : s.outcome = none)
    (pc : s.client.caller = .get i) (h : getStep s i = some t) :
    Move fs fuel s (.caller woken) t := by
  unfold getStep at h
  split at h
  case isTrue hi =>
    obtain ⟨ready, h⟩ := Option.ite_none_right_eq_some.mp h
    split at h
    case h_1 size value =>
      obtain rfl := Option.some.inj h
      exact .get running pc hi ready value
    case h_2 e value =>
      obtain rfl := Option.some.inj h
      exact .failed running pc hi ready value
    case h_3 => cases h
  case isFalse hi =>
    obtain rfl := Option.some.inj h
    exact .summed running pc (Nat.not_lt.mp hi)

theorem move_of_step {a : Action n} (h : step fs fuel s a = some t) : Move fs fuel s a t := by
  cases a with
  | caller woken =>
      rw [step, callerStep] at h
      split at h
      case h_1 outcome houtcome =>
        obtain ⟨pool, hpool, rfl⟩ := Option.map_eq_some_iff.mp h
        exact .shutdown (by rw [houtcome]; exact nofun) hpool
      case h_2 running =>
        split at h
        case h_1 i pc => exact getStep_cases running pc h
        case h_2 pc =>
          obtain ⟨client, hclient, rfl⟩ := Option.map_eq_some_iff.mp h
          exact .submit running pc hclient
  | work w =>
      obtain ⟨client, hclient, rfl⟩ := Option.map_eq_some_iff.mp h
      exact .work nofun hclient
  | spurious w =>
      obtain ⟨client, hclient, rfl⟩ := Option.map_eq_some_iff.mp h
      exact .work nofun hclient

end Moves

section Results

variable {fs : FileSystem ι} {fuel : Nat} {path : Entry ι}

/-- A round of the loop of `du`. -/
def addTask (fs : FileSystem ι) (fuel : Nat) (sz : Nat) (e : Entry ι) : Result := do
  return add sz (← du fs fuel e)

/-- What the loop of `du` has added up in front of the entry `i`. -/
def sumTo (fs : FileSystem ι) (fuel : Nat) (path : Entry ι) (i : Nat) : Result :=
  ((submitted fs path).take i).foldlM (addTask fs fuel) 0

theorem du_of_taskResult {e : Entry ι} {result : Result}
    (h : taskResult fs fuel e = some result) : du fs fuel e = result := by
  unfold taskResult at h
  split at h
  · cases h
  · exact Option.some.inj h

theorem taskResult_of_du {e : Entry ι} {size : Nat} (h : du fs fuel e = .ok size) :
    taskResult fs fuel e = some (.ok size) := by
  rw [taskResult, h]

theorem checked_eq_some {result : Result} (h : checked fs path = some result) :
    du fs (fuel + 1) path = result := by
  rw [checked] at h
  rw [du]
  by_cases hlinks : fs.exceeds path = true
  · rw [if_pos hlinks] at h ⊢
    exact Option.some.inj h
  · rw [if_neg hlinks] at h ⊢
    rcases hnode : path.target.map fs.node with _ | size | entries
    all_goals simp only [hnode] at h ⊢
    · exact Option.some.inj h
    · exact Option.some.inj h
    · cases h

theorem exists_directory (h : checked fs path = none) :
    fs.exceeds path = false ∧ ∃ entries, path.target.map fs.node = some (.directory entries) := by
  rw [checked] at h
  by_cases hlinks : fs.exceeds path = true
  · rw [if_pos hlinks] at h
    cases h
  · rw [if_neg hlinks] at h
    split at h
    case h_1 => cases h
    case h_2 entries hnode => exact ⟨by simpa using hlinks, entries, hnode⟩
    case h_3 => cases h

theorem du_of_checked (h : checked fs path = none) :
    du fs (fuel + 1) path = (submitted fs path).foldlM (addTask fs fuel) 0 := by
  obtain ⟨hlinks, entries, hnode⟩ := exists_directory h
  rw [du, hlinks, submitted, hnode]
  simp only [Bool.false_eq_true, if_false, List.foldlM_map]
  rfl

theorem sumTo_succ {i sz : Nat} {e : Entry ι} (hsum : sumTo fs fuel path i = .ok sz)
    (he : (submitted fs path)[i]? = some e) :
    sumTo fs fuel path (i + 1) = addTask fs fuel sz e := by
  obtain ⟨hi, rfl⟩ := List.getElem?_eq_some_iff.mp he
  rw [sumTo, ← List.take_concat_get' _ i hi, List.foldlM_append, ← sumTo, hsum, ok_bind]
  exact bind_pure _

theorem du_of_failed {i sz : Nat} {e : Entry ι} {error : Failure} (h : checked fs path = none)
    (hsum : sumTo fs fuel path i = .ok sz) (he : (submitted fs path)[i]? = some e)
    (herror : du fs fuel e = .error error) : du fs (fuel + 1) path = .error error := by
  have hround : sumTo fs fuel path (i + 1) = .error error := by
    rw [sumTo_succ hsum he, addTask, herror]
    rfl
  rw [du_of_checked h, ← List.take_append_drop (i + 1) (submitted fs path), List.foldlM_append,
    ← sumTo, hround, error_bind]

theorem du_of_sumTo {i sz : Nat} (h : checked fs path = none)
    (hi : (submitted fs path).length ≤ i) (hsum : sumTo fs fuel path i = .ok sz) :
    du fs (fuel + 1) path = .ok sz := by
  rw [sumTo, List.take_of_length_le hi] at hsum
  rw [du_of_checked h, hsum]

end Results

section Invariant

variable {fs : FileSystem ι} {fuel : Nat} {path : Entry ι} {s t : State n ι}
  {client client' : PoolFutures.State n (List (Option Result)) (Nat × Entry ι)}

/-- The task of `e` has yet to run, or its result is in its future. -/
inductive TaskAt (fs : FileSystem ι) (fuel i : Nat) (e : Entry ι) :
    List (Nat × Entry ι) → Option Result → Prop
  | waiting : TaskAt fs fuel i e [(i, e)] none
  | done {result : Result} (hresult : taskResult fs fuel e = some result) :
      TaskAt fs fuel i e [] (some result)

/-- There is one task for every entry. -/
structure Filed (fs : FileSystem ι) (fuel : Nat) (path : Entry ι)
    (client : PoolFutures.State n (List (Option Result)) (Nat × Entry ι)) : Prop where
  length : client.bodies.length = (submitted fs path).length
  task : ∀ i e, (submitted fs path)[i]? = some e → ∃ body value,
    client.bodies[i]? = some body ∧ client.shared[i]? = some value ∧ TaskAt fs fuel i e body value

theorem filed_init : Filed fs fuel path (tasks fs fuel n path).init where
  length := List.length_mapIdx
  task i e he := by
    refine ⟨[(i, e)], none, ?_, ?_, .waiting⟩
    · change (List.mapIdx _ _)[i]? = _
      rw [List.getElem?_mapIdx, he]
      rfl
    · obtain ⟨hi, -⟩ := List.getElem?_eq_some_iff.mp he
      exact List.getElem?_replicate_of_lt hi

theorem Filed.move {a : Action n} (h : Filed fs fuel path client)
    (hmove : PoolFutures.Move (perform fs fuel) client a client') :
    Filed fs fuel path client' := by
  cases hmove with
  | @body w i next rest values pc hbody hperform =>
      refine ⟨List.length_set.trans h.length, fun j e he => ?_⟩
      obtain ⟨body, value, hj, hvalue, htask⟩ := h.task j e he
      obtain ⟨result, hresult, rfl⟩ := Option.map_eq_some_iff.mp hperform
      by_cases hij : i = j
      · subst hij
        obtain rfl := Option.some.inj (hbody.symm.trans hj)
        cases htask
        refine ⟨[], some result, ?_, ?_, .done hresult⟩
        · exact List.getElem?_set_self (List.getElem?_eq_some_iff.mp hj).1
        · exact List.getElem?_set_self (List.getElem?_eq_some_iff.mp hvalue).1
      · refine ⟨body, value, ?_, ?_, htask⟩
        · rw [← hj]
          exact List.getElem?_set_ne hij
        · rw [← hvalue]
          refine List.getElem?_set_ne fun hnext => hij ?_
          -- the task of `i` writes the slot `i`
          obtain ⟨e', he'⟩ : ∃ e', (submitted fs path)[i]? = some e' := by
            have hi := (List.getElem?_eq_some_iff.mp hbody).1
            rw [h.length] at hi
            exact ⟨_, List.getElem?_eq_getElem hi⟩
          obtain ⟨_, _, hi, -, hwaiting⟩ := h.task i e' he'
          obtain rfl := Option.some.inj (hbody.symm.trans hi)
          cases hwaiting
          exact hnext
  | _ => exact ⟨h.length, h.task⟩

/-- What a future that is ready gives. -/
theorem Filed.value {i : Nat} (h : Filed fs fuel path client)
    (hdone : client.bodies[i]? = some []) :
    ∃ e result, (submitted fs path)[i]? = some e ∧ client.shared[i]?.join = some result ∧
      du fs fuel e = result := by
  have hi := (List.getElem?_eq_some_iff.mp hdone).1
  rw [h.length] at hi
  have he := List.getElem?_eq_getElem hi
  obtain ⟨body, value, hbody, hvalue, htask⟩ := h.task i _ he
  obtain rfl := Option.some.inj (hdone.symm.trans hbody)
  cases htask with
  | done hresult => exact ⟨_, _, he, by rw [hvalue]; rfl, du_of_taskResult hresult⟩

/-- What `sz` is while the caller stands here. -/
def Summed (fs : FileSystem ι) (fuel : Nat) (path : Entry ι) (sz : Nat) : CallerPc → Prop
  | .push _ => sz = 0
  | .notify _ => sz = 0
  | .get i => i ≤ (submitted fs path).length ∧ sumTo fs fuel path i = .ok sz
  | .returned => False

/-- The body of `du_pool` has not ended. -/
structure Running (fs : FileSystem ι) (fuel : Nat) (path : Entry ι) (s : State n ι) : Prop where
  checked : checked fs path = none
  reachable : Reachable (tasks fs fuel n path) s.client
  summed : Summed fs fuel path s.sz s.client.caller

structure Sound (fs : FileSystem ι) (fuel : Nat) (path : Entry ι) (s : State n ι) : Prop where
  filed : Filed fs fuel path s.client
  running : s.outcome = none → Running fs fuel path s
  ended : ∀ result, s.outcome = some result → du fs (fuel + 1) path = result

theorem sound_init : Sound fs fuel path (du_pool fs fuel n path).init where
  filed := filed_init
  running h := ⟨h, ⟨[], .start⟩, rfl⟩
  ended _ h := checked_eq_some h

theorem Running.step {a : Action n} (h : Running fs fuel path s)
    (hstep : PoolFutures.step (perform fs fuel) s.client a = some client) :
    Reachable (tasks fs fuel n path) client := by
  have htasks : (tasks fs fuel n path).step s.client a = some client := hstep
  exact h.reachable.step htasks

theorem Running.summed_submit {woken : Option (Fin n)} (h : Running fs fuel path s)
    (pc : ∀ i, s.client.caller ≠ .get i)
    (hmove : PoolFutures.Move (perform fs fuel) s.client (.caller woken) client) :
    Summed fs fuel path s.sz client.caller := by
  have hsummed := h.summed
  cases hmove with
  | push hpc _ _ =>
      rw [hpc] at hsummed
      exact hsummed
  | submitted hpc _ =>
      rw [hpc] at hsummed
      exact ⟨Nat.zero_le _, congrArg Except.ok hsummed.symm⟩
  | notify hpc _ =>
      rw [hpc] at hsummed
      exact hsummed
  | get hpc _ _ => exact absurd hpc (pc _)
  | returned hpc _ => exact absurd hpc (pc _)

theorem Running.getValue {i : Nat} (h : Running fs fuel path s)
    (hfiled : Filed fs fuel path s.client) (ready : i ∈ s.client.ready) :
    ∃ e result, (submitted fs path)[i]? = some e ∧ s.client.shared[i]?.join = some result ∧
      du fs fuel e = result :=
  hfiled.value ((Consistent.of_reachable h.reachable).done i ready)

theorem Sound.get {i size : Nat} (h : Sound fs fuel path s) (running : s.outcome = none)
    (pc : s.client.caller = .get i) (hi : i < s.client.bodies.length)
    (ready : i ∈ s.client.ready) (value : s.client.shared[i]?.join = some (.ok size)) :
    Sound fs fuel path
      { s with client := { s.client with caller := .get (i + 1) }, sz := add s.sz size } := by
  have hrunning := h.running running
  obtain ⟨-, hsum⟩ : _ ∧ sumTo fs fuel path i = .ok s.sz := by
    have hsummed := hrunning.summed
    rwa [pc] at hsummed
  obtain ⟨e, result, he, hresult, hdu⟩ := hrunning.getValue h.filed ready
  obtain rfl := Option.some.inj (hresult.symm.trans value)
  have hstep : PoolFutures.step (perform fs fuel) s.client (.caller none) =
      some { s.client with caller := .get (i + 1) } := by
    change PoolFutures.callerStep s.client none = _
    rw [PoolFutures.callerStep, pc]
    exact (if_pos hi).trans (if_pos ready)
  refine ⟨⟨h.filed.length, h.filed.task⟩, fun _ => ⟨hrunning.checked,
    hrunning.step hstep, ?_, ?_⟩, fun result hended => ?_⟩
  · exact (List.getElem?_eq_some_iff.mp he).1
  · rw [sumTo_succ hsum he, addTask, hdu]
    rfl
  · cases running.symm.trans hended

theorem Sound.move {a : Action n} (h : Sound fs fuel path s) (hmove : Move fs fuel s a t) :
    Sound fs fuel path t := by
  cases hmove with
  | submit running pc hstep =>
      have hrunning := h.running running
      have hmove := PoolFutures.move_of_step hstep
      exact ⟨h.filed.move hmove, fun _ => ⟨hrunning.checked, hrunning.step hstep,
        hrunning.summed_submit pc hmove⟩, h.ended⟩
  | get running pc hi ready value => exact h.get running pc hi ready value
  | @failed i error _ running pc hi ready value =>
      have hrunning := h.running running
      have hsummed := hrunning.summed
      rw [pc] at hsummed
      obtain ⟨e, result, he, hresult, hdu⟩ := hrunning.getValue h.filed ready
      obtain rfl := Option.some.inj (hresult.symm.trans value)
      refine ⟨h.filed, nofun, fun result hended => ?_⟩
      obtain rfl := Option.some.inj hended
      exact du_of_failed hrunning.checked hsummed.2 he hdu
  | summed running pc hi =>
      have hrunning := h.running running
      have hsummed := hrunning.summed
      rw [pc] at hsummed
      refine ⟨h.filed, nofun, fun result hended => ?_⟩
      obtain rfl := Option.some.inj hended
      rw [h.filed.length] at hi
      exact du_of_sumTo hrunning.checked hi hsummed.2
  | shutdown ended _ =>
      exact ⟨⟨h.filed.length, h.filed.task⟩, fun running => absurd running ended, h.ended⟩
  | @work _ client other hstep =>
      have hmove := PoolFutures.move_of_step hstep
      refine ⟨h.filed.move hmove, fun running => ?_, h.ended⟩
      have hrunning := h.running running
      exact ⟨hrunning.checked, hrunning.step hstep, (hmove.caller_eq other) ▸ hrunning.summed⟩

theorem Sound.of_reachable (h : Reachable (du_pool fs fuel n path) s) : Sound fs fuel path s :=
  h.invariant (Sound fs fuel path) sound_init fun _ _ _ hstep hs => hs.move (move_of_step hstep)

end Invariant

section Pool

variable {fs : FileSystem ι} {fuel : Nat} {path : Entry ι} {s t : State n ι}

/-- Every notification of the pool is heard: the `notify_one` behind a push as in
`NotifyHeard`, the `notify_all` of the destructor as in `StopHeard`. -/
def Heard (s : State n ι) : Action n → Prop
  | .caller woken =>
      (∀ i, s.client.caller = .notify i → NotifyHeard s.client.pool (.notifyOne woken)) ∧
        (s.outcome ≠ none → StopHeard s.client.pool .shutdown)
  | .work w => StopHeard s.client.pool (.work w)
  | .spurious _ => True

def BothHeard (p : ThreadPool.State n Nat) (b : ThreadPool.Action n Nat) : Prop :=
  NotifyHeard p b ∧ StopHeard p b

/-- A step is one of the pool, or leaves it alone. -/
theorem Move.pool {a : Action n} (h : Move fs fuel s a t) :
    t.client.pool = s.client.pool ∨ ∃ b, ThreadPool.step s.client.pool b = some t.client.pool ∧
      (Heard s a → BothHeard s.client.pool b) := by
  cases h with
  | submit _ _ hstep =>
      cases PoolFutures.move_of_step hstep with
      | push _ _ hpool => exact .inr ⟨_, hpool, fun _ => ⟨trivial, trivial⟩⟩
      | notify pc hpool => exact .inr ⟨_, hpool, fun hheard => ⟨hheard.1 _ pc, trivial⟩⟩
      | _ => exact .inl rfl
  | shutdown ended hpool => exact .inr ⟨_, hpool, fun hheard => ⟨trivial, hheard.2 ended⟩⟩
  | work other hstep =>
      cases PoolFutures.move_of_step hstep with
      | body _ _ _ => exact .inl rfl
      | finish _ _ hpool => exact .inr ⟨_, hpool, fun hheard => ⟨trivial, hheard⟩⟩
      | work _ hpool => exact .inr ⟨_, hpool, fun hheard => ⟨trivial, hheard⟩⟩
      | spurious hpool => exact .inr ⟨_, hpool, fun _ => ⟨trivial, trivial⟩⟩
      | _ => exact absurd rfl (other _)
  | _ => exact .inl rfl

theorem reachable_pool (h : Reachable (du_pool fs fuel n path) s) :
    Reachable (pool n Nat) s.client.pool := by
  refine h.simulate (fun s => s.client.pool) ⟨[], .start⟩ fun s a t _ hstep => ?_
  rcases (move_of_step hstep).pool with hsame | ⟨b, hpool, -⟩
  · exact ⟨[], congrArg some hsame.symm⟩
  · exact ⟨[b], exec_singleton hpool⟩

theorem bothHeard_pool (h : ReachableUnder (du_pool fs fuel n path) Heard s) :
    ReachableUnder (pool n Nat) BothHeard s.client.pool := by
  refine h.invariant (fun s => ReachableUnder (pool n Nat) BothHeard s.client.pool)
    ⟨[], .start⟩ ?_
  rintro s a t hheard hstep ⟨as, run⟩
  rcases (move_of_step hstep).pool with hsame | ⟨b, hpool, hboth⟩
  · rw [hsame]
    exact ⟨as, run⟩
  · exact ⟨_, run.extend (hboth hheard) hpool⟩

/-- The destructor joins the workers it has. -/
theorem join_le_of_reachable {p : ThreadPool.State n Nat} (h : Reachable (pool n Nat) p) :
    ∀ i, p.shutdown = .join i → i ≤ n := by
  refine h.invariant (fun p => ∀ i, p.shutdown = .join i → i ≤ n) (fun i hi => ?_)
    fun p b q hstep hp => ?_
  · cases hi
  cases ThreadPool.step_cases hstep with
  | work hwork =>
      rw [hwork.shutdown_eq]
      exact hp
  | stop _ => exact nofun
  | notifyAll _ =>
      rintro i ⟨⟩
      exact Nat.zero_le n
  | join _ hi _ =>
      rintro i ⟨⟩
      exact hi
  | _ => exact hp

end Pool

section Progress

variable {fs : FileSystem ι} {fuel : Nat} {path : Entry ι} {s t : State n ι}

theorem bodiesSafe_of_filed (h : Filed fs fuel path s.client)
    (hdu : ∀ e ∈ submitted fs path, ∃ size, du fs fuel e = .ok size) :
    BodiesSafe (perform fs fuel) s.client := by
  intro i next rest hbody
  have hi := (List.getElem?_eq_some_iff.mp hbody).1
  rw [h.length] at hi
  obtain ⟨_, _, hi', -, htask⟩ := h.task i _ (List.getElem?_eq_getElem hi)
  obtain rfl := Option.some.inj (hbody.symm.trans hi')
  cases htask
  obtain ⟨size, hsize⟩ := hdu _ (List.getElem_mem hi)
  rw [perform, taskResult_of_du hsize]
  exact ⟨_, rfl⟩

/-- Where `PoolFutures.client` gets a future, `du_pool` adds its value up. -/
theorem exists_callerStep (h : Sound fs fuel path s) (running : s.outcome = none)
    {woken : Option (Fin n)} {client : PoolFutures.State n (List (Option Result)) (Nat × Entry ι)}
    (hstep : PoolFutures.callerStep s.client woken = some client) :
    ∃ t, callerStep s woken = some t := by
  rw [callerStep, running]
  dsimp only
  split
  case h_1 i pc =>
    rw [PoolFutures.callerStep, pc] at hstep
    dsimp only at hstep
    rw [getStep]
    split
    case isTrue hi =>
      rw [if_pos hi] at hstep
      obtain ⟨ready, -⟩ := guarded_step hstep
      obtain ⟨e, result, -, hresult, -⟩ := (h.running running).getValue h.filed ready
      rw [if_pos ready, hresult]
      cases result with
      | error e => exact ⟨_, rfl⟩
      | ok size => exact ⟨_, rfl⟩
    case isFalse hi => exact ⟨_, rfl⟩
  case h_2 pc =>
    rw [hstep]
    exact ⟨_, rfl⟩

theorem exists_workStep {w : Fin n} {client : PoolFutures.State n (List (Option Result))
    (Nat × Entry ι)} (h : PoolFutures.step (perform fs fuel) s.client (.work w) = some client) :
    ∃ a t, Action.isSpurious a = false ∧ step fs fuel s a = some t :=
  ⟨.work w, { s with client }, rfl, Option.map_eq_some_iff.mpr ⟨client, h, rfl⟩⟩

theorem exists_shutdownStep (ended : s.outcome ≠ none) {p : ThreadPool.State n Nat}
    (h : ThreadPool.step s.client.pool .shutdown = some p) :
    ∃ a t, Action.isSpurious a = false ∧ step fs fuel s a = some t := by
  obtain ⟨result, hresult⟩ := Option.ne_none_iff_exists'.mp ended
  refine ⟨.caller none, { s with client := { s.client with pool := p } }, rfl, ?_⟩
  rw [step, callerStep, hresult, h]
  rfl

/-- The destructor waits for a worker that goes on. -/
theorem exists_step_of_ended (h : ReachableUnder (du_pool fs fuel n path) Heard s)
    (hsafe : BodiesSafe (perform fs fuel) s.client) (ended : s.outcome ≠ none)
    (hjoin : s.client.pool.shutdown ≠ .join n) :
    ∃ a t, Action.isSpurious a = false ∧ step fs fuel s a = some t := by
  have hpool := bothHeard_pool h
  have hreachable : Reachable (pool n Nat) s.client.pool :=
    let ⟨_, run⟩ := hpool
    run.reachable
  cases hpc : s.client.pool.shutdown with
  | notCalled =>
      refine exists_shutdownStep ended (p := { s.client.pool with
        isRunning := false, shutdown := .notifyAll }) ?_
      rw [ThreadPool.step, ThreadPool.shutdown, hpc]
  | notifyAll =>
      refine exists_shutdownStep ended (p := { ThreadPool.notifyAll s.client.pool with
        shutdown := .join 0 }) ?_
      rw [ThreadPool.step, ThreadPool.shutdown, hpc]
  | join i =>
      have hi : i < n := by
        refine Nat.lt_of_le_of_ne (join_le_of_reachable hreachable i hpc) ?_
        rintro rfl
        exact hjoin hpc
      by_cases hexited : (s.client.pool.workers ⟨i, hi⟩).isExited = true
      · refine exists_shutdownStep ended (p := { s.client.pool with shutdown := .join (i + 1) }) ?_
        rw [ThreadPool.step, ThreadPool.shutdown, hpc]
        exact (dif_pos hi).trans (if_pos hexited)
      · have hnobody : NobodyWaits s.client.pool := by
          refine hpool.invariant NobodyWaits ?_ fun _ _ _ hheard hstep hp =>
            hp.transition hheard.2 (ThreadPool.step_cases hstep)
          rintro ⟨j, hj⟩
          cases hj
        obtain ⟨v, hv⟩ := exists_doWork (holderInside_of_reachable hreachable)
          (fun hblocked => hnobody ⟨i, hpc⟩ ⟨i, hi⟩ (.inr hblocked))
          (fun hpc' => hexited (by rw [hpc']; rfl))
        obtain ⟨client, hclient⟩ := exists_workerStep hsafe hv
        exact exists_workStep hclient

theorem exists_step (h : ReachableUnder (du_pool fs fuel n path) Heard s)
    (hdu : ∀ e ∈ submitted fs path, ∃ size, du fs fuel e = .ok size)
    (hreturned : s.returned = none) :
    ∃ a t, Action.isSpurious a = false ∧ step fs fuel s a = some t := by
  have hsound : Sound fs fuel path s :=
    let ⟨_, run⟩ := h
    Sound.of_reachable run.reachable
  have hsafe := bodiesSafe_of_filed hsound.filed hdu
  by_cases running : s.outcome = none
  · have hrunning := hsound.running running
    have hpool := bothHeard_pool h
    have hinv : WakeupInvariant s.client.pool :=
      hpool.invariant WakeupInvariant wakeupInvariant_init fun _ _ _ hheard hstep hp =>
        hp.transition hheard.1 (ThreadPool.step_cases hstep)
    have hcaller : s.client.caller ≠ .returned := by
      intro hpc
      have hsummed := hrunning.summed
      rw [hpc] at hsummed
      exact hsummed
    have hconsistent := Consistent.of_reachable hrunning.reachable
    obtain ⟨a, client, hspurious, hclient⟩ := hconsistent.exists_step
      (holderInside_of_reachable (PoolFutures.reachable_pool hrunning.reachable)) hinv hsafe hcaller
    cases a with
    | caller woken =>
        obtain ⟨t, ht⟩ := exists_callerStep hsound running hclient
        exact ⟨.caller woken, t, rfl, ht⟩
    | work w => exact exists_workStep hclient
    | spurious w => cases hspurious
  · refine exists_step_of_ended h hsafe running fun hjoin => ?_
    rw [State.returned, if_pos hjoin] at hreturned
    exact running hreturned

end Progress

section Length

variable {fs : FileSystem ι} {fuel : Nat} {path : Entry ι} {s t : State n ι}

/-- The steps that `~ThreadPool` has still to do, and what its `notify_all` may set off. -/
def closing (s : State n ι) : Nat :=
  match s.outcome with
  | none => 9 * n + 3
  | some _ =>
      match s.client.pool.shutdown with
      | .notCalled => 9 * n + 2
      | .notifyAll => 9 * n + 1
      | .join i => n - i

def usageCost (s : State n ι) : Nat :=
  cost s.client + closing s

/-- A step of the tasks and of the pool. -/
theorem usageCost_client {a : Action n} (hlock : LockHeld s.client.pool)
    (hmove : PoolFutures.Move (perform fs fuel) s.client a t.client)
    (houtcome : t.outcome = s.outcome) :
    usageCost t + 1 ≤ usageCost s + if a.isSpurious then 9 else 0 := by
  have hcost := cost_move hlock hmove
  have hclosing : closing t = closing s := by
    rw [closing, closing, houtcome, hmove.shutdown_eq]
  rw [usageCost, usageCost, hclosing]
  omega

theorem usageCost_ended (running : s.outcome = none)
    (halive : s.client.pool.shutdown = .notCalled) (result : Result) :
    usageCost { s with outcome := some result } + 1 ≤ usageCost s := by
  rw [usageCost, usageCost, closing, closing, running]
  dsimp only
  rw [halive]
  exact le_rfl

theorem usageCost_shutdown (ended : s.outcome ≠ none) {p : ThreadPool.State n Nat}
    (h : ThreadPool.step s.client.pool .shutdown = some p) :
    usageCost { s with client := { s.client with pool := p } } + 1 ≤ usageCost s := by
  obtain ⟨result, hresult⟩ := Option.ne_none_iff_exists'.mp ended
  cases ThreadPool.step_cases h with
  | stop pc =>
      rw [usageCost, usageCost, closing, closing, hresult, pc]
      exact le_rfl
  | notifyAll pc =>
      have hcost := poolCost_notifyAll s.client.pool
      have hsame : poolCost { ThreadPool.notifyAll s.client.pool with shutdown := .join 0 } =
          poolCost (ThreadPool.notifyAll s.client.pool) := rfl
      rw [usageCost, usageCost, closing, closing, hresult, pc, cost, cost, hsame]
      dsimp only
      omega
  | @join i pc hi _ =>
      have hsame : poolCost { s.client.pool with shutdown := .join (i + 1) } =
          poolCost s.client.pool := rfl
      rw [usageCost, usageCost, closing, closing, hresult, pc, cost, cost, hsame]
      dsimp only
      omega

theorem usageCost_move {a : Action n} (hlock : LockHeld s.client.pool)
    (halive : s.outcome = none → s.client.pool.shutdown = .notCalled) (h : Move fs fuel s a t) :
    usageCost t + 1 ≤ usageCost s + if a.isSpurious then 9 else 0 := by
  cases h with
  | submit _ _ hstep => exact usageCost_client hlock (PoolFutures.move_of_step hstep) rfl
  | @get i _ woken _ pc hi ready _ =>
      have hmove : PoolFutures.Move (perform fs fuel) s.client (.caller woken)
          { s.client with caller := .get (i + 1) } := .get pc hi ready
      exact usageCost_client hlock hmove rfl
  | failed running _ _ _ _ => exact usageCost_ended running (halive running) _
  | summed running _ _ => exact usageCost_ended running (halive running) _
  | shutdown ended hpool => exact usageCost_shutdown ended hpool
  | work _ hstep => exact usageCost_client hlock (PoolFutures.move_of_step hstep) rfl

theorem usageCost_init :
    usageCost (du_pool fs fuel n path).init ≤ 13 * n + 22 * (submitted fs path).length + 5 := by
  have hcost : cost (tasks fs fuel n path).init = 4 * n + 21 * (submitted fs path).length + 2 +
      (submitted fs path).length := by
    have hflatten : ((submitted fs path).mapIdx fun i e => [(i, e)]).flatten.length =
        (submitted fs path).length := by
      rw [List.mapIdx_eq_zipIdx_map, List.length_flatten, List.map_map]
      simp [Function.comp_def]
    rw [tasks, cost_init, List.length_mapIdx, hflatten]
  have hclosing : closing (du_pool fs fuel n path).init ≤ 9 * n + 3 := by
    rw [closing]
    split
    · exact le_rfl
    · exact Nat.le_succ _
  rw [usageCost]
  change cost (tasks fs fuel n path).init + _ ≤ _
  omega

/-- Each run is finite, as long as only finitely many wakeups are spurious. -/
theorem length_run {as : List (Action n)} (run : Run (du_pool fs fuel n path) Unrestricted as s) :
    as.length + usageCost s ≤ 13 * n + 22 * (submitted fs path).length + 5 +
      9 * as.countP Action.isSpurious := by
  refine run.invariant
    (fun as s => as.length + usageCost s ≤ _ + 9 * as.countP Action.isSpurious) ?_ ?_
  · exact (Nat.zero_add _).le.trans usageCost_init
  · intro as s a t hrun _ hstep has
    have hlock := lockHeld_of_reachable (reachable_pool hrun.reachable)
    have hsound := Sound.of_reachable hrun.reachable
    have hmove := usageCost_move hlock
      (fun running => (Consistent.of_reachable (hsound.running running).reachable).alive)
      (move_of_step hstep)
    rw [List.length_append, List.length_singleton, List.countP_append, List.countP_singleton]
    cases hspurious : a.isSpurious with
    | true =>
        rw [hspurious] at hmove
        simp only [if_true] at hmove ⊢
        omega
    | false =>
        rw [hspurious] at hmove
        simp only [Bool.false_eq_true, if_false] at hmove ⊢
        omega

end Length

/-- `du_pool` returns nothing but `result`. It returns, if finitely many wakeups are spurious and
no step is outside `Allowed`: every run is finite, and no such run is stuck before it has
returned. -/
structure Returns (fs : FileSystem ι) (fuel n : Nat) (path : Entry ι)
    (Allowed : State n ι → Action n → Prop) (result : Result) : Prop where
  result : ∀ s, Reachable (du_pool fs fuel n path) s →
    ∀ returned, s.returned = some returned → returned = result
  bounded : ∀ as s, Run (du_pool fs fuel n path) Unrestricted as s →
    as.length ≤ 13 * n + 22 * (submitted fs path).length + 5 + 9 * as.countP Action.isSpurious
  progress : ∀ s, ReachableUnder (du_pool fs fuel n path) Allowed s → s.returned = none →
    ∃ a t, Action.isSpurious a = false ∧ (du_pool fs fuel n path).step s a = some t

section Returns

variable {fs : FileSystem ι} {fuel : Nat} {path : Entry ι}

theorem returns_of_fits (h : Fits fs (fuel + 1) path) (n : Nat) :
    Returns fs fuel n path Heard (du fs (fuel + 1) path) where
  result s hs returned hreturned := by
    rw [State.returned] at hreturned
    obtain ⟨-, hended⟩ := Option.ite_none_right_eq_some.mp hreturned
    exact ((Sound.of_reachable hs).ended _ hended).symm
  bounded as s run := (Nat.le_add_right _ _).trans (length_run run)
  progress s hs := by
    refine exists_step hs fun e he => ?_
    rw [submitted] at he
    split at he
    · next entries hnode =>
        obtain ⟨entry, hentry, rfl⟩ := List.mem_map.mp he
        exact ⟨_, du_of_fits (h.entry hnode entry hentry)⟩
    · cases he

end Returns

theorem du_counts_once_iff (ι : Type) [Fintype ι] (fs : FileSystem ι) (path : Entry ι) (n : Nat) :
    (∃ fuel, CountsOnce fs (fuel + 1) path ∧
      Returns fs fuel n path Heard (du fs (fuel + 1) path)) ↔
      NeverReturns fs path ∧ WithinLimit fs path ∧ SingleRoutes fs path ∧ SumsFit fs path := by
  rw [← exists_countsOnce_iff]
  constructor
  · rintro ⟨fuel, hcounts, -⟩
    exact ⟨fuel + 1, hcounts⟩
  · rintro ⟨fuel, hcounts⟩
    have hfits := fits_of_du hcounts.2
    obtain ⟨fuel, rfl⟩ := Nat.exists_eq_succ_of_ne_zero (Nat.ne_of_gt hfits.self.1)
    exact ⟨fuel, hcounts, returns_of_fits hfits n⟩

/-- A directory with a file and a symbolic link to it. -/
def linkedTwice : FileSystem Bool where
  node
    | true =>
        .directory [{ links := 0, target := some false }, { links := 1, target := some false }]
    | false => .file 5
  limit := some 40

theorem counted_twice :
    ¬ ∀ (ι : Type) [Fintype ι] (fs : FileSystem ι) (path : Entry ι) (n : Nat),
      ∃ fuel, CountsOnce fs (fuel + 1) path ∧
        Returns fs fuel n path Unrestricted (du fs (fuel + 1) path) := by
  intro h
  obtain ⟨fuel, ⟨hnodup, hdu⟩, -⟩ := h Bool linkedTwice { links := 0, target := some true } 2
  have hsingle := (nodup_counted (fits_of_du hdu)).mp hnodup
  have hsame := hsingle [0] [1] false ⟨_, 5, rfl, rfl, rfl⟩ ⟨_, 5, rfl, rfl, rfl⟩
  cases hsame

end SkUtils.Ducpp.PooledUsage
