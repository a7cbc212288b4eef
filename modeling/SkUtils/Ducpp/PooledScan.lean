import SkUtils.Concurrency.PoolFutures
import SkUtils.Ducpp.Listing

/-!
`topN_pool` of `ducpp.cpp` over the steps of its `ThreadPool`: for every entry of a directory it
submits a `topN` and then waits for all futures.
-/

namespace SkUtils.Ducpp.PooledScan

open SkUtils.Library.PriorityQueues
open SkUtils.Library.StrictWeakOrder
open SkUtils.Library.TransitionSystem
open SkUtils.Concurrency.PoolFutures
open SkUtils.Concurrency.ThreadPoolTasks (held)
open SkUtils.Containers.TopkQueues
open SkUtils.Ducpp.Scan hiding State step
open SkUtils.Ducpp.Listing

variable {fs : FileSystem} {maxStd : PriorityQueue (File fs) (reversed_type (fileComp fs))}
  {minStd : PriorityQueue (File fs) (reversed_type (reversed_type (fileComp fs)))}
  {filter : fs.Path → Bool} {k n : Nat} {entries : Entries fs}

section Code

/-- `topN_pool` at a directory, with a pool of `n` workers. -/
def pooledScan (n : Nat) (maxStd : PriorityQueue (File fs) (reversed_type (fileComp fs)))
    (minStd : PriorityQueue (File fs) (reversed_type (reversed_type (fileComp fs)))) (k : Nat)
    (filter : fs.Path → Bool) (entries : Entries fs) :
    System (State n (TopbottomkQueue maxStd minStd) (QueueStep fs)) (Action n) :=
  client (fun top next => next.exec top) n (.ofCapacity maxStd minStd k) (submitted filter entries)

end Code

/-- The queues and the tasks, without the pool that runs them. -/
def scanState (s : State n (TopbottomkQueue maxStd minStd) (QueueStep fs)) :
    Scan.State maxStd minStd :=
  { top := s.shared, tasks := s.bodies }

variable {s : State n (TopbottomkQueue maxStd minStd) (QueueStep fs)}

/-- A step of the pool is a step of one task, or none. -/
theorem reachable_scanState (h : Reachable (pooledScan n maxStd minStd k filter entries) s) :
    Reachable (topN_pool maxStd minStd k filter (.directory entries)) (scanState s) := by
  refine h.simulate scanState ⟨[], .start⟩ fun s a t _ hstep => ?_
  cases move_of_step hstep with
  | @body w i next rest top pc hbody hexec =>
      refine ⟨[i], exec_singleton ?_⟩
      have hnext : (scanState s).tasks[i]? = some (next :: rest) := hbody
      change Scan.step (scanState s) i = _
      rw [Scan.step, hnext]
      exact congrArg (Option.map _) hexec
  | _ => exact ⟨[], rfl⟩

theorem bodiesSafe_of_reachable (hk : 1 ≤ k)
    (h : Reachable (pooledScan n maxStd minStd k filter entries) s) :
    BodiesSafe (fun (top : TopbottomkQueue maxStd minStd) next => QueueStep.exec top next) s := by
  intro i next rest hbody
  obtain ⟨trace, hscanned, -⟩ := Accounted.of_reachable hk (reachable_scanState h)
  obtain ⟨top, hexec, -⟩ := hscanned.exec hk next
  exact ⟨top, hexec⟩

/-- The entries that `fs::directory_iterator` goes through. -/
def count : Entries fs → Nat
  | .nil => 0
  | .cons _ rest => count rest + 1

theorem length_submitted (entries : Entries fs) :
    (submitted filter entries).length = count entries := by
  cases entries with
  | nil => rfl
  | cons entry rest => exact congrArg (· + 1) (length_submitted rest)

theorem length_submitted_flatten (entries : Entries fs) :
    (submitted filter entries).flatten.length = 2 * (filesAll filter entries).length := by
  rw [submitted_flatten, stepsAll_eq_pushes, length_pushes]

theorem submitted_eq_nil_iff : submitted filter entries = [] ↔ entries = .nil := by
  cases entries with
  | nil => exact ⟨fun _ => rfl, fun _ => rfl⟩
  | cons entry rest => exact iff_of_false (List.cons_ne_nil _ _) nofun

theorem length_bodies (h : Reachable (pooledScan n maxStd minStd k filter entries) s) :
    s.bodies.length = count entries := by
  refine h.invariant (fun s => s.bodies.length = count entries) (length_submitted entries) ?_
  intro s a t hstep hs
  cases move_of_step hstep with
  | body _ _ _ => exact List.length_set.trans hs
  | _ => exact hs

variable (n maxStd minStd filter entries)

/-- Every run over the pool is one of `Scan.topN_pool`. When all futures have been waited for, each
task has run once, the pool is idle, and the queues are as after `topN`. -/
theorem pooledScan_agrees (hk : 1 ≤ k) :
    ∃ seq, topN filter (.directory entries) (.ofCapacity maxStd minStd k) = some seq ∧
      ∀ s, Reachable (pooledScan n maxStd minStd k filter entries) s →
        Reachable (topN_pool maxStd minStd k filter (.directory entries)) (scanState s) ∧
        (s.caller = .returned →
          s.ready.Perm (List.range (count entries)) ∧ s.pool.workQueue = [] ∧
          (∀ w, held (s.pool.workers w) = 0) ∧
          SameSizes s.shared.pop_top seq.pop_top ∧
          SameSizes s.shared.pop_bottom seq.pop_bottom) := by
  have hempty : Scanned k (.ofCapacity maxStd minStd k) [] := scanned_empty
  obtain ⟨seq, hseq, hscanned⟩ := hempty.foldlM hk (steps filter (.directory entries))
  refine ⟨seq, (topN_eq (.directory entries) _).trans hseq, fun s hs => ?_⟩
  have hscan := reachable_scanState hs
  refine ⟨hscan, fun hreturned => ?_⟩
  obtain ⟨hready, hqueue, hheld, hbodies⟩ := (Consistent.of_reachable hs).returned hreturned
  rw [length_bodies hs] at hready
  obtain ⟨trace, hdone, hperm⟩ := (Accounted.of_reachable hk hscan).scanned_of_completed hbodies
  exact ⟨hready, hqueue, hheld, hdone.sameSizes_top hscanned hperm,
    hdone.sameSizes_bottom hscanned hperm⟩

/-- A file and an entry that is missing. -/
def twoEntries : Entries pairedFiles :=
  .cons (pairedFile (Fin.last 9)) (.cons .missing .nil)

theorem pooledScan_agrees_twoEntries :
    ∃ s, Reachable (pooledScan 2 (sortedListQueue (reversed_type (fileComp pairedFiles)))
        (sortedListQueue _) 2 notTwo twoEntries) s ∧ s.caller = .returned ∧
      ∃ seq, topN notTwo (.directory twoEntries)
          (.ofCapacity (sortedListQueue _) (sortedListQueue _) 2) = some seq ∧
        SameSizes s.shared.pop_top seq.pop_top := by
  obtain ⟨seq, hseq, hagrees⟩ := pooledScan_agrees
    (sortedListQueue (reversed_type (fileComp pairedFiles))) (sortedListQueue _) notTwo 2
    twoEntries (by decide : 1 ≤ 2)
  obtain ⟨s, hexec, hreturned⟩ : ∃ s, exec (pooledScan 2
      (sortedListQueue (reversed_type (fileComp pairedFiles))) (sortedListQueue _) 2 notTwo
      twoEntries) (pooledScan 2 _ _ 2 notTwo twoEntries).init
      (List.replicate 5 (.caller none) ++ List.replicate 7 (.work 0) ++
        List.replicate 6 (.work 1) ++ .work 0 :: List.replicate 3 (.caller none)) = some s ∧
      s.caller = .returned :=
    ⟨_, rfl, rfl⟩
  have hs := reachable_of_exec hexec
  exact ⟨s, hs, hreturned, seq, hseq, ((hagrees s hs).2 hreturned).2.2.2.1⟩

/-- Without spurious wakeups every run ends, and with two workers it ends behind the last future.
With fewer it may not. -/
theorem scan_returns_iff (hk : 1 ≤ k) :
    (∀ as s, Run (pooledScan n maxStd minStd k filter entries) Unrestricted as s →
      as.length ≤ 4 * n + 21 * count entries + 2 + 2 * (filesAll filter entries).length +
        9 * as.countP Action.isSpurious) ∧
    ((∀ s, Reachable (pooledScan n maxStd minStd k filter entries) s → s.caller ≠ .returned →
      ∃ a t, Action.isSpurious a = false ∧
        (pooledScan n maxStd minStd k filter entries).step s a = some t) ↔
      2 ≤ n ∨ entries = .nil) := by
  refine ⟨fun as s run => ?_, ?_, ?_⟩
  · have hlength := length_run run
    rw [length_submitted, length_submitted_flatten] at hlength
    exact (Nat.le_add_right _ _).trans hlength
  · intro hsteps
    refine or_iff_not_imp_right.mpr fun hne => Nat.not_lt.mp fun hn => ?_
    obtain ⟨s, hs, hcaller, hstuck⟩ := exists_stuck hn (submitted_eq_nil_iff.not.mpr hne)
    obtain ⟨a, t, hspurious, hstep⟩ := hsteps s hs hcaller
    exact absurd (hstuck a t hstep) (by rw [hspurious]; exact Bool.false_ne_true)
  · rintro (hn | rfl) s hs hcaller
    · exact exists_step_of_two_le hn hs (bodiesSafe_of_reachable hk hs) hcaller
    · have hlength : s.bodies.length = 0 := length_bodies hs
      obtain ⟨woken, t, ht⟩ := (Consistent.of_reachable hs).exists_callerStep
        (fun top next => next.exec top) hcaller
        fun i _ hi => absurd (hlength ▸ hi) (Nat.not_lt_zero i)
      exact ⟨.caller woken, t, rfl, ht⟩

theorem scan_returns_twoEntries :
    ∃ a t, Action.isSpurious a = false ∧
      (pooledScan 2 (sortedListQueue (reversed_type (fileComp pairedFiles))) (sortedListQueue _) 2
        notTwo twoEntries).step (pooledScan 2 _ _ 2 notTwo twoEntries).init a = some t :=
  ((scan_returns_iff _ _ notTwo 2 twoEntries (by decide : 1 ≤ 2)).2).mpr (.inl le_rfl) _
    ⟨[], .start⟩ nofun

end SkUtils.Ducpp.PooledScan
