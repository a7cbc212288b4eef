import SkUtils.Containers.TopkLaw
import SkUtils.Library.TransitionSystem

/-!
`topN` and `topN_pool` of `ducpp.cpp` on a file system that does not change. In the pool
every entry of the directory is a task of its own, and each of the two queues that a
`push` goes through is a locked step of its own.
-/

namespace SkUtils.Ducpp.Scan

open SkUtils.Library.PriorityQueues
open SkUtils.Library.StrictWeakOrder
open SkUtils.Library.TransitionSystem
open SkUtils.Containers.TopkQueues
open SkUtils.Containers.TopkLaw

/-- What `fs::exists` and `fs::file_size` answer. -/
structure FileSystem where
  Path : Type
  existing : Path → Bool
  fileSize : Path → Nat

def validate (fs : FileSystem) (p : fs.Path) : Bool :=
  fs.existing p

def CompFileSize (fs : FileSystem) (p1 p2 : fs.Path) : Bool :=
  if !validate fs p1 then true
  else if !validate fs p2 then false
  else fs.fileSize p1 < fs.fileSize p2

/-- The paths that `topN` pushes. -/
abbrev File (fs : FileSystem) := {p : fs.Path // validate fs p = true}

def fileComp (fs : FileSystem) (a b : File fs) : Bool :=
  CompFileSize fs a b

mutual

/-- What `topN` finds at a path: `missing` where `validate` fails. -/
inductive Entry (fs : FileSystem)
  | missing
  | file (path : File fs)
  | directory (entries : Entries fs)

inductive Entries (fs : FileSystem)
  | nil
  | cons (entry : Entry fs) (rest : Entries fs)

end

section Code

variable {fs : FileSystem} {maxStd : PriorityQueue (File fs) (reversed_type (fileComp fs))}
  {minStd : PriorityQueue (File fs) (reversed_type (reversed_type (fileComp fs)))}

mutual

def topN (filter : fs.Path → Bool) :
    Entry fs → TopbottomkQueue maxStd minStd → Option (TopbottomkQueue maxStd minStd)
  | .missing, top => some top
  | .directory entries, top => topNAll filter entries top
  | .file path, top => if filter path then top.push path else some top

/-- The loop over `fs::directory_iterator`. -/
def topNAll (filter : fs.Path → Bool) :
    Entries fs → TopbottomkQueue maxStd minStd → Option (TopbottomkQueue maxStd minStd)
  | .nil, top => some top
  | .cons entry rest, top => do
      let top ← topN filter entry top
      topNAll filter rest top

end

/-- The two locked steps of a `push`. -/
inductive QueueStep (fs : FileSystem)
  | pushMax (path : File fs)
  | pushMin (path : File fs)

def QueueStep.exec (top : TopbottomkQueue maxStd minStd) :
    QueueStep fs → Option (TopbottomkQueue maxStd minStd)
  | .pushMax path => (top.max_queue.push path).map fun max_queue => { top with max_queue }
  | .pushMin path => (top.min_queue.push path).map fun min_queue => { top with min_queue }

mutual

/-- The locked steps of `topN`, in its order. -/
def steps (filter : fs.Path → Bool) : Entry fs → List (QueueStep fs)
  | .missing => []
  | .directory entries => stepsAll filter entries
  | .file path => if filter path then [.pushMax path, .pushMin path] else []

def stepsAll (filter : fs.Path → Bool) : Entries fs → List (QueueStep fs)
  | .nil => []
  | .cons entry rest => steps filter entry ++ stepsAll filter rest

end

/-- The steps of the tasks that `topN_pool` submits for the entries of a directory. -/
def submitted (filter : fs.Path → Bool) : Entries fs → List (List (QueueStep fs))
  | .nil => []
  | .cons entry rest => steps filter entry :: submitted filter rest

/-- Without a directory `topN_pool` does the steps of `topN` itself. -/
def tasks (filter : fs.Path → Bool) : Entry fs → List (List (QueueStep fs))
  | .missing => []
  | .directory entries => submitted filter entries
  | .file path => [steps filter (.file path)]

/-- `tasks` are the steps that the tasks have still to do. -/
structure State (maxStd : PriorityQueue (File fs) (reversed_type (fileComp fs)))
    (minStd : PriorityQueue (File fs) (reversed_type (reversed_type (fileComp fs)))) where
  top : TopbottomkQueue maxStd minStd
  tasks : List (List (QueueStep fs))

/-- The next step of task `i`. -/
def step (s : State maxStd minStd) (i : Nat) : Option (State maxStd minStd) :=
  match s.tasks[i]? with
  | some (next :: rest) =>
      (next.exec s.top).map fun top => { top, tasks := s.tasks.set i rest }
  | _ => none

def topN_pool (maxStd : PriorityQueue (File fs) (reversed_type (fileComp fs)))
    (minStd : PriorityQueue (File fs) (reversed_type (reversed_type (fileComp fs)))) (k : Nat)
    (filter : fs.Path → Bool) (path : Entry fs) : System (State maxStd minStd) Nat where
  init := { top := .ofCapacity maxStd minStd k, tasks := tasks filter path }
  step := step

end Code

section Sizes

variable {fs : FileSystem}

def size (path : File fs) : Nat :=
  fs.fileSize path

theorem fileComp_iff (a b : File fs) : RelOf (fileComp fs) a b ↔ size a < size b := by
  simp [RelOf, fileComp, CompFileSize, size, a.2, b.2]

instance : IsStrictWeakOrder (File fs) (RelOf (fileComp fs)) :=
  isStrictWeakOrder_of_key size fileComp_iff

end Sizes

section Law

variable {fs : FileSystem} {maxStd : PriorityQueue (File fs) (reversed_type (fileComp fs))}
  {minStd : PriorityQueue (File fs) (reversed_type (reversed_type (fileComp fs)))}
  {filter : fs.Path → Bool} {k : Nat}

theorem push_eq (top : TopbottomkQueue maxStd minStd) (path : File fs) :
    top.push path = [.pushMax path, .pushMin path].foldlM QueueStep.exec top := by
  cases hmax : top.max_queue.push path with
  | none => simp [TopbottomkQueue.push, QueueStep.exec, hmax]
  | some max_queue =>
      cases hmin : top.min_queue.push path <;>
        simp [TopbottomkQueue.push, QueueStep.exec, hmax, hmin]

mutual

theorem topN_eq : ∀ (entry : Entry fs) (top : TopbottomkQueue maxStd minStd),
    topN filter entry top = (steps filter entry).foldlM QueueStep.exec top
  | .missing, top => rfl
  | .directory entries, top => topNAll_eq entries top
  | .file path, top => by
      rw [topN, steps]
      split
      · exact push_eq top path
      · rfl

theorem topNAll_eq : ∀ (entries : Entries fs) (top : TopbottomkQueue maxStd minStd),
    topNAll filter entries top = (stepsAll filter entries).foldlM QueueStep.exec top
  | .nil, top => rfl
  | .cons entry rest, top => by
      rw [topNAll, stepsAll, List.foldlM_append, topN_eq entry top]
      exact bind_congr fun top => topNAll_eq rest top

end

theorem submitted_flatten : ∀ entries : Entries fs,
    (submitted filter entries).flatten = stepsAll filter entries
  | .nil => rfl
  | .cons entry rest => by
      rw [submitted, stepsAll, List.flatten_cons, submitted_flatten rest]

theorem tasks_flatten (entry : Entry fs) : (tasks filter entry).flatten = steps filter entry := by
  cases entry with
  | missing => rfl
  | file path => exact List.append_nil _
  | directory entries => exact submitted_flatten entries

theorem flatten_set_perm {α : Type*} {lists : List (List α)} {i : Nat} {a : α} {rest : List α}
    (h : lists[i]? = some (a :: rest)) :
    (a :: (lists.set i rest).flatten).Perm lists.flatten := by
  induction lists generalizing i with
  | nil => simp at h
  | cons first lists ih =>
      cases i with
      | zero =>
          obtain rfl : first = a :: rest := by simpa using h
          simp
      | succ i =>
          have hrest : lists[i]? = some (a :: rest) := by simpa using h
          simpa using List.perm_middle.symm.trans ((ih hrest).append_left first)

def QueueStep.toMax : QueueStep fs → Option (File fs)
  | .pushMax path => some path
  | .pushMin _ => none

def QueueStep.toMin : QueueStep fs → Option (File fs)
  | .pushMax _ => none
  | .pushMin path => some path

/-- Each queue has kept what the steps so far have pushed into it. -/
structure Scanned (k : Nat) (top : TopbottomkQueue maxStd minStd) (trace : List (QueueStep fs)) :
    Prop where
  max : Keeps top.max_queue k (trace.filterMap QueueStep.toMax)
  min : Keeps top.min_queue k (trace.filterMap QueueStep.toMin)

variable {top top' : TopbottomkQueue maxStd minStd} {trace trace' : List (QueueStep fs)}

theorem scanned_empty : Scanned k (.ofCapacity maxStd minStd k) [] :=
  ⟨keeps_empty rfl maxStd.contents_empty, keeps_empty rfl minStd.contents_empty⟩

theorem Scanned.exec (h : Scanned k top trace) (hk : 1 ≤ k) (next : QueueStep fs) :
    ∃ top', next.exec top = some top' ∧ Scanned k top' (trace ++ [next]) := by
  cases next with
  | pushMax path =>
      obtain ⟨max_queue, hpush, hmax⟩ := h.max.push hk path
      refine ⟨{ top with max_queue }, by simp [QueueStep.exec, hpush], ?_, ?_⟩
      · simpa [QueueStep.toMax] using hmax
      · simpa [List.filterMap_cons, QueueStep.toMin] using h.min
  | pushMin path =>
      obtain ⟨min_queue, hpush, hmin⟩ := h.min.push hk path
      refine ⟨{ top with min_queue }, by simp [QueueStep.exec, hpush], ?_, ?_⟩
      · simpa [List.filterMap_cons, QueueStep.toMax] using h.max
      · simpa [QueueStep.toMin] using hmin

theorem Scanned.foldlM (h : Scanned k top trace) (hk : 1 ≤ k) (more : List (QueueStep fs)) :
    ∃ top', more.foldlM QueueStep.exec top = some top' ∧ Scanned k top' (trace ++ more) := by
  induction more generalizing top trace with
  | nil => exact ⟨top, rfl, by simpa using h⟩
  | cons next more ih =>
      obtain ⟨top₁, hexec, h₁⟩ := h.exec hk next
      obtain ⟨top₂, hrest, h₂⟩ := ih h₁
      refine ⟨top₂, by simp [hexec, hrest], by simpa using h₂⟩

/-- Two pops return files of the same sizes, in the same order. -/
def SameSizes (r r' : Option (List (File fs) × TopbottomkQueue maxStd minStd)) : Prop :=
  ∃ files q files' q', r = some (files, q) ∧ r' = some (files', q') ∧
    files.map size = files'.map size

theorem Scanned.sameSizes_top (h : Scanned k top trace) (h' : Scanned k top' trace')
    (hperm : trace.Perm trace') : SameSizes top.pop_top top'.pop_top := by
  obtain ⟨files, max_queue, hpop, hlargest, -⟩ := h.max.pop
  obtain ⟨files', max_queue', hpop', hlargest', -⟩ := h'.max.pop
  rw [below_eq] at hlargest hlargest'
  exact ⟨files, { top with max_queue }, files', { top' with max_queue := max_queue' },
    by simp [TopbottomkQueue.pop_top, hpop], by simp [TopbottomkQueue.pop_top, hpop'],
    hlargest.keys_eq hlargest' fileComp_iff (hperm.filterMap _)⟩

theorem Scanned.sameSizes_bottom (h : Scanned k top trace) (h' : Scanned k top' trace')
    (hperm : trace.Perm trace') : SameSizes top.pop_bottom top'.pop_bottom := by
  obtain ⟨files, min_queue, hpop, hsmallest, -⟩ := h.min.pop
  obtain ⟨files', min_queue', hpop', hsmallest', -⟩ := h'.min.pop
  rw [above_eq] at hsmallest hsmallest'
  have hsizes : files.map (fun path => OrderDual.toDual (size path)) =
      files'.map fun path => OrderDual.toDual (size path) :=
    hsmallest.keys_eq hsmallest' (fun a b => fileComp_iff b a) (hperm.filterMap _)
  refine ⟨files, { top with min_queue }, files', { top' with min_queue := min_queue' },
    by simp [TopbottomkQueue.pop_bottom, hpop], by simp [TopbottomkQueue.pop_bottom, hpop'], ?_⟩
  simpa [Function.comp_def] using congrArg (List.map OrderDual.ofDual) hsizes

end Law

section Pool

variable {fs : FileSystem} {maxStd : PriorityQueue (File fs) (reversed_type (fileComp fs))}
  {minStd : PriorityQueue (File fs) (reversed_type (reversed_type (fileComp fs)))}
  {filter : fs.Path → Bool} {path : Entry fs} {k : Nat}

/-- What has been pushed and what the tasks have still to push are the steps of `topN`. -/
def Accounted (filter : fs.Path → Bool) (path : Entry fs) (k : Nat) (s : State maxStd minStd) :
    Prop :=
  ∃ trace, Scanned k s.top trace ∧ (trace ++ s.tasks.flatten).Perm (steps filter path)

theorem step_cases {s t : State maxStd minStd} {i : Nat} (h : step s i = some t) :
    ∃ next rest, s.tasks[i]? = some (next :: rest) ∧ next.exec s.top = some t.top ∧
      t.tasks = s.tasks.set i rest := by
  unfold step at h
  split at h
  case h_1 next rest hnext =>
      obtain ⟨top, hexec, rfl⟩ := Option.map_eq_some_iff.mp h
      exact ⟨next, rest, hnext, hexec, rfl⟩
  case h_2 => cases h

theorem accounted_init : Accounted filter path k (topN_pool maxStd minStd k filter path).init :=
  ⟨[], scanned_empty, by rw [List.nil_append]; exact .of_eq (tasks_flatten path)⟩

theorem Accounted.step {s t : State maxStd minStd} {i : Nat} (h : Accounted filter path k s)
    (hk : 1 ≤ k) (hstep : step s i = some t) : Accounted filter path k t := by
  obtain ⟨trace, hscanned, hperm⟩ := h
  obtain ⟨next, rest, hnext, hexec, htasks⟩ := step_cases hstep
  obtain ⟨top', hexec', hscanned'⟩ := hscanned.exec hk next
  obtain rfl : t.top = top' := Option.some.inj (hexec.symm.trans hexec')
  refine ⟨trace ++ [next], hscanned', ?_⟩
  rw [htasks, List.append_assoc]
  exact ((flatten_set_perm hnext).append_left trace).trans hperm

theorem Accounted.of_reachable {s : State maxStd minStd} (hk : 1 ≤ k)
    (h : Reachable (topN_pool maxStd minStd k filter path) s) : Accounted filter path k s :=
  h.invariant (Accounted filter path k) accounted_init fun _ _ _ hstep hs => hs.step hk hstep

/-- A task that is not done has a step that succeeds. -/
theorem Accounted.exists_step {s : State maxStd minStd} {i : Nat} {next : QueueStep fs}
    {rest : List (QueueStep fs)} (h : Accounted filter path k s) (hk : 1 ≤ k)
    (hnext : s.tasks[i]? = some (next :: rest)) : ∃ t, Scan.step s i = some t := by
  obtain ⟨trace, hscanned, -⟩ := h
  obtain ⟨top, hexec, -⟩ := hscanned.exec hk next
  exact ⟨{ top, tasks := s.tasks.set i rest }, by simp [Scan.step, hnext, hexec]⟩

/-- The futures of all tasks are ready. -/
def Completed (s : State maxStd minStd) : Prop :=
  ∀ task ∈ s.tasks, task = []

theorem Accounted.scanned_of_completed {s : State maxStd minStd} (h : Accounted filter path k s)
    (hdone : Completed s) :
    ∃ trace, Scanned k s.top trace ∧ trace.Perm (steps filter path) := by
  obtain ⟨trace, hscanned, hperm⟩ := h
  rw [List.flatten_eq_nil_iff.mpr hdone, List.append_nil] at hperm
  exact ⟨trace, hscanned, hperm⟩

variable (maxStd minStd filter path)

theorem pool_agrees_with_topN (hk : 1 ≤ k) :
    ∃ seq, topN filter path (.ofCapacity maxStd minStd k) = some seq ∧
      ∀ s, Reachable (topN_pool maxStd minStd k filter path) s →
        (∀ i next rest, s.tasks[i]? = some (next :: rest) → ∃ t, step s i = some t) ∧
        (Completed s →
          SameSizes s.top.pop_top seq.pop_top ∧ SameSizes s.top.pop_bottom seq.pop_bottom) := by
  have hempty : Scanned k (.ofCapacity maxStd minStd k) [] := scanned_empty
  obtain ⟨seq, hseq, hscanned⟩ := hempty.foldlM hk (steps filter path)
  rw [List.nil_append] at hscanned
  refine ⟨seq, (topN_eq path _).trans hseq, ?_⟩
  intro s hs
  have haccounted := Accounted.of_reachable hk hs
  constructor
  · intro i next rest hnext
    exact haccounted.exists_step hk hnext
  · intro hdone
    obtain ⟨trace, hdoneScanned, hperm⟩ := haccounted.scanned_of_completed hdone
    constructor
    · exact hdoneScanned.sameSizes_top hscanned hperm
    · exact hdoneScanned.sameSizes_bottom hscanned hperm

end Pool

/-- Paths `0` to `9`; two files of each size. -/
def pairedFiles : FileSystem where
  Path := Nat
  existing := fun p => p < 10
  fileSize := fun p => p / 2

def pairedFile (n : Fin 10) : Entry pairedFiles :=
  .file ⟨n.val, decide_eq_true n.isLt⟩

def pairedTree : Entry pairedFiles :=
  .directory
    (.cons (pairedFile 5)
      (.cons (.directory (.cons (pairedFile 4) (.cons .missing (.cons (pairedFile 2) .nil))))
        (.cons (pairedFile 8) .nil)))

def notTwo (p : Nat) : Bool :=
  p != 2

theorem pool_agrees_with_topN_pairedTree :
    ∃ s, Reachable (topN_pool (sortedListQueue _) (sortedListQueue _) 2 notTwo pairedTree) s ∧
      Completed s ∧
      ∃ seq, topN notTwo pairedTree
          (.ofCapacity (sortedListQueue _) (sortedListQueue _) 2) = some seq ∧
        SameSizes s.top.pop_top seq.pop_top ∧ SameSizes s.top.pop_bottom seq.pop_bottom := by
  obtain ⟨seq, hseq, hagrees⟩ :=
    pool_agrees_with_topN (sortedListQueue _) (sortedListQueue _) notTwo pairedTree
      (by decide : 1 ≤ 2)
  obtain ⟨s, hexec, hdone⟩ : ∃ s, exec (topN_pool (sortedListQueue _) (sortedListQueue _) 2
      notTwo pairedTree) (topN_pool _ _ 2 notTwo pairedTree).init [1, 0, 2, 1, 2, 0] = some s ∧
      s.tasks = [[], [], []] :=
    ⟨_, rfl, rfl⟩
  have hs := reachable_of_exec hexec
  have hcompleted : Completed s := by
    simp [Completed, hdone]
  exact ⟨s, hs, hcompleted, seq, hseq, (hagrees s hs).2 hcompleted⟩

end SkUtils.Ducpp.Scan
