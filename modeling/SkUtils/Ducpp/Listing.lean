import SkUtils.Ducpp.Capacity

/-!
What `ducpp -t` and `ducpp -b` print, from the command line to the lists of files: `main` scans one
path after the other, each with a pool of its own, and then pops the two queues.
-/

namespace SkUtils.Ducpp.Listing

open SkUtils.Library.PriorityQueues
open SkUtils.Library.StrictWeakOrder
open SkUtils.Library.TransitionSystem
open SkUtils.Strings.StringUtils
open SkUtils.Arguments.ArgumentParser (stoi)
open SkUtils.Containers.TopkQueues
open SkUtils.Containers.TopkLaw
open SkUtils.Ducpp.Options
open SkUtils.Ducpp.Scan
open SkUtils.Ducpp.Capacity

section Code

variable {fs : FileSystem} {maxStd : PriorityQueue (File fs) (reversed_type (fileComp fs))}
  {minStd : PriorityQueue (File fs) (reversed_type (reversed_type (fileComp fs)))}

/-- `top_k <= top_k_files.size() ? top_k : top_k_files.size()`, where `<=` compares `size_t`. -/
def atMost (top_k : Int) (size : Nat) : Int :=
  if (top_k % 2 ^ 64).toNat ≤ size then top_k else size

/-- The files that the loop from `0` to `top_k` prints. -/
def printed (top_k : Int) (top_k_files : List (File fs)) : List (File fs) :=
  top_k_files.take (atMost top_k top_k_files.length).toNat

/-- The two lists, where `main` prints them. -/
structure Lists (fs : FileSystem) where
  largest : Option (List (File fs))
  smallest : Option (List (File fs))

def listTop (top_k : Int) (heap : TopbottomkQueue maxStd minStd) :
    Option (Option (List (File fs)) × TopbottomkQueue maxStd minStd) :=
  if top_k > 0 then do
    let (top_k_files, heap) ← heap.pop_top
    some (some (printed top_k top_k_files), heap)
  else some (none, heap)

def listBottom (bottom_k : Int) (heap : TopbottomkQueue maxStd minStd) :
    Option (Option (List (File fs)) × TopbottomkQueue maxStd minStd) :=
  if bottom_k > 0 then do
    let (bottom_k_files, heap) ← heap.pop_bottom
    some (some (printed bottom_k bottom_k_files), heap)
  else some (none, heap)

/-- What `main` prints of the queues when all paths are scanned. -/
def lists (ranking : Ranking) (heap : TopbottomkQueue maxStd minStd) : Option (Lists fs) := do
  let (largest, heap) ← listTop ranking.top_k heap
  let (smallest, _) ← listBottom ranking.bottom_k heap
  some { largest, smallest }

mutual

/-- The files at or below a path that the filter accepts. -/
def files (filter : fs.Path → Bool) : Entry fs → List (File fs)
  | .missing => []
  | .directory entries => filesAll filter entries
  | .file path => if filter path then [path] else []

def filesAll (filter : fs.Path → Bool) : Entries fs → List (File fs)
  | .nil => []
  | .cons entry rest => files filter entry ++ filesAll filter rest

end

end Code

section Steps

variable {fs : FileSystem} {filter : fs.Path → Bool}

/-- The two steps of each `push`, for one file after the other. -/
def pushes (paths : List (File fs)) : List (QueueStep fs) :=
  paths.flatMap fun path => [.pushMax path, .pushMin path]

theorem pushes_append (paths paths' : List (File fs)) :
    pushes (paths ++ paths') = pushes paths ++ pushes paths' :=
  List.flatMap_append

mutual

theorem steps_eq_pushes : ∀ entry : Entry fs, steps filter entry = pushes (files filter entry)
  | .missing => rfl
  | .directory entries => stepsAll_eq_pushes entries
  | .file path => by
      rw [steps, files]
      split
      · rfl
      · rfl

theorem stepsAll_eq_pushes :
    ∀ entries : Entries fs, stepsAll filter entries = pushes (filesAll filter entries)
  | .nil => rfl
  | .cons entry rest => by
      rw [stepsAll, filesAll, pushes_append, steps_eq_pushes entry, stepsAll_eq_pushes rest]

end

theorem flatMap_steps (paths : List (Entry fs)) :
    paths.flatMap (steps filter) = pushes (paths.flatMap (files filter)) := by
  induction paths with
  | nil => rfl
  | cons path paths ih =>
      rw [List.flatMap_cons, List.flatMap_cons, pushes_append, steps_eq_pushes, ih]

theorem pushes_toMax (paths : List (File fs)) :
    (pushes paths).filterMap QueueStep.toMax = paths := by
  induction paths with
  | nil => rfl
  | cons path paths ih => exact congrArg (path :: ·) ih

theorem pushes_toMin (paths : List (File fs)) :
    (pushes paths).filterMap QueueStep.toMin = paths := by
  induction paths with
  | nil => rfl
  | cons path paths ih => exact congrArg (path :: ·) ih

theorem length_pushes (paths : List (File fs)) : (pushes paths).length = 2 * paths.length := by
  induction paths with
  | nil => rfl
  | cons path paths ih =>
      change (pushes paths).length + 2 = _
      rw [ih, List.length_cons]
      omega

end Steps

section Paths

variable {fs : FileSystem} {maxStd : PriorityQueue (File fs) (reversed_type (fileComp fs))}
  {minStd : PriorityQueue (File fs) (reversed_type (reversed_type (fileComp fs)))}
  {filter : fs.Path → Bool} {k : Nat} {paths : List (Entry fs)} {s t : MainState maxStd minStd}

/-- What the pool and the paths behind it have still to push. -/
def left (filter : fs.Path → Bool) (s : MainState maxStd minStd) : List (QueueStep fs) :=
  s.pool.tasks.flatten ++ s.paths.flatMap (steps filter)

theorem left_nextPath {pool : Scan.State maxStd minStd} {path : Entry fs}
    (hdone : pool.tasks.all List.isEmpty = true) :
    left filter { pool := { pool with tasks := tasks filter path }, paths } =
      left filter { pool, paths := path :: paths } := by
  have hempty : pool.tasks.flatten = [] := by
    simpa [List.flatten_eq_nil_iff] using hdone
  rw [left, left, hempty, tasks_flatten, List.flatMap_cons, List.nil_append]

/-- What has been pushed and what is left are the steps of all paths. -/
def PathsAccounted (filter : fs.Path → Bool) (k : Nat) (paths : List (Entry fs))
    (s : MainState maxStd minStd) : Prop :=
  ∃ trace, Scanned k s.pool.top trace ∧
    (trace ++ left filter s).Perm (paths.flatMap (steps filter))

/-- A step pushes one of the files that are left, or comes to the next path. -/
theorem mainStep_left {a : MainAction} (h : mainStep filter s a = some t) :
    (∃ next, next.exec s.pool.top = some t.pool.top ∧
      (next :: left filter t).Perm (left filter s) ∧ t.paths = s.paths) ∨
    ∃ path, t.pool.top = s.pool.top ∧ left filter t = left filter s ∧
      s.paths = path :: t.paths := by
  cases a with
  | task i =>
      obtain ⟨pool, hpool, rfl⟩ := Option.map_eq_some_iff.mp h
      obtain ⟨next, rest, hnext, hexec, htasks⟩ := step_cases hpool
      refine .inl ⟨next, hexec, ?_, rfl⟩
      rw [left, left, htasks, ← List.cons_append]
      exact (flatten_set_perm hnext).append_right _
  | nextPath =>
      obtain ⟨pool, _ | ⟨path, paths⟩⟩ := s
      · cases h
      · obtain ⟨hdone, rfl⟩ := guarded_step h
        exact .inr ⟨path, rfl, left_nextPath hdone, rfl⟩

theorem PathsAccounted.step {a : MainAction} (h : PathsAccounted filter k paths s) (hk : 1 ≤ k)
    (hstep : mainStep filter s a = some t) : PathsAccounted filter k paths t := by
  obtain ⟨trace, hscanned, hperm⟩ := h
  rcases mainStep_left hstep with ⟨next, hexec, hleft, -⟩ | ⟨path, htop, hleft, -⟩
  · obtain ⟨top, hexec', hscanned'⟩ := hscanned.exec hk next
    obtain rfl := Option.some.inj (hexec.symm.trans hexec')
    refine ⟨trace ++ [next], hscanned', ?_⟩
    rw [List.append_assoc]
    exact (hleft.append_left trace).trans hperm
  · exact ⟨trace, htop ▸ hscanned, hleft ▸ hperm⟩

theorem PathsAccounted.of_reachable (hk : 1 ≤ k)
    (h : Reachable (scan maxStd minStd filter k paths) s) : PathsAccounted filter k paths s :=
  h.invariant (PathsAccounted filter k paths) ⟨[], scanned_empty, .refl _⟩
    fun _ _ _ hstep hs => hs.step hk hstep

/-- The loop over the paths is through, and so is the pool of the last one. -/
def Finished (s : MainState maxStd minStd) : Prop :=
  s.paths = [] ∧ Completed s.pool

theorem left_of_finished (h : Finished s) : left filter s = [] := by
  rw [left, h.1, List.flatten_eq_nil_iff.mpr h.2]
  rfl

end Paths

section Lists

variable {T : Type*} {below : T → T → Prop} {j k : Nat}

/-- The `j` largest are the first of the `k` largest. -/
theorem largest_take {vs ret : List T} (h : Largest below k vs ret) (hj : j ≤ k) :
    Largest below j vs (ret.take j) := by
  obtain ⟨left, hperm, hleft⟩ := h.rest
  have hdescending := h.descending
  rw [← List.take_append_drop j ret, List.pairwise_append] at hdescending
  refine ⟨?_, hdescending.1, ret.drop j ++ left, ?_, ?_⟩
  · rw [List.length_take, h.length, ← min_assoc, min_eq_left hj]
  · rw [← List.append_assoc, List.take_append_drop]
    exact hperm
  · intro x hx y hy
    rcases List.mem_append.mp hx with hx | hx
    · exact hdescending.2.2 y hy x hx
    · exact hleft x hx y (List.mem_of_mem_take hy)

theorem largest_perm {vs vs' ret : List T} (h : Largest below k vs ret) (hperm : vs.Perm vs') :
    Largest below k vs' ret := by
  obtain ⟨left, hleft, hrest⟩ := h.rest
  exact ⟨hperm.length_eq ▸ h.length, h.descending, left, hperm.symm.trans hleft, hrest⟩

variable {fs : FileSystem} {maxStd : PriorityQueue (File fs) (reversed_type (fileComp fs))}
  {minStd : PriorityQueue (File fs) (reversed_type (reversed_type (fileComp fs)))}
  {ranking : Ranking}

theorem relOf_fileComp : RelOf (fileComp fs) = fun a b => size a < size b := by
  funext a b
  exact propext (fileComp_iff a b)

/-- A positive `top_k` is the same as `size_t`. -/
theorem printed_eq {top_k : Int} (hint : IsInt top_k) (hpos : 0 < top_k)
    (top_k_files : List (File fs)) :
    printed top_k top_k_files = top_k_files.take top_k.toNat := by
  obtain ⟨-, hhigh⟩ := hint
  have hmod : top_k % 2 ^ 64 = top_k := by omega
  rw [printed, atMost, hmod]
  split
  case isTrue => rfl
  case isFalse hless =>
    rw [Int.toNat_natCast, List.take_length, List.take_of_length_le (by omega)]

/-- The largest or smallest files, where there are to be any. -/
def Extremes (below : File fs → File fs → Prop) (top_k : Int) (accepted : List (File fs))
    (list : Option (List (File fs))) : Prop :=
  if 0 < top_k then ∃ ret, list = some ret ∧ Largest below top_k.toNat accepted ret
  else list = none

theorem extremes_take {top_k : Int} {accepted top_k_files : List (File fs)}
    {below : File fs → File fs → Prop} (hint : IsInt top_k) (hpos : 0 < top_k)
    (hk : top_k.toNat ≤ k) (h : Largest below k accepted top_k_files) :
    Extremes below top_k accepted (some (printed top_k top_k_files)) := by
  rw [Extremes, if_pos hpos, printed_eq hint hpos]
  exact ⟨_, rfl, largest_take h hk⟩

/-- A positive one of the two options is at most the capacity. -/
theorem toNat_le_capacity (htop : IsInt ranking.top_k) (hbottom : IsInt ranking.bottom_k) :
    (0 < ranking.top_k → ranking.top_k.toNat ≤ capacity ranking) ∧
      (0 < ranking.bottom_k → ranking.bottom_k.toNat ≤ capacity ranking) := by
  obtain ⟨-, htop⟩ := htop
  obtain ⟨-, hbottom⟩ := hbottom
  rw [capacity]
  omega

variable {trace : List (QueueStep fs)} {vs accepted : List (File fs)}
  {heap : TopbottomkQueue maxStd minStd}

theorem exists_listTop {top_k : Int} (hint : IsInt top_k) (hk : 0 < top_k → top_k.toNat ≤ k)
    (h : Keeps heap.max_queue k vs) (hperm : vs.Perm accepted) :
    ∃ found max_queue, listTop top_k heap = some (found, { heap with max_queue }) ∧
      Extremes (fun a b => size a < size b) top_k accepted found := by
  rcases em (0 < top_k) with hpos | hpos
  · obtain ⟨top_k_files, max_queue, hpop, hlargest, -⟩ := h.pop
    rw [below_eq, relOf_fileComp] at hlargest
    refine ⟨_, max_queue, ?_, extremes_take hint hpos (hk hpos) (largest_perm hlargest hperm)⟩
    rw [listTop, if_pos hpos, TopbottomkQueue.pop_top, hpop]
    rfl
  · exact ⟨none, heap.max_queue, if_neg hpos, by rw [Extremes, if_neg hpos]⟩

theorem exists_listBottom {bottom_k : Int} (hint : IsInt bottom_k)
    (hk : 0 < bottom_k → bottom_k.toNat ≤ k) (h : Keeps heap.min_queue k vs)
    (hperm : vs.Perm accepted) :
    ∃ found min_queue, listBottom bottom_k heap = some (found, { heap with min_queue }) ∧
      Extremes (fun a b => size b < size a) bottom_k accepted found := by
  rcases em (0 < bottom_k) with hpos | hpos
  · obtain ⟨bottom_k_files, min_queue, hpop, hsmallest, -⟩ := h.pop
    rw [above_eq, relOf_fileComp] at hsmallest
    refine ⟨_, min_queue, ?_, extremes_take hint hpos (hk hpos) (largest_perm hsmallest hperm)⟩
    rw [listBottom, if_pos hpos, TopbottomkQueue.pop_bottom, hpop]
    rfl
  · exact ⟨none, heap.min_queue, if_neg hpos, by rw [Extremes, if_neg hpos]⟩

theorem exists_lists (htop : IsInt ranking.top_k) (hbottom : IsInt ranking.bottom_k)
    (h : Scanned (capacity ranking) heap trace) (hperm : trace.Perm (pushes accepted)) :
    ∃ found, lists ranking heap = some found ∧
      Extremes (fun a b => size a < size b) ranking.top_k accepted found.largest ∧
      Extremes (fun a b => size b < size a) ranking.bottom_k accepted found.smallest := by
  obtain ⟨htop_k, hbottom_k⟩ := toNat_le_capacity htop hbottom
  obtain ⟨largest, max_queue, hlargest, hlarge⟩ :=
    exists_listTop htop htop_k h.max (pushes_toMax accepted ▸ hperm.filterMap _)
  have hmin : Keeps (TopbottomkQueue.mk max_queue heap.min_queue).min_queue (capacity ranking)
      (trace.filterMap QueueStep.toMin) := h.min
  obtain ⟨smallest, min_queue, hsmallest, hsmall⟩ :=
    exists_listBottom hbottom hbottom_k hmin (pushes_toMin accepted ▸ hperm.filterMap _)
  refine ⟨{ largest, smallest }, ?_, hlarge, hsmall⟩
  simp only [lists, hlargest, hsmallest, Option.bind_eq_bind, Option.bind_some]

end Lists

/-- Once the scan of all paths has ended, whatever the order of the steps of its tasks, `main`
prints the largest and the smallest of the accepted files. -/
theorem lists_extremes {D : Type} {stod : Str → Option D} {current_path file : Str}
    {argv : List Str} {given : Settings} {ranking : Ranking} {fs : FileSystem}
    (maxStd : PriorityQueue (File fs) (reversed_type (fileComp fs)))
    (minStd : PriorityQueue (File fs) (reversed_type (reversed_type (fileComp fs))))
    (extension : fs.Path → Str) (found : Str → Entry fs)
    (hmain : main stod current_path file argv = .ok (some given))
    (hranking : given.ranking = some ranking)
    (hcapacity : max ranking.top_k ranking.bottom_k ≠ 0) :
    let accepted := (given.paths.map found).flatMap (files (filter extension ranking.extentions))
    let system := scan maxStd minStd (filter extension ranking.extentions) (capacity ranking)
      (given.paths.map found)
    ∀ s, Reachable system s → Finished s → ∃ printed, lists ranking s.pool.top = some printed ∧
      Extremes (fun a b => size a < size b) ranking.top_k accepted printed.largest ∧
      Extremes (fun a b => size b < size a) ranking.bottom_k accepted printed.smallest := by
  intro accepted system s hs hfinished
  obtain ⟨htop, hbottom⟩ := main_isInt hmain hranking
  have hk : 1 ≤ capacity ranking :=
    Nat.one_le_iff_ne_zero.mpr fun hzero => hcapacity ((capacity_eq_zero htop hbottom).mp hzero)
  obtain ⟨trace, hscanned, hperm⟩ := PathsAccounted.of_reachable hk hs
  rw [left_of_finished hfinished, List.append_nil, flatMap_steps] at hperm
  exact exists_lists htop hbottom hscanned hperm

/-- What `ducpp -t 2 -b 1` asks for. -/
def bothRankings : Ranking :=
  { extentions := [], top_k := 2, bottom_k := 1 }

theorem lists_extremes_both :
    ∃ s, Reachable (scanPaired 2) s ∧ Finished s ∧
      ∃ printed, lists bothRankings s.pool.top = some printed ∧
        Extremes (fun a b => size a < size b) 2 (files (filter (fun _ => []) []) pairedTree)
          printed.largest := by
  have hmain : main stoi "here".toList "ducpp".toList
      ["-t".toList, "2".toList, "-b".toList, "1".toList] =
        .ok (some { paths := ["here".toList], ranking := some bothRankings }) := rfl
  have hall := lists_extremes (sortedListQueue (reversed_type (fileComp pairedFiles)))
    (sortedListQueue _) (fun _ => []) (fun _ => pairedTree) hmain rfl (by decide)
  obtain ⟨s, hexec, hpaths, htasks⟩ : ∃ s, exec (scanPaired 2) (scanPaired 2).init
      [.nextPath, .task 1, .task 0, .task 2, .task 1, .task 1, .task 0, .task 2, .task 1] =
        some s ∧ s.paths = [] ∧ s.pool.tasks = [[], [], []] :=
    ⟨_, rfl, rfl, rfl⟩
  have hfinished : Finished s := ⟨hpaths, by simp [Completed, htasks]⟩
  obtain ⟨printed, hlists, hlargest, -⟩ := hall s (reachable_of_exec hexec) hfinished
  exact ⟨s, reachable_of_exec hexec, hfinished, printed, hlists, hlargest⟩

end SkUtils.Ducpp.Listing
