import SkUtils.Ducpp.Options
import SkUtils.Ducpp.Scan

/-!
The capacity of the queues, from the options `-t` and `-b` of `ducpp` down to the `push`
whose guard compares with it. No order of the comparator is assumed here.
-/

namespace SkUtils.Ducpp.Capacity

open SkUtils.Library.CheckedLoop
open SkUtils.Library.PriorityQueues
open SkUtils.Library.StrictWeakOrder
open SkUtils.Library.TransitionSystem
open SkUtils.Strings.StringUtils
open SkUtils.Arguments.ArgumentParser
open SkUtils.Arguments.ArgumentGrammar
open SkUtils.Arguments.ArgumentReading
open SkUtils.Arguments.ArgumentValues
open SkUtils.Arguments.ArgumentVariants hiding Call
open SkUtils.Containers.TopkQueues
open SkUtils.Containers.TopkLaw
open SkUtils.Ducpp.Options
open SkUtils.Ducpp.Scan

section Code

/-- What `main` passes on as `size_t`. -/
def capacity (ranking : Ranking) : Nat :=
  (max ranking.top_k ranking.bottom_k % 2 ^ 64).toNat

variable {fs : FileSystem} {maxStd : PriorityQueue (File fs) (reversed_type (fileComp fs))}
  {minStd : PriorityQueue (File fs) (reversed_type (reversed_type (fileComp fs)))}

def filter (extension : fs.Path → Str) (extentions : List Str) (p : fs.Path) : Bool :=
  if extentions = [] then true
  else if extension p ∈ extentions then true
  else false

/-- The loop of `main` over the paths: the pool of the current one, and the others. -/
structure MainState (maxStd : PriorityQueue (File fs) (reversed_type (fileComp fs)))
    (minStd : PriorityQueue (File fs) (reversed_type (reversed_type (fileComp fs)))) where
  pool : Scan.State maxStd minStd
  paths : List (Entry fs)

inductive MainAction
  | task (i : Nat)
  | nextPath

/-- `topN_pool` returns when all its futures are ready. -/
def mainStep (filter : fs.Path → Bool) (s : MainState maxStd minStd) :
    MainAction → Option (MainState maxStd minStd)
  | .task i => (Scan.step s.pool i).map fun pool => { s with pool }
  | .nextPath =>
      match s.paths with
      | [] => none
      | path :: paths =>
          if s.pool.tasks.all List.isEmpty then
            some { pool := { s.pool with tasks := tasks filter path }, paths }
          else none

def scan (maxStd : PriorityQueue (File fs) (reversed_type (fileComp fs)))
    (minStd : PriorityQueue (File fs) (reversed_type (reversed_type (fileComp fs))))
    (filter : fs.Path → Bool) (capacity : Nat) (paths : List (Entry fs)) :
    System (MainState maxStd minStd) MainAction where
  init := { pool := { top := .ofCapacity maxStd minStd capacity, tasks := [] }, paths }
  step := mainStep filter

end Code

section Queue

variable {T : Type*} {comp : T → T → Bool} {std : PriorityQueue T (reversed_type comp)}
  {q q' : TopkQueue std}

/-- A `push` that evaluates `pq.top()` finds `pq` non-empty. -/
def TopNonempty (q : TopkQueue std) : Prop :=
  ¬std.size q.pq < q.cap → std.size q.pq ≠ 0

theorem topNonempty_of_cap (hcap : q.cap ≠ 0) : TopNonempty q := by
  intro hfull
  omega

theorem size_ofCapacity (std : PriorityQueue T (reversed_type comp)) (capacity : Nat) :
    std.size (TopkQueue.ofCapacity std capacity).pq = 0 := by
  rw [std.size_eq, TopkQueue.ofCapacity, std.contents_empty, Multiset.card_zero]

theorem not_topNonempty (hcap : q.cap = 0) (hsize : std.size q.pq = 0) : ¬TopNonempty q := by
  intro h
  exact h (by omega) hsize

theorem exists_push (h : TopNonempty q) (val : T) :
    ∃ q', q.push val = some q' ∧ q'.cap = q.cap := by
  rw [TopkQueue.push]
  split
  case isTrue => exact ⟨_, rfl, rfl⟩
  case isFalse hfull =>
    obtain ⟨top, htop⟩ := std.exists_top q.pq fun hzero =>
      h hfull (by rw [std.size_eq, hzero, Multiset.card_zero])
    rw [htop]
    cases hval : reversed_type comp val top with
    | true => exact ⟨{ q with pq := std.pop (std.push q.pq val) }, by simp [hval], rfl⟩
    | false => exact ⟨q, by simp [hval], rfl⟩

theorem push_eq_none (h : ¬TopNonempty q) (val : T) : q.push val = none := by
  obtain ⟨hfull, hsize⟩ : ¬std.size q.pq < q.cap ∧ std.size q.pq = 0 := by
    simpa [TopNonempty] using h
  have htop : std.top q.pq = none := by
    cases htop : std.top q.pq with
    | none => rfl
    | some top =>
        rw [std.size_eq, std.contents_pop _ _ htop, Multiset.card_cons] at hsize
        exact absurd hsize (Nat.succ_ne_zero _)
  rw [TopkQueue.push, if_neg hfull, htop]
  rfl

theorem push_cap {val : T} (hpush : q.push val = some q') : q'.cap = q.cap := by
  rcases em (TopNonempty q) with htop | htop
  · obtain ⟨q₁, hpush₁, hcap⟩ := exists_push htop val
    obtain rfl : q₁ = q' := Option.some.inj (hpush₁.symm.trans hpush)
    exact hcap
  · rw [push_eq_none htop] at hpush
    cases hpush

theorem exists_pop (q : TopkQueue std) :
    ∃ ret q', q.pop = some (ret, q') ∧ q'.cap = q.cap ∧ std.size q'.pq = 0 := by
  obtain ⟨out, pq', hdrain, -, hempty, -⟩ := drain_spec _ q.pq [] rfl
  refine ⟨out.reverse, { q with pq := pq' }, by rw [TopkQueue.pop, hdrain]; rfl, rfl, ?_⟩
  rw [std.size_eq, hempty, Multiset.card_zero]

theorem run_cons (q : TopkQueue std) (call : Call T) (calls : List (Call T)) :
    q.run (call :: calls) = (q.apply call).bind fun q => q.run calls :=
  rfl

theorem exists_run (hcap : q.cap ≠ 0) (calls : List (Call T)) :
    ∃ q', q.run calls = some q' ∧ q'.cap = q.cap := by
  induction calls generalizing q with
  | nil => exact ⟨q, rfl, rfl⟩
  | cons call calls ih =>
      obtain ⟨q₁, happly, hcap₁⟩ : ∃ q₁, q.apply call = some q₁ ∧ q₁.cap = q.cap := by
        cases call with
        | push val => exact exists_push (topNonempty_of_cap hcap) val
        | pop =>
            obtain ⟨ret, q₁, hpop, hcap₁, -⟩ := exists_pop q
            exact ⟨q₁, by rw [TopkQueue.apply, hpop]; rfl, hcap₁⟩
      obtain ⟨q', hrun, hcap'⟩ := ih (hcap₁ ▸ hcap)
      exact ⟨q', by rw [run_cons, happly]; exact hrun, hcap'.trans hcap₁⟩

/-- Only `pop` returns on a queue without capacity. -/
theorem run_zero {calls : List (Call T)} (hcap : q.cap = 0) (hsize : std.size q.pq = 0)
    (hrun : q.run calls = some q') : q'.cap = 0 ∧ std.size q'.pq = 0 := by
  induction calls generalizing q with
  | nil =>
      obtain rfl := Option.some.inj hrun
      exact ⟨hcap, hsize⟩
  | cons call calls ih =>
      obtain ⟨q₁, happly, hrest⟩ := Option.bind_eq_some_iff.mp hrun
      cases call with
      | push val =>
          rw [TopkQueue.apply, push_eq_none (not_topNonempty hcap hsize)] at happly
          cases happly
      | pop =>
          obtain ⟨ret, q₂, hpop, hcap₂, hsize₂⟩ := exists_pop q
          obtain rfl : q₂ = q₁ := by simpa [TopkQueue.apply, hpop] using happly
          exact ih (hcap₂.trans hcap) hsize₂ hrest

/-- Every `push` of the calls is reached, and reads no top of an empty queue. -/
def TopsNonempty (std : PriorityQueue T (reversed_type comp)) (capacity : Nat)
    (calls : List (Call T)) : Prop :=
  ∀ before val after, calls = before ++ .push val :: after →
    ∃ q, (TopkQueue.ofCapacity std capacity).run before = some q ∧ TopNonempty q

theorem topsNonempty_iff (std : PriorityQueue T (reversed_type comp)) (capacity : Nat)
    (calls : List (Call T)) :
    TopsNonempty std capacity calls ↔ capacity ≠ 0 ∨ ∀ val, .push val ∉ calls := by
  constructor
  · intro htops
    refine or_iff_not_imp_left.mpr fun hzero val hmem => ?_
    obtain ⟨before, after, hcalls⟩ := List.append_of_mem hmem
    obtain ⟨q, hrun, htop⟩ := htops before val after hcalls
    obtain ⟨hcap, hsize⟩ :=
      run_zero (not_not.mp hzero) (size_ofCapacity std capacity) hrun
    exact not_topNonempty hcap hsize htop
  · rintro hcalls before val after rfl
    rcases hcalls with hcap | hnone
    · obtain ⟨q, hrun, hcap'⟩ := exists_run (q := .ofCapacity std capacity) hcap before
      exact ⟨q, hrun, topNonempty_of_cap (hcap' ▸ hcap)⟩
    · exact absurd (List.mem_append_right before List.mem_cons_self) (hnone val)

end Queue

section Scan

variable {fs : FileSystem} {maxStd : PriorityQueue (File fs) (reversed_type (fileComp fs))}
  {minStd : PriorityQueue (File fs) (reversed_type (reversed_type (fileComp fs)))}
  {filter : fs.Path → Bool} {capacity : Nat} {paths : List (Entry fs)}
  {s t : MainState maxStd minStd}

mutual

/-- A file that the filter accepts lies at the entry or below it. -/
def Accepts (filter : fs.Path → Bool) : Entry fs → Prop
  | .missing => False
  | .directory entries => AcceptsAny filter entries
  | .file path => filter path

def AcceptsAny (filter : fs.Path → Bool) : Entries fs → Prop
  | .nil => False
  | .cons entry rest => Accepts filter entry ∨ AcceptsAny filter rest

end

mutual

theorem steps_eq_nil_iff : ∀ entry : Entry fs, steps filter entry = [] ↔ ¬Accepts filter entry
  | .missing => by simp [steps, Accepts]
  | .directory entries => by rw [steps, Accepts, stepsAll_eq_nil_iff entries]
  | .file path => by simp [steps, Accepts]

theorem stepsAll_eq_nil_iff :
    ∀ entries : Entries fs, stepsAll filter entries = [] ↔ ¬AcceptsAny filter entries
  | .nil => by simp [stepsAll, AcceptsAny]
  | .cons entry rest => by
      rw [stepsAll, AcceptsAny, List.append_eq_nil_iff, steps_eq_nil_iff entry,
        stepsAll_eq_nil_iff rest, not_or]

end

def ReadsNonempty (top : TopbottomkQueue maxStd minStd) : QueueStep fs → Prop
  | .pushMax _ => TopNonempty top.max_queue
  | .pushMin _ => TopNonempty top.min_queue

/-- No task is about to read the top of an empty queue. -/
def TasksSafe (s : MainState maxStd minStd) : Prop :=
  ∀ (i : Nat) next rest, s.pool.tasks[i]? = some (next :: rest) → ReadsNonempty s.pool.top next

theorem mainStep_cases {a : MainAction} (hstep : mainStep filter s a = some t) :
    (∃ i pool, Scan.step s.pool i = some pool ∧ t = { s with pool }) ∨
    ∃ path rest, s.paths = path :: rest ∧
      t = { pool := { s.pool with tasks := tasks filter path }, paths := rest } := by
  cases a with
  | task i =>
      obtain ⟨pool, hpool, rfl⟩ := Option.map_eq_some_iff.mp hstep
      exact .inl ⟨i, pool, hpool, rfl⟩
  | nextPath =>
      rw [mainStep] at hstep
      split at hstep
      case h_1 => cases hstep
      case h_2 path rest hpaths =>
        split at hstep
        · exact .inr ⟨path, rest, hpaths, (Option.some.inj hstep).symm⟩
        · cases hstep

/-- The pool of a path has nothing to do where there is no file for the queues. -/
theorem completed_tasks_iff (top : TopbottomkQueue maxStd minStd) (path : Entry fs) :
    Completed { top, tasks := tasks filter path } ↔ ¬Accepts filter path := by
  rw [← steps_eq_nil_iff, ← tasks_flatten]
  exact List.flatten_eq_nil_iff.symm

structure Capped (capacity : Nat) (s : MainState maxStd minStd) : Prop where
  max : s.pool.top.max_queue.cap = capacity
  min : s.pool.top.min_queue.cap = capacity

theorem exec_cap {top top' : TopbottomkQueue maxStd minStd} {next : QueueStep fs}
    (hexec : next.exec top = some top') :
    top'.max_queue.cap = top.max_queue.cap ∧ top'.min_queue.cap = top.min_queue.cap := by
  cases next with
  | pushMax path =>
      obtain ⟨max_queue, hpush, rfl⟩ := Option.map_eq_some_iff.mp hexec
      exact ⟨push_cap hpush, rfl⟩
  | pushMin path =>
      obtain ⟨min_queue, hpush, rfl⟩ := Option.map_eq_some_iff.mp hexec
      exact ⟨rfl, push_cap hpush⟩

theorem Capped.step {a : MainAction} (h : Capped capacity s)
    (hstep : mainStep filter s a = some t) : Capped capacity t := by
  rcases mainStep_cases hstep with ⟨i, pool, hpool, rfl⟩ | ⟨path, paths, -, rfl⟩
  · obtain ⟨next, rest, -, hexec, -⟩ := step_cases hpool
    obtain ⟨hmax, hmin⟩ := exec_cap hexec
    exact ⟨hmax.trans h.max, hmin.trans h.min⟩
  · exact ⟨h.max, h.min⟩

theorem Capped.of_reachable (h : Reachable (scan maxStd minStd filter capacity paths) s) :
    Capped capacity s :=
  h.invariant (Capped capacity) ⟨rfl, rfl⟩ fun _ _ _ hstep hs => hs.step hstep

theorem Capped.tasksSafe (h : Capped capacity s) (hcap : capacity ≠ 0) : TasksSafe s := by
  intro i next rest hnext
  cases next with
  | pushMax path => exact topNonempty_of_cap (h.max ▸ hcap)
  | pushMin path => exact topNonempty_of_cap (h.min ▸ hcap)

/-- Where no path that the loop has come to has a file for the queues, the tasks have no
steps. -/
theorem tasks_idle (h : Reachable (scan maxStd minStd filter capacity paths) s)
    (hpaths : ∀ path ∈ paths, ¬Accepts filter path) : Completed s.pool := by
  refine (h.invariant (fun s => Completed s.pool ∧ ∀ path ∈ s.paths, path ∈ paths) ?_ ?_).1
  · exact ⟨by simp [Completed, scan], fun _ h => h⟩
  · rintro s a t hstep ⟨hdone, hleft⟩
    rcases mainStep_cases hstep with ⟨i, pool, hpool, rfl⟩ | ⟨path, rest, hrest, rfl⟩
    · obtain ⟨next, rest, hnext, -, -⟩ := step_cases hpool
      exact absurd (hdone _ (List.mem_of_getElem? hnext)) (List.cons_ne_nil _ _)
    · rw [hrest] at hleft
      obtain ⟨hpath, hall⟩ := List.forall_mem_cons.mp hleft
      exact ⟨(completed_tasks_iff s.pool.top path).mpr (hpaths path hpath), hall⟩

theorem exists_task {pool : Scan.State maxStd minStd} (h : ¬Completed pool) :
    ∃ (i : Nat) (next : QueueStep fs) (rest : List (QueueStep fs)),
      pool.tasks[i]? = some (next :: rest) := by
  obtain ⟨task, htask, hne⟩ : ∃ task ∈ pool.tasks, task ≠ [] := by
    simpa [Completed] using h
  obtain ⟨i, hi⟩ := List.mem_iff_getElem?.mp htask
  obtain ⟨next, rest, rfl⟩ := List.exists_cons_of_ne_nil hne
  exact ⟨i, next, rest, hi⟩

/-- The loop comes to the first path with a file for the queues, which are as they were. -/
theorem exists_task_of_accepts (hs : Reachable (scan maxStd minStd filter capacity paths) s)
    (hdone : Completed s.pool) {path : Entry fs} (hpath : path ∈ s.paths)
    (haccepts : Accepts filter path) :
    ∃ t, Reachable (scan maxStd minStd filter capacity paths) t ∧ t.pool.top = s.pool.top ∧
      ∃ (i : Nat) (next : QueueStep fs) (rest : List (QueueStep fs)),
        t.pool.tasks[i]? = some (next :: rest) := by
  obtain ⟨pool, left⟩ := s
  change path ∈ left at hpath
  induction left generalizing pool with
  | nil => cases hpath
  | cons first left ih =>
      have hall : pool.tasks.all List.isEmpty = true := by
        simpa [Completed] using hdone
      have hnext : (scan maxStd minStd filter capacity paths).step
          { pool, paths := first :: left } .nextPath =
            some { pool := { pool with tasks := tasks filter first }, paths := left } :=
        if_pos hall
      have hreached := hs.step hnext
      rcases em (Accepts filter first) with hfirst | hfirst
      · refine ⟨_, hreached, rfl, exists_task fun hidle => ?_⟩
        exact (completed_tasks_iff pool.top first).mp hidle hfirst
      · have hmem : path ∈ left := by
          rcases List.mem_cons.mp hpath with rfl | hmem
          · exact absurd haccepts hfirst
          · exact hmem
        have hidle : Completed { pool with tasks := tasks filter first } :=
          (completed_tasks_iff pool.top first).mpr hfirst
        exact ih { pool with tasks := tasks filter first } hreached hidle hmem

theorem tasksSafe_iff :
    (∀ s, Reachable (scan maxStd minStd filter capacity paths) s → TasksSafe s) ↔
      capacity ≠ 0 ∨ ∀ path ∈ paths, ¬Accepts filter path := by
  constructor
  · intro hsafe
    refine or_iff_not_imp_left.mpr fun hzero path hpath haccepts => ?_
    obtain rfl : capacity = 0 := not_not.mp hzero
    obtain ⟨t, ht, htop, i, next, rest, htask⟩ := exists_task_of_accepts
      (s := (scan maxStd minStd filter 0 paths).init) ⟨[], .start⟩ (by simp [Completed, scan])
      hpath haccepts
    have hreads := hsafe t ht i next rest htask
    rw [htop] at hreads
    cases next with
    | pushMax path => exact not_topNonempty rfl (size_ofCapacity maxStd 0) hreads
    | pushMin path => exact not_topNonempty rfl (size_ofCapacity minStd 0) hreads
  · rintro (hcap | hpaths) s hs
    · exact (Capped.of_reachable hs).tasksSafe hcap
    · intro i next rest hnext
      have hempty := tasks_idle hs hpaths _ (List.mem_of_getElem? hnext)
      exact absurd hempty (List.cons_ne_nil _ _)

end Scan

section Options

variable {D : Type} {stod : Str → Option D}

/-- The values of a C++ `int`. -/
def IsInt (n : Int) : Prop :=
  -2 ^ 31 ≤ n ∧ n < 2 ^ 31

def IntsInRange (info : ArgInfo D) : Prop :=
  ∀ n, info.value = .int n → IsInt n

theorem stoi_isInt {str : Str} {n : Int} (h : stoi str = some n) : IsInt n := by
  unfold stoi at h
  simp only [Option.ite_none_right_eq_some, Option.some.injEq] at h
  obtain ⟨⟨-, hbounds⟩, rfl⟩ := h
  exact hbounds

theorem convert_isInt {type : ArgType} {token : Str} {n : Int}
    (h : convert stod type token = some (.int n)) : IsInt n := by
  cases type with
  | INT =>
      obtain ⟨m, hm, heq⟩ := Option.map_eq_some_iff.mp h
      obtain rfl := ArgValueType.int.inj heq
      exact stoi_isInt hm
  | FLOAT =>
      obtain ⟨x, -, heq⟩ := Option.map_eq_some_iff.mp h
      cases heq
  | STR => cases h
  | BOOL => cases h
  | LIST => cases h

theorem isInt_of_group {types : Str → Option ArgType} {tokens back : List Str}
    {groups : List (OptionGroup D)} (h : Grouped types stod tokens groups back)
    {g : OptionGroup D} (hg : g ∈ groups) {n : Int} (hn : g.value = some (.int n)) : IsInt n := by
  cases g with
  | valued name token value =>
      obtain rfl := Option.some.inj hn
      obtain ⟨type, -, hconvert⟩ := h.converts hg
      exact convert_isInt hconvert
  | _ => cases hn

theorem update_inRange {info : ArgInfo D} {g : OptionGroup D} (h : IntsInRange info)
    (hg : ∀ n, g.value = some (.int n) → IsInt n) : IntsInRange (update info g) := by
  cases g with
  | flag name => nofun
  | missing type name => exact h
  | rejected type name provided => exact h
  | valued name token value =>
      intro n hn
      exact hg n (congrArg some hn)
  | list name run => nofun

theorem foldl_update_inRange {info : ArgInfo D} {groups : List (OptionGroup D)}
    (h : IntsInRange info) (hgroups : ∀ g ∈ groups, ∀ n, g.value = some (.int n) → IsInt n) :
    IntsInRange (groups.foldl update info) := by
  induction groups generalizing info with
  | nil => exact h
  | cons g groups ih =>
      obtain ⟨hfirst, hrest⟩ := List.forall_mem_cons.mp hgroups
      exact ih (update_inRange h hfirst) hrest

theorem forall_add_arg {parser : ArgParser D} {P : ArgInfo D → Prop} {info : ArgInfo D}
    (h : ∀ name info', parser.arg_info_mp name = some info' → P info') (hinfo : P info) :
    ∀ name info', (parser.add_arg info).1.arg_info_mp name = some info' → P info' := by
  rw [ArgParser.add_arg]
  split
  · exact forall_emplace h hinfo
  · exact h

theorem registered_inRange (file : Str) : ∀ name info,
    (prepare (used stod mainCalls) file).arg_info_mp name = some info → IntsInRange info := by
  have hadded : ∀ name info,
      (used stod mainCalls).arg_info_mp name = some info → IntsInRange info :=
    forall_add_arg (forall_add_arg (forall_add_arg (forall_add_arg nofun nofun) nofun) nofun) nofun
  exact forall_emplace (forall_emplace hadded nofun) nofun

variable {parser : ArgParser D} {current_path file : Str} {argv : List Str}
  {reports : List Report}

theorem parse_inRange
    (hparse : parse stod (used stod mainCalls) file argv = .ok (parser, reports)) :
    ∀ name info, parser.arg_info_mp name = some info → IntsInRange info := by
  rcases parse_ok_or (used_declared mainCalls_fresh) stod file argv with
    ⟨result, hresult, hskips⟩ | hthrows
  · obtain ⟨groups, back, hgrouped, houtcome, -⟩ := hskips
    obtain rfl : result = (parser, reports) := Except.ok.inj (hresult.symm.trans hparse)
    change parser = outcome _ _ _ _ at houtcome
    intro name info hinfo
    rw [houtcome, outcome, foldl_perform_eq] at hinfo
    obtain ⟨registered, hregistered, rfl⟩ := Option.map_eq_some_iff.mp hinfo
    refine foldl_update_inRange (registered_inRange file name registered hregistered) ?_
    intro g hg n hn
    exact isInt_of_group hgrouped (List.mem_of_mem_filter (List.mem_of_mem_filter hg)) hn
  · rw [hthrows] at hparse
    cases hparse

theorem get_or_isInt {arg : Str} {n : Int}
    (hrange : ∀ name info, parser.arg_info_mp name = some info → IntsInRange info)
    (hget : get_or parser .INT arg (0 : Int) = .ok n) : IsInt n := by
  change get .INT ((parser.get_value arg).getD (.int 0)) = .ok n at hget
  cases hvalue : parser.get_value arg with
  | none =>
      rw [hvalue] at hget
      obtain rfl : (0 : Int) = n := Except.ok.inj hget
      exact ⟨by decide, by decide⟩
  | some value =>
      rw [hvalue] at hget
      cases value with
      | int m =>
          obtain rfl : m = n := Except.ok.inj hget
          obtain ⟨info, hinfo, hgiven⟩ := Option.bind_eq_some_iff.mp hvalue
          obtain ⟨-, hm⟩ := Option.ite_none_right_eq_some.mp hgiven
          exact hrange arg info hinfo m (Option.some.inj hm)
      | _ => cases hget

theorem main_isInt {settings : Settings} {ranking : Ranking}
    (hmain : main stod current_path file argv = .ok (some settings))
    (hranking : settings.ranking = some ranking) :
    IsInt ranking.top_k ∧ IsInt ranking.bottom_k := by
  obtain ⟨⟨parser, reports⟩, hparse, hsettings⟩ := bind_eq_ok.mp hmain
  have hrange := parse_inRange hparse
  change Options.settings parser current_path = _ at hsettings
  rw [Options.settings] at hsettings
  split at hsettings
  · cases hsettings
  · obtain ⟨paths, hpaths, hrest⟩ := bind_eq_ok.mp hsettings
    split at hrest
    · obtain ⟨extentions, -, hrest⟩ := bind_eq_ok.mp hrest
      obtain ⟨top_k, htop, hrest⟩ := bind_eq_ok.mp hrest
      obtain ⟨bottom_k, hbottom, hrest⟩ := bind_eq_ok.mp hrest
      obtain rfl := Option.some.inj (Except.ok.inj hrest)
      obtain rfl := Option.some.inj hranking
      exact ⟨get_or_isInt hrange htop, get_or_isInt hrange hbottom⟩
    · obtain rfl := Option.some.inj (Except.ok.inj hrest)
      cases hranking

theorem capacity_eq_zero {ranking : Ranking} (htop : IsInt ranking.top_k)
    (hbottom : IsInt ranking.bottom_k) :
    capacity ranking = 0 ↔ max ranking.top_k ranking.bottom_k = 0 := by
  obtain ⟨htop, htop'⟩ := htop
  obtain ⟨hbottom, hbottom'⟩ := hbottom
  rw [capacity]
  omega

end Options

/-- `push` reads the top of an empty queue where it has no capacity, and so does the scan
where the larger of the two options is 0 and there is a file to push. -/
theorem reads_nonempty_tops_iff {T : Type*} {comp : T → T → Bool}
    (std : PriorityQueue T (reversed_type comp)) (cap : Nat) (calls : List (Call T))
    {D : Type} (stod : Str → Option D) (current_path file : Str) (argv : List Str)
    (settings : Settings) (ranking : Ranking) (fs : FileSystem)
    (maxStd : PriorityQueue (File fs) (reversed_type (fileComp fs)))
    (minStd : PriorityQueue (File fs) (reversed_type (reversed_type (fileComp fs))))
    (extension : fs.Path → Str) (found : Str → Entry fs) :
    (TopsNonempty std cap calls ↔ cap ≠ 0 ∨ ∀ val, .push val ∉ calls) ∧
    (main stod current_path file argv = .ok (some settings) →
      settings.ranking = some ranking →
      ((∀ s, Reachable (scan maxStd minStd (filter extension ranking.extentions)
          (capacity ranking) (settings.paths.map found)) s → TasksSafe s) ↔
        max ranking.top_k ranking.bottom_k ≠ 0 ∨
          ∀ path ∈ settings.paths,
            ¬Accepts (filter extension ranking.extentions) (found path))) := by
  constructor
  · exact topsNonempty_iff std cap calls
  · intro hmain hranking
    obtain ⟨htop, hbottom⟩ := main_isInt hmain hranking
    rw [tasksSafe_iff, ne_eq, capacity_eq_zero htop hbottom]
    simp

/-- The settings of `ducpp -t` in the directory `here`. -/
def settingsOf (top_k : Int) : Settings where
  paths := ["here".toList]
  ranking := some { extentions := [], top_k, bottom_k := 0 }

def scanPaired (capacity : Nat) :=
  scan (sortedListQueue (reversed_type (fileComp pairedFiles))) (sortedListQueue _)
    (filter (fun _ => []) []) capacity [pairedTree]

theorem reads_nonempty_tops_iff_two :
    (∀ s, Reachable (scanPaired 2) s → TasksSafe s) ∧
    TopsNonempty (sortedListQueue (reversed_type (less : Nat → Nat → Bool))) 2 [.push 3, .pop] := by
  have hmain : main stoi "here".toList "ducpp".toList ["-t".toList, "2".toList] =
      .ok (some (settingsOf 2)) := rfl
  obtain ⟨hqueue, hscan⟩ := reads_nonempty_tops_iff
    (sortedListQueue (reversed_type (less : Nat → Nat → Bool))) 2 [.push 3, .pop]
    stoi "here".toList "ducpp".toList ["-t".toList, "2".toList] (settingsOf 2)
    { extentions := [], top_k := 2, bottom_k := 0 } pairedFiles (sortedListQueue _)
    (sortedListQueue _) (fun _ => []) fun _ => pairedTree
  exact ⟨(hscan hmain rfl).mpr (.inl (by decide)), hqueue.mpr (.inl (by decide))⟩

/-- `ducpp -t 0`, and a queue of capacity 0. -/
theorem reads_empty_top :
    main stoi "here".toList "ducpp".toList ["-t".toList, "0".toList] =
      .ok (some (settingsOf 0)) ∧
    (∃ s, Reachable (scanPaired 0) s ∧ ¬TasksSafe s) ∧
    ¬TopsNonempty (sortedListQueue (reversed_type (less : Nat → Nat → Bool))) 0 [.push 3] := by
  refine ⟨rfl, ?_, ?_⟩
  · have hnext : ∃ s, exec (scanPaired 0) (scanPaired 0).init [.nextPath] = some s ∧
        ¬TasksSafe s :=
      ⟨_, rfl, fun hsafe => not_topNonempty rfl rfl (hsafe 0 _ _ rfl)⟩
    obtain ⟨s, hexec, hunsafe⟩ := hnext
    exact ⟨s, reachable_of_exec hexec, hunsafe⟩
  · intro htops
    obtain ⟨q, hrun, htop⟩ := htops [] 3 [] rfl
    obtain rfl := Option.some.inj hrun
    exact not_topNonempty rfl rfl htop

end SkUtils.Ducpp.Capacity
