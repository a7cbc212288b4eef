import Mathlib.Order.WithBot
import SkUtils.Containers.TopkLaw
import SkUtils.Ducpp.Scan

/-!
The queues of `ducpp` over paths whose files may be missing. `CompFileSize` puts a missing
path even before itself; its reversals compare ranks, in which a missing path comes below
every size.
-/

namespace SkUtils.Ducpp.Ranking

open SkUtils.Library.PriorityQueues
open SkUtils.Library.StrictWeakOrder
open SkUtils.Containers.TopkLaw
open SkUtils.Containers.TopkQueues
open SkUtils.Ducpp.Scan

variable {fs : FileSystem}

/-- The size of an existing file, below which is the rank of a missing path. -/
def rank (fs : FileSystem) (path : fs.Path) : WithBot Nat :=
  if validate fs path then .some (fs.fileSize path) else ⊥

section Comparators

theorem compFileSize_missing {path : fs.Path} (h : validate fs path = false) (other : fs.Path) :
    CompFileSize fs path other = true := by
  simp [CompFileSize, h]

theorem reversed_iff (a b : fs.Path) :
    reversed_type (CompFileSize fs) a b ↔ rank fs b < rank fs a := by
  cases ha : validate fs a with
  | false => simp [reversed_type, CompFileSize, rank, ha]
  | true =>
      cases hb : validate fs b with
      | false => simp [reversed_type, CompFileSize, rank, ha, hb]
      | true =>
          simp only [reversed_type, CompFileSize, rank, ha, hb, if_true, WithBot.coe_lt_coe]
          grind

instance : IsStrictWeakOrder fs.Path (RelOf (reversed_type (CompFileSize fs))) :=
  isStrictWeakOrder_of_key (fun path => OrderDual.toDual (rank fs path)) reversed_iff

theorem reversed_reversed_iff (a b : fs.Path) :
    reversed_type (reversed_type (CompFileSize fs)) a b ↔ rank fs a < rank fs b :=
  (reversed_type_iff a b).trans (reversed_iff b a)

theorem below_eq_rank :
    (fun a b : fs.Path => reversed_type (CompFileSize fs) b a = true) =
      fun a b => rank fs a < rank fs b := by
  funext a b
  exact propext (reversed_iff b a)

theorem above_eq_rank :
    (fun a b : fs.Path => reversed_type (reversed_type (CompFileSize fs)) b a = true) =
      fun a b => rank fs b < rank fs a := by
  funext a b
  exact propext (reversed_reversed_iff b a)

end Comparators

section Pushes

variable {T : Type*}

@[simp]
theorem topCalls_push (vals : List T) : topCalls (vals.map .push) = vals.map .push := by
  induction vals with
  | nil => rfl
  | cons val vals ih => rw [List.map_cons, topCalls, ih, List.map_cons]

@[simp]
theorem bottomCalls_push (vals : List T) : bottomCalls (vals.map .push) = vals.map .push := by
  induction vals with
  | nil => rfl
  | cons val vals ih => rw [List.map_cons, bottomCalls, ih, List.map_cons]

@[simp]
theorem pushedFrom_push (vs vals : List T) :
    pushedFrom vs (vals.map .push) = vs ++ vals := by
  induction vals generalizing vs with
  | nil => exact (List.append_nil vs).symm
  | cons val vals ih => rw [List.map_cons, pushedFrom, ih, List.append_assoc]; rfl

end Pushes

/-- Both queues have a comparator that `std::priority_queue` allows, and they rank missing
paths below the existing ones. -/
theorem ranks_missing_paths (fs : FileSystem) :
    (∀ path, validate fs path = false → CompFileSize fs path path = true) ∧
    IsStrictWeakOrder fs.Path (RelOf (reversed_type (CompFileSize fs))) ∧
    IsStrictWeakOrder fs.Path (RelOf (reversed_type (reversed_type (CompFileSize fs)))) ∧
    ∀ (maxStd : PriorityQueue fs.Path (reversed_type (CompFileSize fs)))
      (minStd : PriorityQueue fs.Path (reversed_type (reversed_type (CompFileSize fs))))
      (k : Nat), 1 ≤ k → ∀ paths : List fs.Path,
      ∃ q, (TopbottomkQueue.ofCapacity maxStd minStd k).run (paths.map .push) = some q ∧
        (∃ ret q', q.pop_top = some (ret, q') ∧
          Largest (fun a b => rank fs a < rank fs b) k paths ret) ∧
        ∃ ret q', q.pop_bottom = some (ret, q') ∧
          Largest (fun a b => rank fs b < rank fs a) k paths ret := by
  refine ⟨fun path h => compFileSize_missing h path, inferInstance, inferInstance, ?_⟩
  intro maxStd minStd k hk paths
  have hmax := keeps_empty (q := TopkQueue.ofCapacity maxStd k) rfl maxStd.contents_empty
  have hmin := keeps_empty (q := TopkQueue.ofCapacity minStd k) rfl minStd.contents_empty
  obtain ⟨q, hrun, hmax', hmin'⟩ := run_topbottom (q := .ofCapacity maxStd minStd k) hmax hmin hk
    (paths.map .push)
  rw [topCalls_push, pushedFrom_push, List.nil_append] at hmax'
  rw [bottomCalls_push, pushedFrom_push, List.nil_append] at hmin'
  obtain ⟨top, max_queue, htop, hlargest, -⟩ := hmax'.pop
  obtain ⟨bottom, min_queue, hbottom, hsmallest, -⟩ := hmin'.pop
  rw [below_eq_rank] at hlargest
  rw [above_eq_rank] at hsmallest
  exact ⟨q, hrun, ⟨top, { q with max_queue }, by simp [TopbottomkQueue.pop_top, htop], hlargest⟩,
    bottom, { q with min_queue }, by simp [TopbottomkQueue.pop_bottom, hbottom], hsmallest⟩

/-- Path 12 is missing. -/
def somePaths : List pairedFiles.Path :=
  [(3 : Nat), (12 : Nat), (8 : Nat)]

theorem ranks_missing_paths_somePaths :
    ∃ q, (TopbottomkQueue.ofCapacity (sortedListQueue (reversed_type (CompFileSize pairedFiles)))
        (sortedListQueue _) 2).run (somePaths.map .push) = some q ∧
      (∃ ret q', q.pop_top = some (ret, q') ∧
        Largest (fun a b => rank pairedFiles a < rank pairedFiles b) 2 somePaths ret) ∧
      ∃ ret q', q.pop_bottom = some (ret, q') ∧
        Largest (fun a b => rank pairedFiles b < rank pairedFiles a) 2 somePaths ret :=
  (ranks_missing_paths pairedFiles).2.2.2 (sortedListQueue _) (sortedListQueue _) 2 (by decide)
    somePaths

end SkUtils.Ducpp.Ranking
