import Mathlib.Algebra.BigOperators.Group.Finset.Basic
import Mathlib.Algebra.Order.BigOperators.Group.Finset
import Mathlib.Data.Fintype.BigOperators

/-!
Counting over a finite family of processes, one of which moves at a time.
-/

namespace SkUtils.Library.Processes

variable {ι α : Type*}

/-- The total weight changes by the weights of the process that moves. -/
theorem sum_update_add [Fintype ι] [DecidableEq ι] {M : Type*} [AddCommMonoid M]
    (weight : α → M) (pcs : ι → α) (j : ι) (x : α) :
    ∑ i, weight (Function.update pcs j x i) + weight (pcs j) =
      ∑ i, weight (pcs i) + weight x := by
  have hnew := Finset.add_sum_erase Finset.univ
    (fun i => weight (Function.update pcs j x i)) (Finset.mem_univ j)
  have hold := Finset.add_sum_erase Finset.univ (fun i => weight (pcs i))
    (Finset.mem_univ j)
  have hothers : ∑ i ∈ Finset.univ.erase j, weight (Function.update pcs j x i) =
      ∑ i ∈ Finset.univ.erase j, weight (pcs i) := by
    apply Finset.sum_congr rfl
    intro i hi
    rw [Function.update_of_ne (Finset.ne_of_mem_erase hi)]
  rw [← hnew, ← hold, hothers]
  simp only [Function.update_self]
  ac_rfl

theorem sum_update_weight [Fintype ι] [DecidableEq ι] (weight : α → Nat) (pcs : ι → α)
    (j : ι) (x : α) :
    ∑ i, weight (Function.update pcs j x i) + weight (pcs j) =
      ∑ i, weight (pcs i) + weight x :=
  sum_update_add weight pcs j x

theorem weight_le_sum [Fintype ι] (weight : α → Nat) (pcs : ι → α) (j : ι) :
    weight (pcs j) ≤ ∑ i, weight (pcs i) :=
  Finset.single_le_sum (f := fun i => weight (pcs i)) (fun _ _ => Nat.zero_le _)
    (Finset.mem_univ j)

theorem weight_add_weight_le_sum [Fintype ι] [DecidableEq ι] (weight : α → Nat)
    (pcs : ι → α) {i j : ι} (hij : i ≠ j) :
    weight (pcs i) + weight (pcs j) ≤ ∑ k, weight (pcs k) := by
  calc
    weight (pcs i) + weight (pcs j) = ∑ k ∈ {i, j}, weight (pcs k) :=
      (Finset.sum_pair (f := fun k => weight (pcs k)) hij).symm
    _ ≤ ∑ k, weight (pcs k) := Finset.sum_le_sum_of_subset (Finset.subset_univ _)

/-- A predicate that holds of the new state and held of all the others holds of
all of them. -/
theorem forall_update [DecidableEq ι] {P : α → Prop} {pcs : ι → α} (h : ∀ i, P (pcs i))
    {j : ι} {x : α} (hx : P x) (i : ι) : P (Function.update pcs j x i) := by
  by_cases hij : i = j
  · subst i
    simpa using hx
  · simpa [Function.update_of_ne hij] using h i

/-- What holds of a process after a move that does not bring it about held before. -/
theorem of_update [DecidableEq ι] {P : α → Prop} {pcs : ι → α} {j : ι} {x : α}
    (hx : P x → P (pcs j)) (i : ι) (h : P (Function.update pcs j x i)) : P (pcs i) := by
  by_cases hij : i = j
  · subst i
    exact hx (by simpa using h)
  · simpa [Function.update_of_ne hij] using h

theorem update_eq_of_ne [DecidableEq ι] {pcs : ι → α} {i j : ι} {x y : α} (hi : pcs i = x)
    (hj : pcs j ≠ x) : Function.update pcs j y i = x := by
  have hij : i ≠ j := by
    rintro rfl
    exact hj hi
  rwa [Function.update_of_ne hij]

end SkUtils.Library.Processes
