import Mathlib.Data.List.Basic
import Mathlib.Logic.Function.Basic

/-!
Hashes that fold a step over a list. When the step is injective in the state and in the
letter, lists of one length that differ at one place have different hashes.
-/

namespace SkUtils.Library.FoldedHash

variable {σ α : Type*}

/-- Equally long, and different at exactly one place. -/
def DifferAtOne (xs ys : List α) : Prop :=
  xs.length = ys.length ∧ ∃! i : Nat, xs[i]? ≠ ys[i]?

/-- What stands before the place and behind it is the same. -/
theorem DifferAtOne.exists_split {xs ys : List α} (h : DifferAtOne xs ys) :
    ∃ before a b after, a ≠ b ∧ xs = before ++ a :: after ∧ ys = before ++ b :: after := by
  obtain ⟨hlength, i, hdiffer, honly⟩ := h
  have hsame : ∀ j, j ≠ i → xs[j]? = ys[j]? := by
    intro j hj
    by_contra hne
    exact hj (honly j hne)
  have hi : i < xs.length := by
    by_contra hle
    apply hdiffer
    rw [List.getElem?_eq_none (Nat.not_lt.mp hle),
      List.getElem?_eq_none (hlength ▸ Nat.not_lt.mp hle)]
  have hi' : i < ys.length := hlength ▸ hi
  have hbefore : ys.take i = xs.take i := by
    apply List.ext_getElem?
    intro j
    rw [List.getElem?_take, List.getElem?_take]
    split
    · exact (hsame j (by omega)).symm
    · rfl
  have hafter : ys.drop (i + 1) = xs.drop (i + 1) := by
    apply List.ext_getElem?
    intro j
    rw [List.getElem?_drop, List.getElem?_drop]
    exact (hsame (i + 1 + j) (by omega)).symm
  refine ⟨xs.take i, xs[i], ys[i], xs.drop (i + 1), ?_, ?_, ?_⟩
  · intro heq
    apply hdiffer
    rw [List.getElem?_eq_getElem hi, List.getElem?_eq_getElem hi', heq]
  · rw [List.getElem_cons_drop, List.take_append_drop]
  · rw [← hbefore, ← hafter, List.getElem_cons_drop, List.take_append_drop]

variable {step : σ → α → σ}

theorem foldl_injective (hstate : ∀ a, Function.Injective fun s => step s a) (xs : List α) :
    Function.Injective fun s => xs.foldl step s := by
  induction xs with
  | nil => exact Function.injective_id
  | cons a xs ih =>
      intro s t h
      exact hstate a (ih h)

theorem foldl_ne_of_differAtOne (hstate : ∀ a, Function.Injective fun s => step s a)
    (hletter : ∀ s, Function.Injective (step s)) {xs ys : List α} (h : DifferAtOne xs ys)
    (s : σ) : xs.foldl step s ≠ ys.foldl step s := by
  obtain ⟨before, a, b, after, hne, rfl, rfl⟩ := h.exists_split
  rw [List.foldl_append, List.foldl_append, List.foldl_cons, List.foldl_cons]
  intro heq
  exact hne (hletter _ (foldl_injective hstate after heq))

end SkUtils.Library.FoldedHash
