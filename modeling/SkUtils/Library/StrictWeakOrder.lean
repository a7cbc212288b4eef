import Mathlib.Order.Lattice
import Mathlib.Order.RelClasses

/-!
Strict weak orders, the contract of a comparator: incomparability is an
equivalence, so "not greater" is transitive.
-/

namespace SkUtils.Library.StrictWeakOrder

/-- A comparator as a relation. -/
abbrev RelOf {α : Type*} (comp : α → α → Bool) (a b : α) : Prop :=
  comp a b = true

variable {α : Type*}

theorem incomp_trans_of (r : α → α → Prop) [IsStrictWeakOrder α r] {a b c : α}
    (hab : ¬ r a b ∧ ¬ r b a) (hbc : ¬ r b c ∧ ¬ r c b) : ¬ r a c ∧ ¬ r c a :=
  IsStrictWeakOrder.incomp_trans a b c hab hbc

/-- Negative transitivity. -/
theorem not_rel_trans {r : α → α → Prop} [IsStrictWeakOrder α r] {a b c : α} (hab : ¬ r a b)
    (hbc : ¬ r b c) : ¬ r a c := by
  intro hac
  have hba : ¬ r b a := fun h => hbc (trans_of r h hac)
  have hcb : ¬ r c b := fun h => hab (trans_of r hac h)
  exact (incomp_trans_of r ⟨hab, hba⟩ ⟨hbc, hcb⟩).1 hac

section LinearOrder

variable {β : Type*} [LinearOrder β]

def less (a b : β) : Bool :=
  decide (a < b)

def greater (a b : β) : Bool :=
  less b a

instance : IsStrictWeakOrder β (RelOf less) where
  irrefl := by simp [RelOf, less]
  trans := by
    intro a b c hab hbc
    simp only [RelOf, less, decide_eq_true_eq] at hab hbc ⊢
    exact lt_trans hab hbc
  incomp_trans := by
    intro a b c hab hbc
    simp only [RelOf, less, decide_eq_true_eq, not_lt] at hab hbc ⊢
    exact ⟨le_trans hbc.1 hab.1, le_trans hab.2 hbc.2⟩

instance : IsStrictWeakOrder β (RelOf greater) where
  irrefl := irrefl_of (RelOf less)
  trans := fun _ _ _ hab hbc => trans_of (RelOf less) hbc hab
  incomp_trans := fun _ _ _ hab hbc => incomp_trans_of (RelOf less) hbc hab

/-- A comparator that compares keys. -/
theorem isStrictWeakOrder_of_key {comp : α → α → Bool} (key : α → β)
    (h : ∀ a b, comp a b ↔ key a < key b) : IsStrictWeakOrder α (RelOf comp) := by
  have hrel : RelOf comp = Order.Preimage key (RelOf less) := by
    funext a b
    exact propext ((h a b).trans decide_eq_true_iff.symm)
  rw [hrel]
  infer_instance

end LinearOrder

end SkUtils.Library.StrictWeakOrder
