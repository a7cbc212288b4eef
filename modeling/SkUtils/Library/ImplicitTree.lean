import Mathlib.Algebra.Order.Interval.Finset.SuccPred
import Mathlib.Data.Finset.Image
import Mathlib.Data.Nat.SuccPred
import Mathlib.Order.Interval.Finset.Nat
import SkUtils.Library.StrictWeakOrder

/-!
Complete binary trees stored in an array from slot 1: the parent of slot `k` is
slot `k / 2`. The order of such a tree and its elements, and what one exchange of a
parent and a child does to them.
-/

namespace SkUtils.Library.ImplicitTree

open SkUtils.Library.StrictWeakOrder

variable {α : Type*} (r : α → α → Prop)

/-- No parent among the first `n` slots stands in the relation to its child. -/
def Ordered (d : Nat → α) (n : Nat) : Prop :=
  ∀ k, 2 ≤ k → k ≤ n → ¬ r (d (k / 2)) (d k)

/-- The order below the parents from `low` on. -/
def OrderedFrom (low : Nat) (d : Nat → α) (n : Nat) : Prop :=
  ∀ k, 2 ≤ k → k ≤ n → low ≤ k / 2 → ¬ r (d (k / 2)) (d k)

/-- The order below the parents from `low` on, broken at most between the parent
`hole` and its children, which are in order with the parent of `hole`. -/
structure OrderedExcept (low hole : Nat) (d : Nat → α) (n : Nat) : Prop where
  off : ∀ k, 2 ≤ k → k ≤ n → low ≤ k / 2 → k / 2 ≠ hole → ¬ r (d (k / 2)) (d k)
  across : low ≤ hole / 2 → ∀ k, 2 ≤ k → k ≤ n → k / 2 = hole →
    ¬ r (d (hole / 2)) (d k)

def exchange (d : Nat → α) (i j : Nat) : Nat → α :=
  fun k => d (Equiv.swap i j k)

@[simp] theorem exchange_left (d : Nat → α) (i j : Nat) : exchange d i j i = d j := by
  simp [exchange]

@[simp] theorem exchange_right (d : Nat → α) (i j : Nat) : exchange d i j j = d i := by
  simp [exchange]

theorem exchange_of_ne (d : Nat → α) {i j k : Nat} (hi : k ≠ i) (hj : k ≠ j) :
    exchange d i j k = d k := by
  simp [exchange, Equiv.swap_apply_of_ne_of_ne hi hj]

section Elements

/-- The elements in the slots 1 to `n`. -/
def elements (d : Nat → α) (n : Nat) : Multiset α :=
  (Finset.Icc 1 n).val.map d

theorem elements_succ (d : Nat → α) (n : Nat) :
    elements d (n + 1) = d (n + 1) ::ₘ elements d n := by
  have hslots : Finset.Icc 1 (n + 1) = insert (n + 1) (Finset.Icc 1 n) :=
    (Finset.insert_Icc_right_eq_Icc_add_one (by omega)).symm
  rw [elements, hslots, Finset.insert_val_of_notMem (by simp), Multiset.map_cons]
  rfl

theorem elements_congr {d d' : Nat → α} {n : Nat} (h : ∀ k, 1 ≤ k → k ≤ n → d k = d' k) :
    elements d n = elements d' n := by
  apply Multiset.map_congr rfl
  intro k hk
  rw [Finset.mem_val, Finset.mem_Icc] at hk
  exact h k hk.1 hk.2

theorem mem_elements {d : Nat → α} {n : Nat} {a : α} :
    a ∈ elements d n ↔ ∃ k, 1 ≤ k ∧ k ≤ n ∧ d k = a := by
  simp [elements, and_assoc]

/-- An exchange within the tree loses no element and doubles none. -/
theorem elements_exchange (d : Nat → α) {n i j : Nat} (hi : 1 ≤ i) (hin : i ≤ n) (hj : 1 ≤ j)
    (hjn : j ≤ n) : elements (exchange d i j) n = elements d n := by
  have hslots : (Finset.Icc 1 n).map (Equiv.swap i j).toEmbedding = Finset.Icc 1 n := by
    apply Finset.map_perm
    intro k hk
    have hmoved := Equiv.swap_apply_ne_self_iff.mp hk
    rw [Finset.mem_coe, Finset.mem_Icc]
    omega
  calc
    elements (exchange d i j) n =
        ((Finset.Icc 1 n).map (Equiv.swap i j).toEmbedding).val.map d := by
      rw [Finset.map_val, Multiset.map_map]
      rfl
    _ = elements d n := by
      rw [hslots]
      rfl

end Elements

variable {r}

theorem OrderedFrom.ordered {d : Nat → α} {n : Nat} (h : OrderedFrom r 1 d n) :
    Ordered r d n :=
  fun k hk hkn => h k hk hkn (by omega)

theorem OrderedExcept.orderedFrom {d : Nat → α} {n low hole : Nat}
    (h : OrderedExcept r low hole d n)
    (hchildren : ∀ k, 2 ≤ k → k ≤ n → k / 2 = hole → ¬ r (d hole) (d k)) :
    OrderedFrom r low d n := by
  intro k hk hkn hlow
  by_cases hhole : k / 2 = hole
  · rw [hhole]
    exact hchildren k hk hkn hhole
  · exact h.off k hk hkn hlow hhole

theorem OrderedFrom.except {d : Nat → α} {n low : Nat} (hlow : 1 ≤ low)
    (h : OrderedFrom r (low + 1) d n) : OrderedExcept r low low d n where
  off := fun k hk hkn hparent hne => h k hk hkn (by omega)
  across := fun hup => absurd hup (by omega)

variable [IsStrictWeakOrder α r]

theorem Ordered.root {d : Nat → α} {n : Nat} (h : Ordered r d n) (k : Nat)
    (hk : 1 ≤ k) (hkn : k ≤ n) : ¬ r (d 1) (d k) := by
  induction k using Nat.strongRecOn with
  | ind k ih =>
      rcases Nat.lt_or_ge k 2 with hsmall | hlarge
      · obtain rfl : k = 1 := by omega
        exact irrefl (d 1)
      · exact not_rel_trans (ih (k / 2) (by omega) (by omega) (by omega))
          (h k hlarge hkn)

/-- Exchanging the hole with the child that comes first moves the hole down. -/
theorem OrderedExcept.down {d : Nat → α} {n low hole child : Nat}
    (h : OrderedExcept r low hole d n) (hchild : child / 2 = hole) (hhole : 1 ≤ hole)
    (hn : child ≤ n) (hrel : r (d hole) (d child))
    (hfirst : ∀ k, 2 ≤ k → k ≤ n → k / 2 = hole → ¬ r (d child) (d k)) :
    OrderedExcept r low child (exchange d hole child) n where
  off := by
    intro k hk hkn hlow hparent
    by_cases hkhole : k = hole
    · subst k
      rw [exchange_left, exchange_of_ne d (by omega) (by omega)]
      exact h.across hlow child (by omega) hn hchild
    · by_cases hsibling : k / 2 = hole
      · rw [hsibling, exchange_left]
        by_cases hkchild : k = child
        · subst k
          rw [exchange_right]
          exact asymm hrel
        · rw [exchange_of_ne d hkhole hkchild]
          exact hfirst k hk hkn hsibling
      · have hkchild : k ≠ child := by
          rintro rfl
          exact hsibling hchild
        rw [exchange_of_ne d hsibling hparent, exchange_of_ne d hkhole hkchild]
        exact h.off k hk hkn hlow hsibling
  across := by
    intro hlow k hk hkn hparent
    rw [hchild, exchange_left, exchange_of_ne d (by omega) (by omega), ← hparent]
    exact h.off k hk hkn (by omega) (by omega)

end SkUtils.Library.ImplicitTree
