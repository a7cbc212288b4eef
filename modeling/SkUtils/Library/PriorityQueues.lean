import Mathlib.Data.Multiset.Basic
import SkUtils.Library.StrictWeakOrder

/-!
Priority queues over a comparator: the contents are a multiset, and the top is an
element that is not less than any other; which of several such elements it is stays open.
-/

namespace SkUtils.Library.PriorityQueues

open SkUtils.Library.StrictWeakOrder

universe u

/-- A priority queue whose top is maximal for `less`; an empty queue has no top. -/
structure PriorityQueue (α : Type u) (less : α → α → Bool) where
  Queue : Type u
  empty : Queue
  size : Queue → Nat
  top : Queue → Option α
  push : Queue → α → Queue
  pop : Queue → Queue
  contents : Queue → Multiset α
  contents_empty : contents empty = 0
  size_eq : ∀ q, size q = (contents q).card
  contents_push : ∀ q a, contents (push q a) = a ::ₘ contents q
  exists_top : ∀ q, contents q ≠ 0 → ∃ a, top q = some a
  top_maximal : ∀ q a, top q = some a → ∀ b ∈ contents q, ¬ less a b
  contents_pop : ∀ q a, top q = some a → contents q = a ::ₘ contents (pop q)

section SortedList

variable {α : Type u} (less : α → α → Bool)

/-- Before the first element that is less. -/
def insertSorted (a : α) : List α → List α
  | [] => [a]
  | b :: bs => if less b a then a :: b :: bs else b :: insertSorted a bs

theorem insertSorted_perm (a : α) (bs : List α) :
    (insertSorted less a bs).Perm (a :: bs) := by
  induction bs with
  | nil => exact .refl _
  | cons b bs ih =>
      rw [insertSorted]
      split
      · exact .refl _
      · exact (ih.cons b).trans (.swap a b bs)

theorem insertSorted_pairwise [IsStrictWeakOrder α (RelOf less)] (a : α) {bs : List α}
    (h : bs.Pairwise fun b c => ¬ RelOf less b c) :
    (insertSorted less a bs).Pairwise fun b c => ¬ RelOf less b c := by
  induction bs with
  | nil => exact List.pairwise_singleton ..
  | cons b bs ih =>
      obtain ⟨hfirst, hrest⟩ := List.pairwise_cons.mp h
      rw [insertSorted]
      split
      · rename_i hba
        have hab : ¬ RelOf less a b := fun hab => asymm_of (RelOf less) hba hab
        refine List.pairwise_cons.mpr ⟨?_, h⟩
        refine List.forall_mem_cons.mpr ⟨hab, ?_⟩
        exact fun c hc => not_rel_trans hab (hfirst c hc)
      · rename_i hba
        refine List.pairwise_cons.mpr ⟨?_, ih hrest⟩
        intro c hc
        rcases List.mem_cons.mp ((insertSorted_perm less a bs).mem_iff.mp hc) with rfl | hc
        · exact hba
        · exact hfirst c hc

/-- The lists in which no element is less than a later one. -/
def sortedListQueue [IsStrictWeakOrder α (RelOf less)] : PriorityQueue α less where
  Queue := { bs : List α // bs.Pairwise fun b c => ¬ RelOf less b c }
  empty := ⟨[], .nil⟩
  size := fun q => q.1.length
  top := fun q => q.1.head?
  push := fun q a => ⟨insertSorted less a q.1, insertSorted_pairwise less a q.2⟩
  pop := fun q => ⟨q.1.tail, q.2.tail⟩
  contents := fun q => q.1
  contents_empty := rfl
  size_eq := fun q => (Multiset.coe_card q.1).symm
  contents_push := fun q a => Multiset.coe_eq_coe.mpr (insertSorted_perm less a q.1)
  exists_top := by
    rintro ⟨bs, _⟩ hne
    cases bs with
    | nil => exact absurd rfl hne
    | cons b bs => exact ⟨b, rfl⟩
  top_maximal := by
    rintro ⟨bs, hbs⟩ a htop
    cases bs with
    | nil => cases htop
    | cons b bs =>
        obtain rfl := Option.some.inj htop
        intro c hc
        rcases List.mem_cons.mp hc with rfl | hc
        · exact irrefl_of (RelOf less) c
        · exact (List.pairwise_cons.mp hbs).1 c hc
  contents_pop := by
    rintro ⟨bs, _⟩ a htop
    cases bs with
    | nil => cases htop
    | cons b bs =>
        obtain rfl := Option.some.inj htop
        rfl

end SortedList

end SkUtils.Library.PriorityQueues
