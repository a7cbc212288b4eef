import Mathlib.Data.List.Induction
import Mathlib.Data.Nat.Basic
import SkUtils.Containers.HeapOperations
import SkUtils.Library.StrictWeakOrder

/-!
The order of `Heap`. While the indices fit in `int`, `buildHeap` and `pop` establish that
no parent compares before its child, and `adjustUp` compares the other way round: `push`
keeps the order only when it has nothing to move.
-/

namespace SkUtils.Containers.HeapOrder

open SkUtils.Containers.HeapOperations
open SkUtils.Library.ImplicitTree
open SkUtils.Library.StrictWeakOrder

variable {α : Type*} [Inhabited α] {comp : α → α → Bool}

/-- `not comp(data[k / 2], data[k])` for all `2 ≤ k ≤ elemNums`. -/
def InOrder (comp : α → α → Bool) (h : Heap α) : Prop :=
  Ordered (RelOf comp) h.get h.elemNums

/-- No live element `e` satisfies `comp(top, e)`. -/
def TopExtremal (comp : α → α → Bool) (h : Heap α) : Prop :=
  ∀ v, h.top = .ok v → ∀ k, 1 ≤ k → k ≤ h.elemNums → ¬ comp v (h.get k)

theorem inOrder_empty : InOrder comp (Heap.empty : Heap α) := by
  intro k hk hkn
  simp only [Heap.empty] at hkn
  omega

section Down

variable [IsStrictWeakOrder α (RelOf comp)]

theorem firstChild_first (data : List α) {n k : Nat} (c : Nat) (hcn : c ≤ n)
    (hc : c / 2 = k) :
    ¬ RelOf comp (slot data (firstChild comp data n k)) (slot data c) := by
  obtain rfl | rfl : c = 2 * k ∨ c = 2 * k + 1 := by omega
  · unfold firstChild
    split
    · rename_i hright
      simp only [Bool.and_eq_true, decide_eq_true_eq] at hright
      exact asymm hright.2
    · exact irrefl _
  · unfold firstChild
    split
    · exact irrefl _
    · rename_i hleft
      simp only [Bool.and_eq_true, decide_eq_true_eq, not_and] at hleft
      exact hleft (by omega)

theorem adjustDown_orderedFrom {data data' : List α} {n k low : Nat} (hk : 1 ≤ k)
    (hn : n < data.length) (hdown : adjustDown comp data n k = some data')
    (h : OrderedExcept (RelOf comp) low k (slot data) n) :
    OrderedFrom (RelOf comp) low (slot data') n := by
  fun_induction adjustDown comp data n k with
  | case1 data k _ hloop hrel ih =>
      have hbounds := firstChild_bounds comp data hloop.2
      apply ih (by omega) (by simpa using hn) hdown
      rw [slot_swap data (by omega) (by omega)]
      exact h.down (by omega) hk hbounds.2.2 hrel
        fun c _ hcn hc => firstChild_first data c hcn hc
  | case2 data k _ hloop hstop =>
      obtain rfl := Option.some.inj hdown
      apply h.orderedFrom
      intro c _ hcn hc
      exact not_rel_trans hstop (firstChild_first data c hcn hc)
  | case3 data k _ hleaf =>
      obtain rfl := Option.some.inj hdown
      apply h.orderedFrom
      intro c hc2 hcn hc
      omega
  | case4 => cases hdown

theorem buildHeap_orderedFrom {data data' : List α} {n i : Nat} (hn : n < data.length)
    (hbuild : buildHeap comp data n i = some data')
    (h : OrderedFrom (RelOf comp) (i + 1) (slot data) n) :
    OrderedFrom (RelOf comp) 1 (slot data') n := by
  induction i generalizing data with
  | zero =>
      obtain rfl := Option.some.inj hbuild
      exact h
  | succ i ih =>
      obtain ⟨next, hdown, hrest⟩ := Option.bind_eq_some_iff.mp hbuild
      apply ih (by rw [length_adjustDown comp hdown]; exact hn) hrest
      exact adjustDown_orderedFrom (by omega) hn hdown (h.except (by omega))

theorem inOrder_ofVector {vals : List α} {h : Heap α} (hsize : vals.length < 2 ^ 30)
    (hvector : Heap.ofVector comp vals = some h) : InOrder comp h := by
  obtain ⟨helems, hbuild⟩ := Heap.ofVector_cases hvector
  rw [index_eq (by omega)] at hbuild
  rw [InOrder, helems]
  apply OrderedFrom.ordered
  apply buildHeap_orderedFrom (by simp) hbuild
  intro k _ hkn hparent
  omega

theorem inOrder_heap {c : Construction α} {h : Heap α} (hsize : c.elements.length < 2 ^ 30)
    (hheap : c.heap comp = some h) : InOrder comp h := by
  cases c with
  | empty =>
      obtain rfl := Option.some.inj hheap
      exact inOrder_empty
  | ofVector vals => exact inOrder_ofVector hsize hheap

theorem InOrder.topExtremal {h : Heap α} (hord : InOrder comp h) : TopExtremal comp h := by
  intro v hv k hk hkn
  simp only [Heap.top, show 1 ≤ h.elemNums by omega, if_true, Except.ok.injEq] at hv
  rw [← hv]
  exact Ordered.root hord k hk hkn

theorem InOrder.pop {h h' : Heap α} (hord : InOrder comp h) (hpop : h.pop comp = some h') :
    InOrder comp h' := by
  have hbound := h.bound
  rcases Heap.pop_cases hpop with ⟨-, rfl⟩ | ⟨hpos, helems, hdown⟩
  · exact hord
  · rw [InOrder, helems]
    apply OrderedFrom.ordered
    apply adjustDown_orderedFrom (le_refl 1) (by simp; omega) hdown
    rw [slot_swap _ (by omega) hbound]
    refine ⟨?_, by omega⟩
    intro k hk hkn _ hroot
    rw [exchange_of_ne _ (by omega) (by omega), exchange_of_ne _ (by omega) (by omega)]
    exact hord k hk (by omega)

end Down

section Up

/-- `adjustUp` lifts a value over those that it compares before, and leaves such a
pair of parent and child behind. -/
theorem not_ordered_adjustUp (data : List α) (k n : Nat) (hn : n < data.length)
    (hk : 1 ≤ k) (c : Nat) (hcn : c ≤ n) (hc : c / 2 = k)
    (hrel : comp (slot data k) (slot data c)) :
    ¬ Ordered (RelOf comp) (slot (adjustUp comp data k)) n := by
  fun_induction adjustUp comp data k generalizing c with
  | case1 data k hloop ih =>
      apply ih (by simpa using hn) (by omega) k (by omega) rfl
      rw [slot_swap data (by omega) (by omega), exchange_right, exchange_left]
      exact hloop.2
  | case2 data k _ =>
      intro hord
      exact hord c (by omega) hcn (hc ▸ hrel)

/-- The pushed value and the value in its parent slot do not compare. -/
def Tied (comp : α → α → Bool) (h : Heap α) : Op α → Prop
  | .push val => h.elemNums = 0 ∨
      ¬ comp val (h.get ((h.elemNums + 1) / 2)) ∧
        ¬ comp (h.get ((h.elemNums + 1) / 2)) val
  | .pop => True

theorem inOrder_push_of_tied {h : Heap α} (hord : InOrder comp h) {val : α}
    (hfits : h.Fits (.push val)) (htied : Tied comp h (.push val)) :
    InOrder comp (h.push comp val) := by
  have hstop : ¬ (1 < h.elemNums + 1 ∧ comp (slot (h.extended val) (h.elemNums + 1))
      (slot (h.extended val) ((h.elemNums + 1) / 2))) := by
    rintro ⟨hpos, hrel⟩
    rw [h.slot_extended_last, h.slot_extended val (by omega)] at hrel
    rcases htied with hzero | htied
    · omega
    · exact htied.1 hrel
  intro k hk hkn
  change k ≤ h.elemNums + 1 at hkn
  simp only [Heap.get, Heap.push]
  rw [index_eq hfits, adjustUp, dif_neg hstop, h.slot_extended val (by omega)]
  rcases Nat.lt_or_ge h.elemNums k with hlast | hold
  · obtain rfl : k = h.elemNums + 1 := by omega
    rw [h.slot_extended_last]
    rcases htied with hzero | htied
    · omega
    · exact htied.2
  · rw [h.slot_extended val hold]
    exact hord k hk hold

theorem tied_of_inOrder_push [IsStrictWeakOrder α (RelOf comp)] {h : Heap α} {val : α}
    (hfits : h.Fits (.push val)) (hord : InOrder comp (h.push comp val)) :
    Tied comp h (.push val) := by
  change Ordered (RelOf comp) (slot (adjustUp comp (h.extended val) (index (h.elemNums + 1))))
    (h.elemNums + 1) at hord
  rw [index_eq hfits] at hord
  by_contra hnot
  simp only [Tied, not_or, not_and, not_not] at hnot
  obtain ⟨hzero, hcompares⟩ := hnot
  have hparent := h.slot_extended val (k := (h.elemNums + 1) / 2) (by omega)
  have hlast := h.slot_extended_last val
  by_cases hrel : comp val (h.get ((h.elemNums + 1) / 2))
  · -- the value is lifted over its parent and stays above it
    have hloop : 1 < h.elemNums + 1 ∧ comp (slot (h.extended val) (h.elemNums + 1))
        (slot (h.extended val) ((h.elemNums + 1) / 2)) := by
      rw [hlast, hparent]
      exact ⟨by omega, hrel⟩
    have hpair : comp
        (slot (swap (h.extended val) (h.elemNums + 1) ((h.elemNums + 1) / 2))
          ((h.elemNums + 1) / 2))
        (slot (swap (h.extended val) (h.elemNums + 1) ((h.elemNums + 1) / 2))
          (h.elemNums + 1)) := by
      rw [slot_swap _ (by simp) (by simp; omega), exchange_right, exchange_left]
      exact hloop.2
    have hbroken := not_ordered_adjustUp
      (swap (h.extended val) (h.elemNums + 1) ((h.elemNums + 1) / 2))
      ((h.elemNums + 1) / 2) (h.elemNums + 1) (by simp) (by omega)
      (h.elemNums + 1) le_rfl rfl hpair
    rw [adjustUp, dif_pos hloop] at hord
    exact hbroken hord
  · -- nothing is lifted, and the parent compares before the value
    have hstop : ¬ (1 < h.elemNums + 1 ∧ comp (slot (h.extended val) (h.elemNums + 1))
        (slot (h.extended val) ((h.elemNums + 1) / 2))) := by
      rw [hlast, hparent]
      exact fun hloop => hrel hloop.2
    have hbroken := hord (h.elemNums + 1) (by omega) le_rfl
    rw [adjustUp, dif_neg hstop, hlast, hparent] at hbroken
    exact hbroken (hcompares hrel)

end Up

section Runs

theorem inOrder_apply_iff [IsStrictWeakOrder α (RelOf comp)] {h h' : Heap α} {op : Op α}
    (hord : InOrder comp h) (hfits : h.Fits op) (happly : h.apply comp op = some h') :
    InOrder comp h' ↔ Tied comp h op := by
  cases op with
  | push val =>
      obtain rfl := Option.some.inj happly
      exact ⟨tied_of_inOrder_push hfits, inOrder_push_of_tied hord hfits⟩
  | pop => exact ⟨fun _ => trivial, fun _ => hord.pop happly⟩

/-- Every operation is defined, and keeps the heap order with an extremal top. -/
def KeepsOrder (comp : α → α → Bool) (c : Construction α) (ops : List (Op α)) : Prop :=
  ∀ done, done <+: ops →
    ∃ h, run comp c done = some h ∧ InOrder comp h ∧ TopExtremal comp h

def AllTied (comp : α → α → Bool) (c : Construction α) (ops : List (Op α)) : Prop :=
  ∀ done op h, done ++ [op] <+: ops → run comp c done = some h → Tied comp h op

theorem inOrder_run [IsStrictWeakOrder α (RelOf comp)] {c : Construction α} {ops : List (Op α)}
    (hfit : Fit comp c ops) (htied : AllTied comp c ops) :
    ∃ h, run comp c ops = some h ∧ InOrder comp h := by
  apply hfit.invariant fun _ => InOrder comp
  · intro h hheap
    exact inOrder_heap hfit.1 hheap
  · intro done op h h' hdone hrun hord hfits happly
    exact (inOrder_apply_iff hord hfits happly).mpr (htied done op h hdone hrun)

/-- A run in which the `int`s hold the indices keeps the heap order, with an extremal top,
exactly as long as each pushed value is tied with the value in its parent slot. -/
theorem inOrder_run_iff [IsStrictWeakOrder α (RelOf comp)] {c : Construction α}
    {ops : List (Op α)} (hfit : Fit comp c ops) :
    KeepsOrder comp c ops ↔ AllTied comp c ops := by
  constructor
  · intro hall done op h hdone hrun
    have hbefore : done <+: ops := (List.prefix_append _ _).trans hdone
    obtain ⟨h₁, hrun₁, hord, -⟩ := hall done hbefore
    obtain rfl := Option.some.inj (hrun.symm.trans hrun₁)
    obtain ⟨h', hrun', hord', -⟩ := hall _ hdone
    rw [run_append, hrun, Option.bind_some] at hrun'
    exact (inOrder_apply_iff hord (hfit.2 done op h hdone hrun) hrun').mp hord'
  · intro htied done hdone
    obtain ⟨h, hrun, hord⟩ := inOrder_run (hfit.of_prefix hdone)
      fun before op h hbefore => htied before op h (hbefore.trans hdone)
    exact ⟨h, hrun, hord, hord.topExtremal⟩

theorem inOrder_run_iff_greater :
    KeepsOrder greater (.ofVector [3, 1, 2]) [.push 4, .pop] ↔
      AllTied greater (.ofVector [3, 1, 2]) [.push 4, .pop] :=
  inOrder_run_iff (fit_of_length (by decide))

/-- The heap after the two pushes, whose top compares before the other element. -/
theorem push_not_topExtremal :
    ¬ KeepsOrder greater (.empty : Construction Nat) [.push 1, .push 2] := by
  have hfirst : (Heap.empty : Heap Nat).push greater 1 =
      { data := [0, 1], elemNums := 1, bound := by simp } := by
    have hindex : index (0 + 1) = 1 := index_eq (by omega)
    simp only [Heap.push, Heap.empty, Heap.extended, hindex]
    simp [resize, adjustUp]
  have hsecond : Heap.push greater { data := [0, 1], elemNums := 1, bound := by simp } 2 =
      { data := [0, 2, 1], elemNums := 2, bound := by simp } := by
    have hindex : index (1 + 1) = 2 := index_eq (by omega)
    simp only [Heap.push, Heap.extended, hindex]
    simp [resize, adjustUp, swap, slot, greater, less]
  have hrun : run greater (.empty : Construction Nat) [.push 1, .push 2] =
      some { data := [0, 2, 1], elemNums := 2, bound := by simp } := by
    rw [run, Construction.heap, Option.bind_some, List.foldlM_cons, Heap.apply, hfirst,
      Option.bind_eq_bind, Option.bind_some, List.foldlM_cons, Heap.apply, hsecond]
    rfl
  intro hkeeps
  obtain ⟨h, hrun', -, htop⟩ := hkeeps _ List.prefix_rfl
  obtain rfl := Option.some.inj (hrun.symm.trans hrun')
  exact htop 2 rfl 2 (by simp) (by simp) (by decide)

end Runs

end SkUtils.Containers.HeapOrder
