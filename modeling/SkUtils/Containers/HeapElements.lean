import Mathlib.Tactic.Abel
import SkUtils.Containers.HeapOperations
import SkUtils.Library.StrictWeakOrder

/-!
The elements of `Heap`, whatever the comparator: while `int` holds the indices, the sift
loops stay within the live slots, and a run loses or doubles no element. The values that
`pop` leaves behind in `data` are not live.
-/

namespace SkUtils.Containers.HeapElements

open SkUtils.Containers.HeapOperations
open SkUtils.Library.ImplicitTree
open SkUtils.Library.StrictWeakOrder (greater)
open SkUtils.Random.RandomUtil (INT_MAX INT_MIN IsInt narrow)

variable {α : Type*} [Inhabited α] {comp : α → α → Bool}

section Indices

variable (comp)

/-- The indices that a round of `adjustDown` uses to find the child, and those of its
second comparison and its swap. -/
def roundIndices (data : List α) (n k : Nat) : List Nat :=
  (if 2 * k < n then [2 * k, 2 * k + 1] else []) ++ [k, firstChild comp data n k]

/-- The indices that `adjustDown(k)` uses. -/
def adjustDownIndices (data : List α) (n k : Nat) : List Nat :=
  if IsInt (2 * k) then
    if _hloop : 1 ≤ k ∧ 2 * k ≤ n then
      if comp (slot data k) (slot data (firstChild comp data n k)) then
        roundIndices comp data n k ++
          adjustDownIndices (swap data k (firstChild comp data n k)) n (firstChild comp data n k)
      else roundIndices comp data n k
    else []
  else []
termination_by n - k
decreasing_by
  have := firstChild_bounds comp data ‹1 ≤ k ∧ 2 * k ≤ n›.2
  omega

/-- The indices that `adjustUp(k)` uses. -/
def adjustUpIndices (data : List α) (k : Nat) : List Nat :=
  if _hloop : 1 < k then
    if comp (slot data k) (slot data (k / 2)) then
      [k, k / 2] ++ adjustUpIndices (swap data k (k / 2)) (k / 2)
    else [k, k / 2]
  else []
termination_by k
decreasing_by omega

/-- The indices of the calls of `adjustDown` that `buildHeap` makes. -/
def buildHeapIndices (data : List α) (n : Nat) : Nat → List Nat
  | 0 => []
  | i + 1 => adjustDownIndices comp data n (i + 1) ++
      (adjustDown comp data n (i + 1)).elim [] fun data => buildHeapIndices data n i

/-- The indices that `push` and `pop` use in `adjustUp` and `adjustDown`. -/
def siftIndices (h : Heap α) : Op α → List Nat
  | .push val => adjustUpIndices comp (h.extended val) (index (h.elemNums + 1))
  | .pop =>
      if 0 < h.elemNums then
        adjustDownIndices comp (swap h.data 1 h.elemNums) (h.elemNums - 1) 1
      else []

/-- The indices lie in the live slots. -/
def Within (n : Nat) (indices : List Nat) : Prop :=
  ∀ k ∈ indices, 1 ≤ k ∧ k ≤ n

variable {comp}

theorem Within.append {n : Nat} {indices indices' : List Nat} (h : Within n indices)
    (h' : Within n indices') : Within n (indices ++ indices') :=
  List.forall_mem_append.mpr ⟨h, h'⟩

theorem within_nil (n : Nat) : Within n [] := nofun

theorem within_pair {n i j : Nat} (hi : 1 ≤ i) (hin : i ≤ n) (hj : 1 ≤ j) (hjn : j ≤ n) :
    Within n [i, j] := by
  intro k hk
  rcases List.mem_pair.mp hk with rfl | rfl
  · exact ⟨hi, hin⟩
  · exact ⟨hj, hjn⟩

theorem within_roundIndices (data : List α) {n k : Nat} (hk : 1 ≤ k) (hloop : 2 * k ≤ n) :
    Within n (roundIndices comp data n k) := by
  have hbounds := firstChild_bounds comp data hloop
  apply Within.append
  · split
    · exact within_pair (by omega) (by omega) (by omega) (by omega)
    · exact within_nil n
  · exact within_pair hk (by omega) (by omega) hbounds.2.2

theorem within_adjustDownIndices (data : List α) (n k : Nat) :
    Within n (adjustDownIndices comp data n k) := by
  fun_induction adjustDownIndices comp data n k with
  | case1 data k _ hloop hrel ih => exact (within_roundIndices data hloop.1 hloop.2).append ih
  | case2 data k _ hloop hstop => exact within_roundIndices data hloop.1 hloop.2
  | case3 data k _ hleaf => exact within_nil n
  | case4 data k hoverflow => exact within_nil n

theorem within_adjustUpIndices (data : List α) {n k : Nat} (hkn : k ≤ n) :
    Within n (adjustUpIndices comp data k) := by
  fun_induction adjustUpIndices comp data k with
  | case1 data k hloop hrel ih =>
      exact (within_pair (by omega) hkn (by omega) (by omega)).append (ih (by omega))
  | case2 data k hloop hstop => exact within_pair (by omega) hkn (by omega) (by omega)
  | case3 data k hroot => exact within_nil n

theorem within_buildHeapIndices (data : List α) (n i : Nat) :
    Within n (buildHeapIndices comp data n i) := by
  induction i generalizing data with
  | zero => exact within_nil n
  | succ i ih =>
      apply (within_adjustDownIndices data n (i + 1)).append
      cases hdown : adjustDown comp data n (i + 1) with
      | none => exact within_nil n
      | some next => exact ih next

theorem within_siftIndices {h h' : Heap α} {op : Op α} (hfits : h.Fits op)
    (happly : h.apply comp op = some h') : Within h'.elemNums (siftIndices comp h op) := by
  cases op with
  | push val =>
      obtain rfl := Option.some.inj happly
      rw [siftIndices, index_eq hfits]
      exact within_adjustUpIndices _ (le_refl (h.elemNums + 1))
  | pop =>
      rw [siftIndices]
      rcases Heap.pop_cases happly with ⟨hzero, -⟩ | ⟨hpos, helems, -⟩
      · rw [if_neg (by omega)]
        exact within_nil _
      · rw [if_pos hpos, helems]
        exact within_adjustDownIndices _ _ _

end Indices

section Elements

/-- The live elements. -/
def live (h : Heap α) : Multiset α :=
  elements h.get h.elemNums

theorem elements_swap (data : List α) {n i j : Nat} (hn : n < data.length) (hi : 1 ≤ i)
    (hin : i ≤ n) (hj : 1 ≤ j) (hjn : j ≤ n) :
    elements (slot (swap data i j)) n = elements (slot data) n := by
  rw [slot_swap data (by omega) (by omega), elements_exchange _ hi hin hj hjn]

theorem elements_adjustDown {data data' : List α} {n k : Nat} (hn : n < data.length)
    (h : adjustDown comp data n k = some data') :
    elements (slot data') n = elements (slot data) n := by
  fun_induction adjustDown comp data n k with
  | case1 data k _ hloop hrel ih =>
      have hbounds := firstChild_bounds comp data hloop.2
      rw [ih (by simpa using hn) h,
        elements_swap data hn hloop.1 (by omega) (by omega) hbounds.2.2]
  | case2 => rw [Option.some.inj h]
  | case3 => rw [Option.some.inj h]
  | case4 => cases h

theorem elements_adjustUp (data : List α) {n k : Nat} (hn : n < data.length) (hkn : k ≤ n) :
    elements (slot (adjustUp comp data k)) n = elements (slot data) n := by
  fun_induction adjustUp comp data k with
  | case1 data k hloop ih =>
      rw [ih (by simpa using hn) (by omega),
        elements_swap data hn (by omega) hkn (by omega) (by omega)]
  | case2 => rfl

theorem elements_buildHeap {data data' : List α} {n i : Nat} (hn : n < data.length)
    (h : buildHeap comp data n i = some data') :
    elements (slot data') n = elements (slot data) n := by
  induction i generalizing data with
  | zero => rw [Option.some.inj h]
  | succ i ih =>
      obtain ⟨next, hdown, hrest⟩ := Option.bind_eq_some_iff.mp h
      rw [ih (by rw [length_adjustDown comp hdown]; exact hn) hrest,
        elements_adjustDown hn hdown]

theorem elements_slot_cons (a : α) (vals : List α) :
    elements (slot (a :: vals)) vals.length = (vals : Multiset α) := by
  induction vals using List.reverseRecOn with
  | nil => rfl
  | append_singleton vals val ih =>
      have hbefore : elements (slot (a :: (vals ++ [val]))) vals.length = (vals : Multiset α) := by
        rw [← ih]
        apply elements_congr
        intro k _ hk
        simp only [slot, ← List.cons_append]
        exact List.getD_append _ _ _ _ (by simp; omega)
      have hlast : slot (a :: (vals ++ [val])) (vals.length + 1) = val := by
        simp [slot]
      rw [List.length_append, List.length_singleton, elements_succ, hbefore, hlast,
        Multiset.cons_coe, Multiset.coe_eq_coe]
      exact (List.perm_append_singleton val vals).symm

theorem live_empty : live (Heap.empty : Heap α) = 0 := rfl

theorem live_ofVector {vals : List α} {h : Heap α} (hvector : Heap.ofVector comp vals = some h) :
    live h = (vals : Multiset α) := by
  obtain ⟨helems, hbuild⟩ := Heap.ofVector_cases hvector
  rw [live, helems, ← elements_slot_cons default vals]
  exact elements_buildHeap (by simp) hbuild

theorem live_heap {c : Construction α} {h : Heap α} (hheap : c.heap comp = some h) :
    live h = (c.elements : Multiset α) := by
  cases c with
  | empty =>
      obtain rfl := Option.some.inj hheap
      exact live_empty
  | ofVector vals => exact live_ofVector hheap

theorem live_push {h : Heap α} (hfits : h.elemNums + 1 < 2 ^ 31) (val : α) :
    live (h.push comp val) = val ::ₘ live h := by
  change elements (slot (adjustUp comp (h.extended val) (index (h.elemNums + 1))))
    (h.elemNums + 1) = _
  rw [index_eq hfits, elements_adjustUp _ (by simp) (le_refl _), elements_succ,
    h.slot_extended_last]
  congr 1
  exact elements_congr fun k _ hk => h.slot_extended val hk

/-- An effective `pop` removes the value at the top. -/
theorem live_pop {h h' : Heap α} (hpop : h.pop comp = some h') (hpos : 0 < h.elemNums) :
    live h = h.get 1 ::ₘ live h' := by
  have hbound := h.bound
  obtain ⟨hzero, -⟩ | ⟨-, helems, hdown⟩ := Heap.pop_cases hpop
  · omega
  · have hlast : live h = elements (slot (swap h.data 1 h.elemNums)) h.elemNums :=
      (elements_swap h.data hbound (le_refl 1) hpos hpos (le_refl _)).symm
    have hrest : live h' = elements (slot (swap h.data 1 h.elemNums)) (h.elemNums - 1) := by
      rw [live, helems]
      exact elements_adjustDown (by simp; omega) hdown
    obtain ⟨n, hn⟩ : ∃ n, h.elemNums = n + 1 := ⟨h.elemNums - 1, by omega⟩
    rw [hlast, hrest, hn, elements_succ, slot_swap _ (by omega) (by omega), exchange_right,
      Nat.add_sub_cancel]
    rfl

end Elements

section Runs

def pushed : List (Op α) → List α
  | [] => []
  | .push val :: ops => val :: pushed ops
  | .pop :: ops => pushed ops

/-- What `top` gives before an operation that pops it. -/
def topTaken (h : Heap α) : Op α → List α
  | .push _ => []
  | .pop =>
      match h.top with
      | .ok val => [val]
      | .error _ => []

variable (comp)

/-- What `top` gives before each `pop` of the run that is not on an empty heap. -/
def poppedFrom (h : Heap α) : List (Op α) → List α
  | [] => []
  | op :: ops => topTaken h op ++ (h.apply comp op).elim [] fun h => poppedFrom h ops

def popped (c : Construction α) (ops : List (Op α)) : List α :=
  (c.heap comp).elim [] fun h => poppedFrom comp h ops

/-- The indices that a constructor uses in `adjustDown`. -/
def Construction.indices : Construction α → List Nat
  | .empty => []
  | .ofVector vals =>
      buildHeapIndices comp (default :: vals) vals.length (index (vals.length / 2))

/-- What holds of the heap `h` that the constructor and the operations `ops` have led to. -/
structure Conserved (c : Construction α) (ops : List (Op α)) (h : Heap α) : Prop where
  slots : h.elemNums + 1 ≤ h.data.length
  elements : live h + popped comp c ops = ↑c.elements + ↑(pushed ops)
  indices : ∀ op h', h.Fits op → h.apply comp op = some h' →
    Within h'.elemNums (siftIndices comp h op)

variable {comp}

omit [Inhabited α] in
theorem pushed_append (ops : List (Op α)) (op : Op α) :
    pushed (ops ++ [op]) = pushed ops ++ pushed [op] := by
  induction ops with
  | nil => rfl
  | cons first ops ih => cases first <;> simp [pushed, ih]

theorem poppedFrom_append {h h' : Heap α} {ops : List (Op α)}
    (hrun : ops.foldlM (Heap.apply comp) h = some h') (op : Op α) :
    poppedFrom comp h (ops ++ [op]) = poppedFrom comp h ops ++ topTaken h' op := by
  induction ops generalizing h with
  | nil =>
      obtain rfl := Option.some.inj hrun
      cases happly : h.apply comp op <;> simp [poppedFrom, happly]
  | cons first ops ih =>
      obtain ⟨next, hfirst, hrest⟩ := Option.bind_eq_some_iff.mp hrun
      simp [poppedFrom, hfirst, ih hrest]

theorem popped_append {c : Construction α} {ops : List (Op α)} {h : Heap α}
    (hrun : run comp c ops = some h) (op : Op α) :
    popped comp c (ops ++ [op]) = popped comp c ops ++ topTaken h op := by
  obtain ⟨heap, hheap, hops⟩ := Option.bind_eq_some_iff.mp hrun
  simp only [popped, hheap, Option.elim_some]
  exact poppedFrom_append hops op

/-- One operation. -/
theorem live_apply {h h' : Heap α} {op : Op α} (hfits : h.Fits op)
    (happly : h.apply comp op = some h') :
    live h' + topTaken h op = live h + ↑(pushed [op]) := by
  cases op with
  | push val =>
      obtain rfl := Option.some.inj happly
      rw [live_push hfits, pushed, pushed, topTaken, Multiset.coe_nil, add_zero,
        Multiset.coe_singleton, Multiset.add_comm, Multiset.singleton_add]
  | pop =>
      rw [topTaken, pushed, pushed, Multiset.coe_nil, add_zero]
      by_cases hpos : 0 < h.elemNums
      · have htop : h.top = .ok (h.get 1) := if_pos hpos
        rw [htop, live_pop happly hpos, Multiset.coe_singleton, Multiset.add_comm,
          Multiset.singleton_add]
      · have htop : h.top = .error "Heap Empty" := if_neg hpos
        obtain ⟨-, rfl⟩ | ⟨hpos', -⟩ := Heap.pop_cases happly
        · rw [htop, Multiset.coe_nil, add_zero]
        · exact absurd hpos' hpos

theorem within_construction (c : Construction α) :
    Within c.elements.length (Construction.indices comp c) := by
  cases c with
  | empty => exact within_nil _
  | ofVector vals => exact within_buildHeapIndices _ _ _

theorem live_run {c : Construction α} {ops : List (Op α)} (hfit : Fit comp c ops) :
    ∃ h, run comp c ops = some h ∧
      live h + popped comp c ops = ↑c.elements + ↑(pushed ops) := by
  apply hfit.invariant fun ops h => live h + popped comp c ops = ↑c.elements + ↑(pushed ops)
  · intro h hheap
    rw [popped, hheap, live_heap hheap]
    rfl
  · intro done op h h' _ hrun hdone hfits happly
    rw [popped_append hrun, pushed_append, ← Multiset.coe_add, ← Multiset.coe_add]
    calc
      live h' + (popped comp c done + topTaken h op) =
          live h' + topTaken h op + popped comp c done := by abel
      _ = live h + popped comp c done + pushed [op] := by
        rw [live_apply hfits happly]
        abel
      _ = c.elements + (pushed done + pushed [op]) := by rw [hdone, add_assoc]

/-- While its `int`s hold the indices, no run of `push` and `pop` loses or doubles an element,
or leaves the live slots in a sift loop, and neither does the constructor. -/
theorem elements_conserved (comp : α → α → Bool) (c : Construction α) (ops : List (Op α))
    (hfit : Fit comp c ops) :
    Within c.elements.length (Construction.indices comp c) ∧
      ∀ done, done <+: ops → ∃ h, run comp c done = some h ∧ Conserved comp c done h := by
  refine ⟨within_construction c, fun done hdone => ?_⟩
  obtain ⟨h, hrun, helements⟩ := live_run (hfit.of_prefix hdone)
  exact ⟨h, hrun, h.bound, helements, fun op h' => within_siftIndices⟩

theorem elements_conserved_mixed :
    ∃ h, run greater (.ofVector [3, 1, 2, 5, 4]) [.pop, .push 0, .pop] = some h ∧
      Conserved greater (.ofVector [3, 1, 2, 5, 4]) [.pop, .push 0, .pop] h :=
  (elements_conserved greater _ _ (fit_of_length (by decide))).2 _ List.prefix_rfl

/-- With 2^30 values, the last of them the least, `buildHeap` overflows. -/
theorem not_conserved_huge :
    ¬ ∃ h, run greater (.ofVector (lastFirst 1 0 (2 ^ 30))) [] = some h ∧
      Conserved greater (.ofVector (lastFirst 1 0 (2 ^ 30))) [] h := by
  rintro ⟨h, hrun, -⟩
  rw [run_nil] at hrun
  have hnone : Heap.ofVector greater (lastFirst 1 0 (2 ^ 30)) = none :=
    ofVector_eq_none (by decide) le_rfl (by decide)
  rw [Construction.heap, hnone] at hrun
  cases hrun

end Runs

end SkUtils.Containers.HeapElements
