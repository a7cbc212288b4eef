import Mathlib.Data.List.Basic
import Mathlib.Data.List.GetD
import Mathlib.Data.List.Induction
import SkUtils.Library.ImplicitTree
import SkUtils.Random.RandomUtil

/-!
`Heap<ValueType, Compare>` of `heap.h`. Slot 0 of `data` is a dummy; the live
elements are `data[1..elemNums]`, and `pop` leaves the popped values behind them.
`elemNums` is a `size_t`, but the sift loops count in `int`: their arguments are
narrowed, and `2 * k` may overflow, which is undefined (`none`).
-/

namespace SkUtils.Containers.HeapOperations

open SkUtils.Library.ImplicitTree
open SkUtils.Random.RandomUtil (INT_MAX INT_MIN IsInt narrow)

/-- The slots of the live elements exist. -/
structure Heap (α : Type*) where
  data : List α
  elemNums : Nat
  bound : elemNums < data.length

section Sift

variable {α : Type*} [Inhabited α]

/-- `data[k]`. -/
def slot (data : List α) (k : Nat) : α :=
  data.getD k default

def swap (data : List α) (i j : Nat) : List α :=
  (data.set i (slot data j)).set j (slot data i)

@[simp] theorem length_swap (data : List α) (i j : Nat) :
    (swap data i j).length = data.length := by
  simp [swap]

theorem slot_set (data : List α) {i : Nat} (hi : i < data.length) (a : α) :
    slot (data.set i a) = Function.update (slot data) i a := by
  funext k
  by_cases hki : k = i
  · subst k
    simp [slot, List.getD_eq_getElem?_getD, hi]
  · rw [Function.update_of_ne hki]
    simp [slot, List.getD_eq_getElem?_getD, List.getElem?_set_ne (Ne.symm hki)]

theorem slot_swap (data : List α) {i j : Nat} (hi : i < data.length)
    (hj : j < data.length) : slot (swap data i j) = exchange (slot data) i j := by
  funext k
  rw [swap, slot_set _ (by simpa using hj), slot_set _ hi]
  by_cases hkj : k = j
  · subst k
    simp
  · rw [Function.update_of_ne hkj]
    by_cases hki : k = i
    · subst k
      simp
    · rw [Function.update_of_ne hki, exchange_of_ne _ hki hkj]

variable (comp : α → α → Bool)

/-- The child that `adjustDown` compares slot `k` with. -/
def firstChild (data : List α) (n k : Nat) : Nat :=
  if 2 * k < n && comp (slot data (2 * k)) (slot data (2 * k + 1)) then 2 * k + 1
  else 2 * k

theorem firstChild_bounds (data : List α) {n k : Nat} (h : 2 * k ≤ n) :
    2 * k ≤ firstChild comp data n k ∧ firstChild comp data n k ≤ 2 * k + 1 ∧
      firstChild comp data n k ≤ n := by
  unfold firstChild
  split
  · rename_i hright
    simp only [Bool.and_eq_true, decide_eq_true_eq] at hright
    omega
  · omega

/-- `adjustDown(k)` with `elemNums = n`; all calls have `1 ≤ k`. -/
def adjustDown (data : List α) (n k : Nat) : Option (List α) :=
  if IsInt (2 * k) then
    if _hloop : 1 ≤ k ∧ 2 * k ≤ n then
      if comp (slot data k) (slot data (firstChild comp data n k)) then
        adjustDown (swap data k (firstChild comp data n k)) n (firstChild comp data n k)
      else some data
    else some data
  else none
termination_by n - k
decreasing_by
  have := firstChild_bounds comp data ‹1 ≤ k ∧ 2 * k ≤ n›.2
  omega

def adjustUp (data : List α) (k : Nat) : List α :=
  if _h : 1 < k ∧ comp (slot data k) (slot data (k / 2)) then
    adjustUp (swap data k (k / 2)) (k / 2)
  else data
termination_by k
decreasing_by omega

theorem length_adjustDown {data data' : List α} {n k : Nat}
    (h : adjustDown comp data n k = some data') : data'.length = data.length := by
  fun_induction adjustDown comp data n k with
  | case1 data k _ hloop hrel ih => simpa using ih h
  | case2 => rw [Option.some.inj h]
  | case3 => rw [Option.some.inj h]
  | case4 => cases h

@[simp] theorem length_adjustUp (data : List α) (k : Nat) :
    (adjustUp comp data k).length = data.length := by
  fun_induction adjustUp comp data k with
  | case1 data k h ih => simpa using ih
  | case2 => rfl

theorem isInt_double {k : Nat} (h : k < 2 ^ 30) : IsInt (2 * k) := by
  rw [IsInt, INT_MIN, INT_MAX]
  omega

/-- Below 2^30 elements the index of a child is an `int`. -/
theorem exists_adjustDown (data : List α) {n k : Nat} (hn : n < 2 ^ 30) (hk : k < 2 ^ 30) :
    ∃ data', adjustDown comp data n k = some data' := by
  fun_induction adjustDown comp data n k with
  | case1 data k _ hloop hrel ih =>
      have hbounds := firstChild_bounds comp data hloop.2
      exact ih (by omega)
  | case2 data k => exact ⟨data, rfl⟩
  | case3 data k => exact ⟨data, rfl⟩
  | case4 data k hoverflow => exact absurd (isInt_double hk) hoverflow

/-- `buildHeap` from the parent `i` down to slot 1. -/
def buildHeap (data : List α) (n : Nat) : Nat → Option (List α)
  | 0 => some data
  | i + 1 => (adjustDown comp data n (i + 1)).bind fun data => buildHeap data n i

theorem length_buildHeap {data data' : List α} {n i : Nat}
    (h : buildHeap comp data n i = some data') : data'.length = data.length := by
  induction i generalizing data with
  | zero => rw [Option.some.inj h]
  | succ i ih =>
      obtain ⟨next, hdown, hrest⟩ := Option.bind_eq_some_iff.mp h
      rw [ih hrest, length_adjustDown comp hdown]

theorem exists_buildHeap (data : List α) {n i : Nat} (hn : n < 2 ^ 30) (hi : i < 2 ^ 30) :
    ∃ data', buildHeap comp data n i = some data' := by
  induction i generalizing data with
  | zero => exact ⟨data, rfl⟩
  | succ i ih =>
      obtain ⟨next, hdown⟩ := exists_adjustDown comp data hn hi
      obtain ⟨data', hrest⟩ := ih next (by omega)
      exact ⟨data', by rw [buildHeap, hdown, Option.bind_some, hrest]⟩

/-- `int i = elemNums / 2`, or `int k`; with a negative one the loops make no round. -/
def index (n : Nat) : Nat :=
  (narrow n).toNat

theorem index_eq {n : Nat} (h : n < 2 ^ 31) : index n = n := by
  rw [index, narrow, Int.bmod_def]
  omega

end Sift

section Operations

variable {α : Type*} [Inhabited α] (comp : α → α → Bool)

def Heap.empty : Heap α where
  data := [default]
  elemNums := 0
  bound := by simp

/-- `Heap(vals)`. -/
def Heap.ofVector (vals : List α) : Option (Heap α) :=
  (buildHeap comp (default :: vals) vals.length (index (vals.length / 2))).pmap
    (fun data bound => { data, elemNums := vals.length, bound })
    fun data h => by simp [length_buildHeap comp h]

def Heap.get (h : Heap α) (k : Nat) : α :=
  slot h.data k

def Heap.top (h : Heap α) : Except String α :=
  if 1 ≤ h.elemNums then .ok (h.get 1) else .error "Heap Empty"

/-- `pop()`. The popped value stays in `data`. -/
def Heap.pop (h : Heap α) : Option (Heap α) :=
  if 0 < h.elemNums then
    (adjustDown comp (swap h.data 1 h.elemNums) (h.elemNums - 1) 1).pmap
      (fun data bound => { data, elemNums := h.elemNums - 1, bound })
      fun data hdown => by
        have := h.bound
        rw [length_adjustDown comp hdown, length_swap]
        omega
  else some h

def resize (data : List α) (size : Nat) : List α :=
  data.take size ++ List.replicate (size - data.length) default

@[simp] theorem length_resize (data : List α) (size : Nat) :
    (resize data size).length = size := by
  simp [resize]
  omega

/-- `data` in `push` before `adjustUp`. -/
def Heap.extended (h : Heap α) (val : α) : List α :=
  (resize h.data (h.elemNums + 2)).set (h.elemNums + 1) val

@[simp] theorem Heap.length_extended (h : Heap α) (val : α) :
    (h.extended val).length = h.elemNums + 2 := by
  simp [Heap.extended]

def Heap.push (h : Heap α) (val : α) : Heap α where
  data := adjustUp comp (h.extended val) (index (h.elemNums + 1))
  elemNums := h.elemNums + 1
  bound := by simp

inductive Op (α : Type*)
  | push (val : α)
  | pop

def Heap.apply (h : Heap α) : Op α → Option (Heap α)
  | .push val => some (h.push comp val)
  | .pop => h.pop comp

inductive Construction (α : Type*)
  | empty
  | ofVector (vals : List α)

def Construction.heap : Construction α → Option (Heap α)
  | .empty => some .empty
  | .ofVector vals => Heap.ofVector comp vals

def Construction.elements : Construction α → List α
  | .empty => []
  | .ofVector vals => vals

/-- A heap is built, and then the operations follow. -/
def run (c : Construction α) (ops : List (Op α)) : Option (Heap α) :=
  (c.heap comp).bind fun h => ops.foldlM (Heap.apply comp) h

/-- The `int`s of the operation hold the indices that it computes. -/
def Heap.Fits (h : Heap α) : Op α → Prop
  | .push _ => h.elemNums + 1 < 2 ^ 31
  | .pop => h.elemNums ≤ 2 ^ 30

/-- So do those of a constructor and of the operations after it. -/
def Fit (c : Construction α) (ops : List (Op α)) : Prop :=
  c.elements.length < 2 ^ 30 ∧
    ∀ done op h, done ++ [op] <+: ops → run comp c done = some h → h.Fits op

variable {comp}

theorem Heap.ofVector_cases {vals : List α} {h : Heap α} (hvector : ofVector comp vals = some h) :
    h.elemNums = vals.length ∧
      buildHeap comp (default :: vals) vals.length (index (vals.length / 2)) = some h.data := by
  obtain ⟨data, _, hbuild, rfl⟩ := Option.pmap_eq_some_iff.mp hvector
  exact ⟨rfl, hbuild⟩

theorem Heap.exists_ofVector {vals : List α} (hsize : vals.length < 2 ^ 30) :
    ∃ h, ofVector comp vals = some h := by
  have hindex : index (vals.length / 2) = vals.length / 2 := index_eq (by omega)
  obtain ⟨data, hbuild⟩ := exists_buildHeap comp (default :: vals) hsize
    (i := index (vals.length / 2)) (by omega)
  have hbound : vals.length < data.length := by simp [length_buildHeap comp hbuild]
  exact ⟨_, Option.pmap_eq_some_iff.mpr ⟨data, hbound, hbuild, rfl⟩⟩

theorem Heap.pop_cases {h h' : Heap α} (hpop : h.pop comp = some h') :
    (h.elemNums = 0 ∧ h' = h) ∨ (0 < h.elemNums ∧ h'.elemNums = h.elemNums - 1 ∧
      adjustDown comp (swap h.data 1 h.elemNums) (h.elemNums - 1) 1 = some h'.data) := by
  unfold pop at hpop
  split at hpop
  case isTrue hpos =>
      obtain ⟨data, _, hdown, rfl⟩ := Option.pmap_eq_some_iff.mp hpop
      exact .inr ⟨hpos, rfl, hdown⟩
  case isFalse hempty =>
      obtain rfl := Option.some.inj hpop
      exact .inl ⟨Nat.eq_zero_of_not_pos hempty, rfl⟩

theorem Heap.exists_pop {h : Heap α} (hfits : h.elemNums ≤ 2 ^ 30) :
    ∃ h', h.pop comp = some h' := by
  have hbound := h.bound
  unfold pop
  split
  case isTrue hpos =>
      obtain ⟨data, hdown⟩ := exists_adjustDown comp (swap h.data 1 h.elemNums)
        (n := h.elemNums - 1) (k := 1) (by omega) (by omega)
      have hlength : h.elemNums - 1 < data.length := by
        rw [length_adjustDown comp hdown, length_swap]
        omega
      exact ⟨_, Option.pmap_eq_some_iff.mpr ⟨data, hlength, hdown, rfl⟩⟩
  case isFalse => exact ⟨h, rfl⟩

theorem Heap.exists_apply {h : Heap α} {op : Op α} (hfits : h.Fits op) :
    ∃ h', h.apply comp op = some h' := by
  cases op with
  | push val => exact ⟨_, rfl⟩
  | pop => exact exists_pop hfits

theorem exists_heap {c : Construction α} (hsize : c.elements.length < 2 ^ 30) :
    ∃ h, c.heap comp = some h := by
  cases c with
  | empty => exact ⟨_, rfl⟩
  | ofVector vals => exact Heap.exists_ofVector hsize

theorem run_nil (c : Construction α) : run comp c [] = c.heap comp := by
  simp [run]

theorem run_append (c : Construction α) (ops : List (Op α)) (op : Op α) :
    run comp c (ops ++ [op]) = (run comp c ops).bind fun h => h.apply comp op := by
  simp [run, Option.bind_assoc]

theorem Fit.of_prefix {c : Construction α} {done ops : List (Op α)} (h : Fit comp c ops)
    (hdone : done <+: ops) : Fit comp c done :=
  ⟨h.1, fun before op heap hbefore => h.2 before op heap (hbefore.trans hdone)⟩

/-- Invariant rule over the runs whose `int`s hold their indices. -/
theorem Fit.invariant {c : Construction α} {ops : List (Op α)} (h : Fit comp c ops)
    (I : List (Op α) → Heap α → Prop) (start : ∀ heap, c.heap comp = some heap → I [] heap)
    (preserved : ∀ done op heap heap', done ++ [op] <+: ops → run comp c done = some heap →
      I done heap → heap.Fits op → heap.apply comp op = some heap' → I (done ++ [op]) heap') :
    ∃ heap, run comp c ops = some heap ∧ I ops heap := by
  induction ops using List.reverseRecOn with
  | nil =>
      obtain ⟨heap, hheap⟩ := exists_heap h.1
      exact ⟨heap, by rw [run_nil, hheap], start heap hheap⟩
  | append_singleton ops op ih =>
      have hbefore : ops <+: ops ++ [op] := List.prefix_append _ _
      obtain ⟨heap, hrun, hheap⟩ := ih (h.of_prefix hbefore)
        fun done op heap heap' hdone => preserved done op heap heap' (hdone.trans hbefore)
      have hfits := h.2 ops op heap List.prefix_rfl hrun
      obtain ⟨heap', happly⟩ := heap.exists_apply hfits
      refine ⟨heap', by rw [run_append, hrun, Option.bind_some, happly], ?_⟩
      exact preserved ops op heap heap' List.prefix_rfl hrun hheap hfits happly

theorem elemNums_run {c : Construction α} {ops : List (Op α)} {h : Heap α}
    (hrun : run comp c ops = some h) : h.elemNums ≤ c.elements.length + ops.length := by
  induction ops using List.reverseRecOn generalizing h with
  | nil =>
      rw [run_nil] at hrun
      cases c with
      | empty =>
          obtain rfl := Option.some.inj hrun
          exact Nat.zero_le _
      | ofVector vals => exact (Heap.ofVector_cases hrun).1.le
  | append_singleton ops op ih =>
      rw [run_append] at hrun
      obtain ⟨before, hbefore, happly⟩ := Option.bind_eq_some_iff.mp hrun
      have hle := ih hbefore
      rw [List.length_append, List.length_singleton]
      cases op with
      | push val =>
          obtain rfl := Option.some.inj happly
          simp only [Heap.push]
          omega
      | pop => rcases Heap.pop_cases happly with ⟨-, rfl⟩ | ⟨-, helems, -⟩ <;> omega

/-- So few elements never make an index overflow. -/
theorem fit_of_length {c : Construction α} {ops : List (Op α)}
    (h : c.elements.length + ops.length < 2 ^ 30) : Fit comp c ops := by
  refine ⟨by omega, fun done op heap hdone hrun => ?_⟩
  have hle := elemNums_run hrun
  have hlength := hdone.length_le
  rw [List.length_append, List.length_singleton] at hlength
  cases op with
  | push val =>
      rw [Heap.Fits]
      omega
  | pop =>
      rw [Heap.Fits]
      omega

theorem slot_resize (data : List α) (size : Nat) {k : Nat} (hk : k < size)
    (hlt : k < data.length) : slot (resize data size) k = slot data k := by
  rw [slot, slot, resize, List.getD_append _ _ _ _ (by simp; omega),
    List.getD_eq_getElem?_getD, List.getD_eq_getElem?_getD,
    List.getElem?_take_of_lt hk]

theorem Heap.slot_extended (h : Heap α) (val : α) {k : Nat} (hk : k ≤ h.elemNums) :
    slot (h.extended val) k = h.get k := by
  have hbound := h.bound
  rw [Heap.extended, slot_set _ (by simp), Function.update_of_ne (by omega),
    slot_resize _ _ (by omega) (by omega), Heap.get]

@[simp] theorem Heap.slot_extended_last (h : Heap α) (val : α) :
    slot (h.extended val) (h.elemNums + 1) = val := by
  rw [Heap.extended, slot_set _ (by simp), Function.update_self]

end Operations

section Overflow

/-! A vector of 2^30 elements or more, the last of which belongs before the others. -/

variable {α : Type*} [Inhabited α] {comp : α → α → Bool} {a b : α} {n : Nat}

def lastFirst (a b : α) (n : Nat) : List α :=
  List.replicate (n - 1) a ++ [b]

omit [Inhabited α] in
theorem length_lastFirst (hn : 0 < n) (a b : α) : (lastFirst a b n).length = n := by
  rw [lastFirst, List.length_append, List.length_replicate, List.length_singleton]
  omega

theorem slot_lastFirst {k : Nat} (hk : 1 ≤ k) (hkn : k < n) :
    slot (default :: lastFirst a b n) k = a := by
  obtain ⟨k, rfl⟩ : ∃ i, k = i + 1 := ⟨k - 1, by omega⟩
  rw [slot, List.getD_cons_succ, lastFirst, List.getD_append _ _ _ _ (by simp; omega)]
  simp [List.getD_eq_getElem?_getD, show k < n - 1 by omega]

theorem slot_lastFirst_last (hn : 0 < n) : slot (default :: lastFirst a b n) n = b := by
  obtain ⟨n, rfl⟩ : ∃ i, n = i + 1 := ⟨n - 1, by omega⟩
  simp [slot, lastFirst]

/-- The comparisons among the first elements move nothing. -/
theorem adjustDown_lastFirst (ha : ¬ comp a a) {k : Nat} (hint : IsInt (2 * k)) (hk : 1 ≤ k)
    (hkn : 2 * k + 1 < n) :
    adjustDown comp (default :: lastFirst a b n) n k = some (default :: lastFirst a b n) := by
  have hchild : firstChild comp (default :: lastFirst a b n) n k = 2 * k := by
    rw [firstChild, slot_lastFirst (by omega) (by omega), slot_lastFirst (by omega) hkn]
    simp [ha]
  rw [adjustDown, if_pos hint, dif_pos ⟨hk, by omega⟩, hchild,
    slot_lastFirst hk (by omega), slot_lastFirst (by omega) (by omega), if_neg ha]

/-- The last element goes up to its parent, and the index of the child of its slot overflows. -/
theorem adjustDown_lastFirst_last (hab : comp a b) (hn : 2 ^ 30 ≤ n) :
    adjustDown comp (default :: lastFirst a b n) n (n / 2) = none := by
  have hoverflow : ¬ IsInt (2 * n) := by
    rw [IsInt, INT_MIN, INT_MAX]
    omega
  by_cases hint : IsInt (2 * (n / 2 : Nat))
  · have hlast := slot_lastFirst_last (a := a) (b := b) (n := n) (by omega)
    have hparent := slot_lastFirst (a := a) (b := b) (n := n) (k := n / 2) (by omega) (by omega)
    have hchild : firstChild comp (default :: lastFirst a b n) n (n / 2) = n := by
      rw [firstChild]
      rcases Nat.mod_two_eq_zero_or_one n with heven | hodd
      · rw [if_neg (by simp; omega)]
        omega
      · have hright : 2 * (n / 2) + 1 = n := by omega
        rw [if_pos, hright]
        rw [hright, hlast, slot_lastFirst (by omega) (by omega), hab]
        simp
        omega
    rw [adjustDown, if_pos hint, dif_pos (by omega), hchild, hparent, hlast, if_pos hab,
      adjustDown, if_neg hoverflow]
  · rw [adjustDown, if_neg hint]

theorem buildHeap_eq_none {data : List α} {i : Nat} (hi : 0 < i)
    (h : adjustDown comp data n i = none) : buildHeap comp data n i = none := by
  obtain ⟨i, rfl⟩ : ∃ j, i = j + 1 := ⟨i - 1, by omega⟩
  rw [buildHeap, h, Option.bind_none]

theorem buildHeap_lastFirst (ha : ¬ comp a a) {i : Nat} (hi : i < 2 ^ 30) (hn : 2 ^ 32 ≤ n) :
    buildHeap comp (default :: lastFirst a b n) n i = some (default :: lastFirst a b n) := by
  induction i with
  | zero => rfl
  | succ i ih =>
      rw [buildHeap, adjustDown_lastFirst ha (isInt_double hi) (by omega) (by omega),
        Option.bind_some, ih (by omega)]

theorem ofVector_eq_none_of_down (hn : 0 < n) (hpos : 0 < index (n / 2))
    (h : adjustDown comp (default :: lastFirst a b n) n (index (n / 2)) = none) :
    Heap.ofVector comp (lastFirst a b n) = none := by
  simp only [Heap.ofVector, length_lastFirst hn]
  exact Option.pmap_eq_none_iff.mpr (buildHeap_eq_none hpos h)

theorem ofVector_eq_none (hab : comp a b) (hn : 2 ^ 30 ≤ n) (hnarrow : n < 2 ^ 32) :
    Heap.ofVector comp (lastFirst a b n) = none := by
  have hindex : index (n / 2) = n / 2 := index_eq (by omega)
  apply ofVector_eq_none_of_down (by omega) (by omega)
  rw [hindex]
  exact adjustDown_lastFirst_last hab hn

/-- From 2^32 elements on, the constructor overflows or begins with a slot far from the last. -/
theorem ofVector_lastFirst (ha : ¬ comp a a) (hn : 2 ^ 32 ≤ n) :
    Heap.ofVector comp (lastFirst a b n) = none ∨
      ∃ h, Heap.ofVector comp (lastFirst a b n) = some h ∧ h.get 1 = a := by
  have hlength := length_lastFirst (n := n) (by omega) a b
  by_cases hsmall : index (n / 2) < 2 ^ 30
  · have hbuild := buildHeap_lastFirst (b := b) ha hsmall hn
    have hvector : ∃ h, Heap.ofVector comp (lastFirst a b n) = some h := by
      simp only [Heap.ofVector, hlength]
      exact ⟨_, Option.pmap_eq_some_iff.mpr ⟨_, by simp [hlength], hbuild, rfl⟩⟩
    obtain ⟨h, hvector⟩ := hvector
    obtain ⟨-, hdata⟩ := Heap.ofVector_cases hvector
    rw [hlength, hbuild] at hdata
    refine .inr ⟨h, hvector, ?_⟩
    rw [Heap.get, ← Option.some.inj hdata, slot_lastFirst (le_refl 1) (by omega)]
  · refine .inl (ofVector_eq_none_of_down (by omega) (by omega) ?_)
    rw [adjustDown, if_neg]
    rw [IsInt, INT_MIN, INT_MAX]
    omega

end Overflow

end SkUtils.Containers.HeapOperations
