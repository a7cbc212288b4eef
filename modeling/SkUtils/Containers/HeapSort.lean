import SkUtils.Containers.HeapElements
import SkUtils.Containers.HeapOrder

/-!
`Heap::sort`: the values leave a heap by their order, which for `std::greater` is the
ascending one. The heap is built at once and nothing is pushed, so that its order holds
while the indices fit in `int`, which is below 2^30 values.
-/

namespace SkUtils.Containers.HeapSort

open SkUtils.Containers.HeapElements
open SkUtils.Containers.HeapOperations
open SkUtils.Containers.HeapOrder
open SkUtils.Library.ImplicitTree
open SkUtils.Library.StrictWeakOrder

variable {α : Type*} [Inhabited α]

/-- `empty()`. -/
def isEmpty (h : Heap α) : Bool :=
  h.elemNums = 0

/-- The loop of `sort`; an exception of `top` would end it, and `none` is an overflow. -/
def sortLoop (comp : α → α → Bool) (h : Heap α) (ret : List α) :
    Option (Except String (List α)) :=
  if _hloop : !isEmpty h then
    match h.top with
    | .ok val =>
        match _hpop : h.pop comp with
        | some h' => sortLoop comp h' (ret ++ [val])
        | none => none
    | .error e => some (.error e)
  else some (.ok ret)
termination_by h.elemNums
decreasing_by
  simp only [isEmpty, Bool.not_eq_true', decide_eq_false_iff_not] at _hloop
  rcases Heap.pop_cases _hpop with ⟨hzero, -⟩ | ⟨-, helems, -⟩ <;> omega

def sort (comp : α → α → Bool) (vc : List α) : Option (Except String (List α)) :=
  (Heap.ofVector comp vc).bind fun h => sortLoop comp h []

section Extraction

variable {comp : α → α → Bool}

theorem sortLoop_zero (h : Heap α) (ret : List α) (hzero : h.elemNums = 0) :
    sortLoop comp h ret = some (.ok ret) := by
  rw [sortLoop, dif_neg (by simp [isEmpty, hzero])]

/-- One value leaves the heap, and the rest follows. -/
theorem sortLoop_pos {h : Heap α} (ret : List α) (hpos : 0 < h.elemNums) :
    sortLoop comp h ret =
      (h.pop comp).bind fun h' => sortLoop comp h' (ret ++ [h.get 1]) := by
  have hloop : !isEmpty h := by
    simp only [isEmpty, Bool.not_eq_true', decide_eq_false_iff_not]
    omega
  have htop : h.top = .ok (h.get 1) := if_pos hpos
  rw [sortLoop, dif_pos hloop, htop]
  dsimp only
  split
  case h_1 h' hpop => rw [hpop, Option.bind_some]
  case h_2 hpop => rw [hpop, Option.bind_none]

/-- What the loop has when it ends are the values of the heap, its top first. -/
theorem sortLoop_perm (n : Nat) {h : Heap α} (hn : h.elemNums = n) {ret out : List α}
    (hsort : sortLoop comp h ret = some (.ok out)) :
    ∃ rest, out = ret ++ rest ∧ (rest : Multiset α) = live h ∧
      (0 < n → rest.head? = some (h.get 1)) := by
  induction n generalizing h ret with
  | zero =>
      rw [sortLoop_zero h ret hn] at hsort
      cases hsort
      refine ⟨[], (List.append_nil _).symm, ?_, fun hpos => absurd hpos (Nat.lt_irrefl 0)⟩
      rw [live, hn]
      rfl
  | succ n ih =>
      have hpos : 0 < h.elemNums := by omega
      rw [sortLoop_pos ret hpos] at hsort
      obtain ⟨h', hpop, hloop⟩ := Option.bind_eq_some_iff.mp hsort
      have helems : h'.elemNums = n := by
        rcases Heap.pop_cases hpop with ⟨hzero, -⟩ | ⟨-, helems, -⟩ <;> omega
      obtain ⟨rest, hout, hrest, -⟩ := ih helems hloop
      refine ⟨h.get 1 :: rest, ?_, ?_, fun _ => rfl⟩
      · rw [hout, List.append_assoc, List.singleton_append]
      · rw [← Multiset.cons_coe, hrest, live_pop hpop hpos]

variable [IsStrictWeakOrder α (RelOf comp)]

theorem root_first {h : Heap α} (hord : InOrder comp h) {a : α} (ha : a ∈ live h) :
    ¬ comp (h.get 1) a := by
  obtain ⟨k, hk, hkn, rfl⟩ := mem_elements.mp ha
  exact Ordered.root hord k hk hkn

theorem sortLoop_spec (n : Nat) {h : Heap α} (hn : h.elemNums = n) (hsize : n ≤ 2 ^ 30)
    (hord : InOrder comp h) (ret : List α) :
    ∃ out, sortLoop comp h ret = some (.ok (ret ++ out)) ∧ (out : Multiset α) = live h ∧
      out.Pairwise fun a b => ¬ comp a b := by
  induction n generalizing h ret with
  | zero =>
      refine ⟨[], ?_, ?_, .nil⟩
      · rw [sortLoop_zero h ret hn, List.append_nil]
      · rw [live, hn]
        rfl
  | succ n ih =>
      have hpos : 0 < h.elemNums := by omega
      obtain ⟨h', hpop⟩ : ∃ h', h.pop comp = some h' := Heap.exists_pop (by omega)
      have helems : h'.elemNums = n := by
        rcases Heap.pop_cases hpop with ⟨hzero, -⟩ | ⟨-, helems, -⟩ <;> omega
      have hlive : live h = h.get 1 ::ₘ live h' := live_pop hpop hpos
      obtain ⟨out, hloop, hout, hsorted⟩ :=
        ih helems (by omega) (hord.pop hpop) (ret ++ [h.get 1])
      refine ⟨h.get 1 :: out, ?_, ?_, List.pairwise_cons.mpr ⟨?_, hsorted⟩⟩
      · rw [sortLoop_pos ret hpos, hpop, Option.bind_some, hloop, List.append_assoc,
          List.singleton_append]
      · rw [← Multiset.cons_coe, hout, ← hlive]
      · intro b hb
        apply root_first hord
        rw [hlive, ← hout]
        exact Multiset.mem_cons_of_mem hb

end Extraction

/-- `sort` ends with the values it was given, none of them before an earlier one in the
heap's order. -/
def Sorts (comp : α → α → Bool) (vc : List α) : Prop :=
  ∃ out, sort comp vc = some (.ok out) ∧ out.Perm vc ∧ out.Pairwise fun a b => ¬ comp a b

section Sizes

variable {comp : α → α → Bool} [IsStrictWeakOrder α (RelOf comp)]

theorem sorts_of_length {vc : List α} (hsize : vc.length < 2 ^ 30) : Sorts comp vc := by
  obtain ⟨h, hvector⟩ : ∃ h, Heap.ofVector comp vc = some h := Heap.exists_ofVector hsize
  have helems := (Heap.ofVector_cases hvector).1
  obtain ⟨out, hloop, hout, hsorted⟩ := sortLoop_spec _ helems (by omega)
    (inOrder_ofVector hsize hvector) []
  refine ⟨out, by rw [sort, hvector, Option.bind_some, hloop, List.nil_append], ?_, hsorted⟩
  rw [live_ofVector hvector] at hout
  exact Multiset.coe_eq_coe.mp hout

/-- The last value, which belongs first, overflows an index or stays behind the top. -/
theorem not_sorts_lastFirst {a b : α} (hab : comp a b) {n : Nat} (hn : 2 ^ 30 ≤ n) :
    ¬ Sorts comp (lastFirst a b n) := by
  rintro ⟨out, hsort, hperm, hsorted⟩
  have ha : ¬ comp a a := irrefl_of (RelOf comp) a
  have hvector : ∃ h, Heap.ofVector comp (lastFirst a b n) = some h ∧ h.get 1 = a := by
    by_cases hnarrow : n < 2 ^ 32
    · rw [sort, ofVector_eq_none hab hn hnarrow] at hsort
      cases hsort
    · rcases ofVector_lastFirst (b := b) ha (Nat.le_of_not_lt hnarrow) with hnone | hvector
      · rw [sort, hnone] at hsort
        cases hsort
      · exact hvector
  obtain ⟨h, hvector, htop⟩ := hvector
  have helems := (Heap.ofVector_cases hvector).1
  rw [length_lastFirst (by omega)] at helems
  rw [sort, hvector, Option.bind_some] at hsort
  obtain ⟨rest, hout, -, hhead⟩ := sortLoop_perm n helems hsort
  have hfirst : out.head? = some a := by rw [hout, List.nil_append, hhead (by omega), htop]
  have hlast : b ∈ out := hperm.mem_iff.mpr (by simp [lastFirst])
  cases out with
  | nil => cases hlast
  | cons first out =>
      obtain rfl := Option.some.inj hfirst
      rcases List.mem_cons.mp hlast with rfl | hlast
      · exact ha hab
      · exact (List.pairwise_cons.mp hsorted).1 b hlast hab

end Sizes

end SkUtils.Containers.HeapSort
