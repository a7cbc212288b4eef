import Mathlib.Tactic.NormNum
import SkUtils.Containers.SkipListMap

/-!
What every reachable skip list looks like on the heap, and when `insert` keeps to the
slots that the nodes have.
-/

namespace SkUtils.Containers.SkipListChains

open SkUtils.Library.LinkedChain
open SkUtils.Containers.SkipListOperations
open SkUtils.Containers.SkipListTowers
open SkUtils.Containers.SkipListMap

variable {K V : Type} [LinearOrder K]

def Increasing (heap : Heap K V) (as : List Addr) : Prop :=
  as.Pairwise fun a b => ∃ m n, heap a = some m ∧ heap b = some n ∧ m.key < n.key

/-- The chains from the head through `nextNodes[i]`, for every level `i`. -/
structure WellLinked (s : SkipList K V) : Prop where
  slots : ∀ a n, s.heap a = some n →
    n.nextNodes.length = n.level ∧ 1 ≤ n.level ∧ n.level ≤ max_level
  chain : ∀ i, i < max_level → ∃ as, Chain (succ s.heap i) s.head as ∧
    Increasing s.heap as ∧
    ∀ a, a ∈ as ↔ a ≠ s.head ∧ ∃ n, s.heap a = some n ∧ i < n.level
  subsequence : ∀ i as bs, i + 1 < max_level → Chain (succ s.heap i) s.head as →
    Chain (succ s.heap (i + 1)) s.head bs → bs.Sublist as
  count : ∀ as, Chain (succ s.heap 0) s.head as → s.node_num = as.length

/-- No node, the head included, points to `a`. -/
def Unreferenced (heap : Heap K V) (a : Addr) : Prop :=
  ∀ b n, heap b = some n → ∀ i : Nat, n.nextNodes[i]? ≠ some (some a)

section Shape

variable {s : SkipList K V} {es : List (Entry K V)}

theorem increasing_levelAddrs (h : Represents s es) (i : Nat) :
    Increasing s.heap (levelAddrs es i) := by
  rw [Increasing, levelAddrs, List.pairwise_map]
  refine (h.sorted.sublist List.filter_sublist).imp_of_mem ?_
  intro d e hd he hlt
  obtain ⟨m, hm, hmkey, _⟩ := h.heap_entry (List.mem_of_mem_filter hd)
  obtain ⟨n, hn, hnkey, _⟩ := h.heap_entry (List.mem_of_mem_filter he)
  refine ⟨m, n, hm, hn, ?_⟩
  rw [hmkey, hnkey]
  exact hlt

theorem wellLinked_of_represents (h : Represents s es) : WellLinked s where
  slots := fun a n hn => h.slots hn
  chain := fun i hi => ⟨levelAddrs es i, h.chain i hi, increasing_levelAddrs h i,
    fun a => h.mem_levelAddrs_iff⟩
  subsequence := by
    intro i as bs hi has hbs
    rw [has.unique (h.chain i (by omega)), hbs.unique (h.chain (i + 1) hi)]
    refine List.Sublist.map _ (List.monotone_filter_right es ?_)
    intro e he
    simp only [decide_eq_true_eq] at he ⊢
    omega
  count := by
    intro as has
    rw [has.unique (h.chain 0 (by decide)), levelAddrs_zero fun e he => (h.level e he).1,
      List.length_map, h.node_num]

theorem unreferenced_of_represents (h : Represents s es) {a : Addr} (ha : s.heap a = none) :
    Unreferenced s.heap a := by
  intro b n hn i hi
  obtain ⟨hslots, _, hmax⟩ := h.slots hn
  have hlevel : i < n.level := by
    rw [← hslots]
    exact (List.getElem?_eq_some_iff.mp hi).1
  have hsucc : succ s.heap i b = some a := by simp [succ, hn, hi]
  have hmem := (h.chain i (by omega)).next_mem (h.mem_chain hn hlevel) hsucc
  obtain ⟨_, m, hm, _⟩ := h.mem_levelAddrs_iff.mp hmem
  cases ha.symm.trans hm

end Shape

/-- The skip list after any calls, and what one more `erase` leaves behind. -/
theorem wellLinked_run [Inhabited K] [Inhabited V] (calls : List (Call K V × Level)) :
    ∃ s results, run empty calls = .ok (s, results) ∧ WellLinked s ∧
      ∀ key, ∃ s' erased, s.erase key = .ok (s', erased) ∧ WellLinked s' ∧
        (erased = true → ∃ a n, s.heap a = some n ∧ a ≠ s.head ∧ n.key = key ∧
          s'.heap a = none ∧ Unreferenced s'.heap a) := by
  obtain ⟨s, hrun, es, hs, _⟩ := (refines_empty (K := K) (V := V)).run calls
  refine ⟨s, _, hrun, wellLinked_of_represents hs, ?_⟩
  intro key
  rcases split_at es key hs.sorted with ⟨ds, e, bs, rfl, hds, he⟩ | ⟨ds, bs, rfl, hds, hbs⟩
  · obtain ⟨s', herase, hs', hgone⟩ := hs.erase_present hds he
    refine ⟨s', true, herase, wellLinked_of_represents hs', fun _ => ?_⟩
    have hmem : e ∈ ds ++ e :: bs := List.mem_append_right ds List.mem_cons_self
    obtain ⟨n, hn, hkey, _⟩ := hs.heap_entry hmem
    exact ⟨e.addr, n, hn, hs.head_ne hmem, hkey.trans he, hgone,
      unreferenced_of_represents hs' hgone⟩
  · refine ⟨s, false, hs.erase_absent hds hbs, wellLinked_of_represents hs, ?_⟩
    intro hfalse
    cases hfalse

section Levels

theorem get_random_level_loop_bounds (draws : Nat → Rat) (level : Nat)
    (hlevel : level ≤ max_level + 1) :
    level ≤ get_random_level.loop draws level ∧
      get_random_level.loop draws level ≤ max_level + 1 := by
  induction level using get_random_level.loop.induct draws with
  | case1 level hloop ih =>
      rw [get_random_level.loop, if_pos hloop]
      have := ih (by omega)
      omega
  | case2 level hstop =>
      rw [get_random_level.loop, if_neg hstop]
      omega

theorem get_random_level_loop_le_iff (draws : Nat → Rat) (level : Nat)
    (hlevel : 1 ≤ level) (hmax : level ≤ max_level + 1) :
    get_random_level.loop draws level ≤ max_level ↔
      ∃ i, level - 1 ≤ i ∧ i < max_level ∧ 1 / 2 ≤ draws i := by
  induction level using get_random_level.loop.induct draws with
  | case1 level hloop ih =>
      rw [get_random_level.loop, if_pos hloop, ih (by omega) (by omega)]
      constructor
      · rintro ⟨i, hi, hlt, hdraw⟩
        exact ⟨i, by omega, hlt, hdraw⟩
      · rintro ⟨i, hi, hlt, hdraw⟩
        refine ⟨i, ?_, hlt, hdraw⟩
        have hne : i ≠ level - 1 := by
          rintro rfl
          exact absurd hloop.1 (not_lt.mpr hdraw)
        omega
  | case2 level hstop =>
      rw [get_random_level.loop, if_neg hstop]
      constructor
      · intro hle
        refine ⟨level - 1, le_refl _, by omega, not_lt.mp ?_⟩
        exact fun hdraw => hstop ⟨hdraw, hle⟩
      · rintro ⟨i, hi, hlt, _⟩
        omega

theorem get_random_level_le_iff (draws : Nat → Rat) :
    get_random_level draws ≤ max_level ↔ ∃ i, i < max_level ∧ 1 / 2 ≤ draws i := by
  rw [get_random_level, get_random_level_loop_le_iff draws 1 (le_refl 1) (by decide)]
  simp

theorem one_le_get_random_level (draws : Nat → Rat) : 1 ≤ get_random_level draws :=
  (get_random_level_loop_bounds draws 1 (by decide)).1

end Levels

section Insert

/-- The level is in range, and `insert` accesses only slots that exist. -/
def StaysWithinTowers (s : SkipList K V) (key : K) (val : V) (draws : Nat → Rat) : Prop :=
  (1 ≤ get_random_level draws ∧ get_random_level draws ≤ max_level) ∧
    ∃ s' result, s.insert key val draws = .ok (s', result)

theorem staysWithinTowers_of_le {s : SkipList K V} {es : List (Entry K V)}
    (h : Represents s es) (key : K) (val : V) {draws : Nat → Rat}
    (hlevel : get_random_level draws ≤ max_level) : StaysWithinTowers s key val draws := by
  have hbounds := And.intro (one_le_get_random_level draws) hlevel
  refine ⟨hbounds, ?_⟩
  rcases split_at es key h.sorted with ⟨ds, e, bs, rfl, hds, he⟩ | ⟨ds, bs, rfl, hds, hbs⟩
  · exact ⟨s, false, h.insertAt_present hds he val _⟩
  · obtain ⟨s', hinsert, _⟩ := h.insertAt_absent hds hbs val hbounds
    exact ⟨s', true, hinsert⟩

theorem insert_outOfBounds {s : SkipList K V} {es : List (Entry K V)}
    (h : Represents s es) {key : K} (habsent : s.find key = .ok none) (val : V)
    {draws : Nat → Rat} (hlevel : max_level < get_random_level draws) :
    s.insert key val draws = .error .outOfBounds := by
  rcases split_at es key h.sorted with ⟨ds, e, bs, rfl, hds, he⟩ | ⟨ds, bs, rfl, hds, hbs⟩
  · cases (h.find_present hds he).symm.trans habsent
  · exact h.insertAt_outOfBounds hds hbs val hlevel

/-- After any calls, `insert` stays within the towers exactly when one of the first
`max_level` draws ends the loop of `get_random_level`; otherwise a new key faults. -/
theorem staysWithinTowers_iff [Inhabited K] [Inhabited V]
    (calls : List (Call K V × Level)) :
    ∃ s results, run empty calls = .ok (s, results) ∧ ∀ key val draws,
      (StaysWithinTowers s key val draws ↔ ∃ i, i < max_level ∧ 1 / 2 ≤ draws i) ∧
      (s.find key = .ok none → (¬ ∃ i, i < max_level ∧ 1 / 2 ≤ draws i) →
        s.insert key val draws = .error .outOfBounds) := by
  obtain ⟨s, hrun, es, hs, _⟩ := (refines_empty (K := K) (V := V)).run calls
  refine ⟨s, _, hrun, ?_⟩
  intro key val draws
  rw [← get_random_level_le_iff]
  constructor
  · constructor
    · exact fun h => h.1.2
    · exact staysWithinTowers_of_le hs key val
  · intro habsent hlevel
    exact insert_outOfBounds hs habsent val (not_le.mp hlevel)

/-- Twenty favourable draws give a new node the level 21. -/
theorem insert_leaves_towers :
    run (empty : SkipList Nat Nat) [] = .ok (empty, []) ∧
      (∀ i : Nat, 0 ≤ (fun _ => 1 / 4 : Nat → Rat) i ∧ (fun _ => 1 / 4 : Nat → Rat) i < 1) ∧
      get_random_level (fun _ => 1 / 4) = 21 ∧
      (empty : SkipList Nat Nat).insert 1 1 (fun _ => 1 / 4) = .error .outOfBounds ∧
      ¬ StaysWithinTowers (empty : SkipList Nat Nat) 1 1 (fun _ => 1 / 4) := by
  have hlevel : max_level < get_random_level (fun _ => 1 / 4) := by
    rw [← not_le, get_random_level_le_iff]
    rintro ⟨_, _, hdraw⟩
    norm_num at hdraw
  have hbound := (get_random_level_loop_bounds (fun _ => 1 / 4) 1 (by decide)).2
  refine ⟨rfl, fun _ => by norm_num, ?_, ?_, ?_⟩
  · exact le_antisymm hbound hlevel
  · have hrep : Represents (empty : SkipList Nat Nat) ([] ++ []) := represents_empty
    exact insert_outOfBounds hrep (hrep.find_absent (by simp) (by simp)) 1 hlevel
  · exact fun h => absurd h.1.2 (not_le.mpr hlevel)

end Insert

end SkUtils.Containers.SkipListChains
