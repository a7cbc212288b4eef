import Mathlib.Data.Multiset.AddSub
import SkUtils.Containers.TopkQueues

/-!
`pop` returns the largest of the values pushed since the last one, from the largest down.
The argument needs of `Comp` only that its reversal is a strict weak order.
-/

namespace SkUtils.Containers.TopkLaw

open SkUtils.Library.StrictWeakOrder
open SkUtils.Library.PriorityQueues
open SkUtils.Containers.TopkQueues

universe u

variable {T : Type u}

/-- `ret` are the `k` largest of `vs`, none below a later one. -/
structure Largest (below : T → T → Prop) (k : Nat) (vs ret : List T) : Prop where
  length : ret.length = min k vs.length
  descending : ret.Pairwise fun a b => ¬ below a b
  rest : ∃ left, vs.Perm (ret ++ left) ∧ ∀ x ∈ left, ∀ y ∈ ret, ¬ below y x

section Keys

variable {β : Type*} [LinearOrder β] {below : T → T → Prop} {key : T → β} {k : Nat}
  {vs vs' ret ret' : List T}

/-- The keys of the `k` largest begin the keys in descending order. -/
theorem Largest.exists_sorted (h : Largest below k vs ret)
    (hbelow : ∀ a b, below a b ↔ key a < key b) :
    ∃ rest, (vs.map key).Perm (ret.map key ++ rest) ∧
      (ret.map key ++ rest).Pairwise fun a b => b ≤ a := by
  obtain ⟨left, hperm, hleft⟩ := h.rest
  have htrans : ∀ a b c : β, decide (b ≤ a) = true → decide (c ≤ b) = true →
      decide (c ≤ a) = true := by
    simpa using fun a b c hab hbc => le_trans hbc hab
  have htotal : ∀ a b : β, (decide (b ≤ a) || decide (a ≤ b)) = true := by
    simpa using fun a b => le_total b a
  refine ⟨(left.map key).mergeSort fun a b => b ≤ a, ?_, List.pairwise_append.mpr ⟨?_, ?_, ?_⟩⟩
  · refine (hperm.map key).trans ?_
    rw [List.map_append]
    exact (List.mergeSort_perm _ _).symm.append_left _
  · refine List.pairwise_map.mpr (h.descending.imp fun hab => ?_)
    rwa [hbelow, not_lt] at hab
  · simpa using List.pairwise_mergeSort htrans htotal (left.map key)
  · intro a ha b hb
    obtain ⟨y, hy, rfl⟩ := List.mem_map.mp ha
    obtain ⟨x, hx, rfl⟩ := List.mem_map.mp (List.mem_mergeSort.mp hb)
    have hxy := hleft x hx y hy
    rwa [hbelow, not_lt] at hxy

/-- The order in which the values were pushed matters for ties only. -/
theorem Largest.keys_eq (h : Largest below k vs ret) (h' : Largest below k vs' ret')
    (hbelow : ∀ a b, below a b ↔ key a < key b) (hperm : vs.Perm vs') :
    ret.map key = ret'.map key := by
  obtain ⟨rest, hrest, hsorted⟩ := h.exists_sorted hbelow
  obtain ⟨rest', hrest', hsorted'⟩ := h'.exists_sorted hbelow
  have hall : ret.map key ++ rest = ret'.map key ++ rest' :=
    List.Perm.eq_of_pairwise (fun a b _ _ hba hab => le_antisymm hab hba) hsorted hsorted'
      (hrest.symm.trans ((hperm.map key).trans hrest'))
  have hlength : (ret.map key).length = (ret'.map key).length := by
    rw [List.length_map, List.length_map, h.length, h'.length, hperm.length_eq]
  exact (List.append_inj hall hlength).1

end Keys

variable {comp : T → T → Bool} {std : PriorityQueue T (reversed_type comp)} {k : Nat}

/-- The queue has kept the `k` largest of `vs`. -/
structure Keeps (q : TopkQueue std) (k : Nat) (vs : List T) : Prop where
  cap : q.cap = k
  card : (std.contents q.pq).card = min k vs.length
  rest : ∃ left : Multiset T, (vs : Multiset T) = std.contents q.pq + left ∧
    ∀ x ∈ left, ∀ y ∈ std.contents q.pq, ¬ reversed_type comp x y

section Push

variable {q : TopkQueue std} {vs : List T}

theorem keeps_empty {q : TopkQueue std} (hcap : q.cap = k)
    (hempty : std.contents q.pq = 0) : Keeps q k [] where
  cap := hcap
  card := by simp [hempty]
  rest := ⟨0, by simp [hempty], by simp⟩

theorem coe_concat (vs : List T) (val : T) :
    ((vs ++ [val] : List T) : Multiset T) = val ::ₘ (vs : Multiset T) :=
  Multiset.coe_eq_coe.mpr (List.perm_append_singleton val vs)

theorem Keeps.push_room (h : Keeps q k vs) (hroom : std.size q.pq < k) (val : T) :
    Keeps { q with pq := std.push q.pq val } k (vs ++ [val]) := by
  obtain ⟨left, hvs, hleft⟩ := h.rest
  have hcard := h.card
  rw [std.size_eq] at hroom
  -- nothing has been left out yet
  have hzero : left = 0 := by
    have hlength := congrArg Multiset.card hvs
    rw [Multiset.coe_card, Multiset.card_add] at hlength
    apply Multiset.card_eq_zero.mp
    omega
  constructor
  case cap => exact h.cap
  case card =>
    rw [std.contents_push, Multiset.card_cons, List.length_append, List.length_singleton]
    omega
  case rest =>
    refine ⟨0, ?_, by simp⟩
    rw [coe_concat, hvs, hzero, std.contents_push, Multiset.add_zero, Multiset.add_zero]

variable [IsStrictWeakOrder T (RelOf (reversed_type comp))]

theorem Keeps.push_replace (h : Keeps q k vs) (hfull : k ≤ std.size q.pq) {val top : T}
    (htop : std.top q.pq = some top) (hval : reversed_type comp val top) :
    Keeps { q with pq := std.pop (std.push q.pq val) } k (vs ++ [val]) := by
  obtain ⟨left, hvs, hleft⟩ := h.rest
  have hcard := h.card
  rw [std.size_eq] at hfull
  have htopmem : top ∈ std.contents q.pq := by
    rw [std.contents_pop _ _ htop]
    exact Multiset.mem_cons_self ..
  obtain ⟨out, hout⟩ := std.exists_top (std.push q.pq val) (by
    rw [std.contents_push]
    exact Multiset.cons_ne_zero)
  have hcontents := std.contents_pop _ _ hout
  have hmaximal := std.top_maximal _ _ hout
  have hkept : ∀ y ∈ std.contents (std.pop (std.push q.pq val)),
      y ∈ std.contents (std.push q.pq val) := by
    intro y hy
    rw [hcontents]
    exact Multiset.mem_cons_of_mem hy
  constructor
  case cap => exact h.cap
  case card =>
    have hlength := congrArg Multiset.card hcontents
    rw [std.contents_push, Multiset.card_cons, Multiset.card_cons] at hlength
    rw [List.length_append, List.length_singleton]
    change (std.contents (std.pop (std.push q.pq val))).card = _
    omega
  case rest =>
    refine ⟨out ::ₘ left, ?_, ?_⟩
    · rw [coe_concat, hvs, ← Multiset.cons_add, ← std.contents_push, hcontents,
        Multiset.cons_add, Multiset.add_cons]
    · intro x hx y hy
      have hy' := hkept y hy
      rcases Multiset.mem_cons.mp hx with rfl | hx
      · exact hmaximal y hy'
      · rw [std.contents_push] at hy'
        rcases Multiset.mem_cons.mp hy' with rfl | hy'
        · intro hxy
          exact hleft x hx top htopmem (trans_of (RelOf (reversed_type comp)) hxy hval)
        · exact hleft x hx y hy'

theorem Keeps.push_discard (h : Keeps q k vs) (hfull : k ≤ std.size q.pq) {val top : T}
    (htop : std.top q.pq = some top) (hval : ¬ reversed_type comp val top) :
    Keeps q k (vs ++ [val]) := by
  obtain ⟨left, hvs, hleft⟩ := h.rest
  have hcard := h.card
  rw [std.size_eq] at hfull
  constructor
  case cap => exact h.cap
  case card =>
    rw [List.length_append, List.length_singleton]
    omega
  case rest =>
    refine ⟨val ::ₘ left, ?_, ?_⟩
    · rw [coe_concat, hvs, Multiset.add_cons]
    · intro x hx y hy
      rcases Multiset.mem_cons.mp hx with rfl | hx
      · exact not_rel_trans (r := RelOf (reversed_type comp)) hval
          (std.top_maximal _ _ htop y hy)
      · exact hleft x hx y hy

theorem Keeps.push (h : Keeps q k vs) (hk : 1 ≤ k) (val : T) :
    ∃ q', q.push val = some q' ∧ Keeps q' k (vs ++ [val]) := by
  rcases Nat.lt_or_ge (std.size q.pq) k with hroom | hfull
  · refine ⟨_, ?_, h.push_room hroom val⟩
    rw [TopkQueue.push, h.cap, if_pos hroom]
    rfl
  · obtain ⟨top, htop⟩ := std.exists_top q.pq (by
      intro hzero
      rw [std.size_eq, hzero, Multiset.card_zero] at hfull
      omega)
    rcases Bool.eq_false_or_eq_true (reversed_type comp val top) with hval | hval
    · refine ⟨_, ?_, h.push_replace hfull htop hval⟩
      rw [TopkQueue.push, h.cap, if_neg (Nat.not_lt.mpr hfull), htop]
      simp [hval]
    · refine ⟨q, ?_, h.push_discard hfull htop (by simp [hval])⟩
      rw [TopkQueue.push, h.cap, if_neg (Nat.not_lt.mpr hfull), htop]
      simp [hval]

end Push

section Pop

theorem drain_spec (n : Nat) (pq : std.Queue) (ret : List T) (hn : std.size pq = n) :
    ∃ out pq', TopkQueue.drain std n pq ret = some (ret ++ out, pq') ∧
      (out : Multiset T) = std.contents pq ∧ std.contents pq' = 0 ∧
      out.Pairwise fun a b => ¬ reversed_type comp a b := by
  induction n generalizing pq ret with
  | zero =>
      have hzero : std.contents pq = 0 := by
        rw [← Multiset.card_eq_zero, ← std.size_eq, hn]
      refine ⟨[], pq, ?_, hzero.symm, hzero, .nil⟩
      rw [TopkQueue.drain, if_pos hn, List.append_nil]
  | succ n ih =>
      obtain ⟨top, htop⟩ := std.exists_top pq (by
        intro hzero
        rw [std.size_eq, hzero, Multiset.card_zero] at hn
        omega)
      have hcontents := std.contents_pop _ _ htop
      have hsize : std.size (std.pop pq) = n := by
        rw [std.size_eq, hcontents, Multiset.card_cons, ← std.size_eq] at hn
        omega
      obtain ⟨out, pq', hdrain, hout, hempty, hsorted⟩ := ih (std.pop pq) (ret ++ [top]) hsize
      refine ⟨top :: out, pq', ?_, ?_, hempty, ?_⟩
      · rw [TopkQueue.drain, if_neg (by omega)]
        simp [htop, hdrain]
      · rw [← Multiset.cons_coe, hout, hcontents]
      · refine List.pairwise_cons.mpr ⟨?_, hsorted⟩
        intro b hb
        apply std.top_maximal _ _ htop
        rw [hcontents, ← hout]
        exact Multiset.mem_cons_of_mem hb

theorem Keeps.pop {q : TopkQueue std} {vs : List T} (h : Keeps q k vs) :
    ∃ ret q', q.pop = some (ret, q') ∧
      Largest (fun a b => reversed_type comp b a) k vs ret ∧ Keeps q' k [] ∧
      std.size q'.pq = 0 := by
  obtain ⟨left, hvs, hleft⟩ := h.rest
  obtain ⟨out, pq', hdrain, hout, hempty, hsorted⟩ := drain_spec _ q.pq [] rfl
  refine ⟨out.reverse, { q with pq := pq' }, ?_, ?_, keeps_empty h.cap hempty, ?_⟩
  · rw [TopkQueue.pop, hdrain]
    rfl
  · constructor
    case length =>
      rw [List.length_reverse, ← h.card, ← hout, Multiset.coe_card]
    case descending => exact List.pairwise_reverse.mpr hsorted
    case rest =>
      refine ⟨left.toList, ?_, ?_⟩
      · rw [← Multiset.coe_eq_coe, ← Multiset.coe_add, Multiset.coe_toList,
          Multiset.coe_reverse, hout, hvs]
      · intro x hx y hy
        apply hleft x (Multiset.mem_toList.mp hx)
        rw [← hout]
        exact List.mem_reverse.mp hy
  · rw [std.size_eq, hempty, Multiset.card_zero]

end Pop

section Runs

variable [IsStrictWeakOrder T (RelOf (reversed_type comp))]

theorem Keeps.run {q : TopkQueue std} {vs : List T} (h : Keeps q k vs) (hk : 1 ≤ k)
    (calls : List (Call T)) :
    ∃ q', q.run calls = some q' ∧ Keeps q' k (pushedFrom vs calls) := by
  induction calls generalizing q vs with
  | nil => exact ⟨q, rfl, h⟩
  | cons call calls ih =>
      cases call with
      | push val =>
          obtain ⟨q₁, hpush, h₁⟩ := h.push hk val
          obtain ⟨q', hrun, h'⟩ := ih h₁
          refine ⟨q', ?_, h'⟩
          rw [TopkQueue.run] at hrun ⊢
          simp [TopkQueue.apply, hpush, hrun]
      | pop =>
          obtain ⟨ret, q₁, hpop, _, h₁, _⟩ := h.pop
          obtain ⟨q', hrun, h'⟩ := ih h₁
          refine ⟨q', ?_, h'⟩
          rw [TopkQueue.run] at hrun ⊢
          simp [TopkQueue.apply, hpop, hrun]

variable {minStd : PriorityQueue T (reversed_type (reversed_type comp))}
  [IsStrictWeakOrder T (RelOf (reversed_type (reversed_type comp)))]

theorem run_topbottom {q : TopbottomkQueue std minStd} {vs ws : List T}
    (hmax : Keeps q.max_queue k vs) (hmin : Keeps q.min_queue k ws) (hk : 1 ≤ k)
    (calls : List (TopbottomCall T)) :
    ∃ q', q.run calls = some q' ∧
      Keeps q'.max_queue k (pushedFrom vs (topCalls calls)) ∧
      Keeps q'.min_queue k (pushedFrom ws (bottomCalls calls)) := by
  induction calls generalizing q vs ws with
  | nil => exact ⟨q, rfl, hmax, hmin⟩
  | cons call calls ih =>
      have hstep : ∀ q₁ : TopbottomkQueue std minStd, q.apply call = some q₁ →
          q.run (call :: calls) = q₁.run calls := by
        intro q₁ happly
        simp [TopbottomkQueue.run, happly]
      cases call with
      | push val =>
          obtain ⟨m, hm, hmax'⟩ := hmax.push hk val
          obtain ⟨n, hn, hmin'⟩ := hmin.push hk val
          rw [hstep ⟨m, n⟩ (by simp [TopbottomkQueue.apply,
            TopbottomkQueue.push, hm, hn])]
          exact ih hmax' hmin'
      | pop_top =>
          obtain ⟨ret, m, hm, _, hmax', _⟩ := hmax.pop
          rw [hstep ⟨m, q.min_queue⟩ (by simp [TopbottomkQueue.apply,
            TopbottomkQueue.pop_top, hm])]
          exact ih hmax' hmin
      | pop_bottom =>
          obtain ⟨ret, n, hn, _, hmin', _⟩ := hmin.pop
          rw [hstep ⟨q.max_queue, n⟩ (by simp [TopbottomkQueue.apply,
            TopbottomkQueue.pop_bottom, hn])]
          exact ih hmax hmin'

end Runs

theorem below_eq (comp : T → T → Bool) [IsStrictWeakOrder T (RelOf comp)] :
    (fun a b : T => reversed_type comp b a = true) = RelOf comp := by
  funext a b
  exact propext (reversed_type_iff b a)

theorem above_eq (comp : T → T → Bool) [IsStrictWeakOrder T (RelOf comp)] :
    (fun a b : T => reversed_type (reversed_type comp) b a = true) =
      fun a b => RelOf comp b a := by
  funext a b
  exact propext ((reversed_type_iff b a).trans (reversed_type_iff a b))

/-- After any calls, `pop` and `pop_top` return the largest values pushed since the last
one and `pop_bottom` the smallest, and they empty their queue. -/
theorem pops_largest [IsStrictWeakOrder T (RelOf comp)]
    (std : PriorityQueue T (reversed_type comp))
    (minStd : PriorityQueue T (reversed_type (reversed_type comp))) (hk : 1 ≤ k) :
    (∀ calls, ∃ q ret q', (TopkQueue.ofCapacity std k).run calls = some q ∧
      q.pop = some (ret, q') ∧ Largest (RelOf comp) k (pushedFrom [] calls) ret ∧
      std.size q'.pq = 0) ∧
    ∀ calls, ∃ q, (TopbottomkQueue.ofCapacity std minStd k).run calls = some q ∧
      (∃ ret q', q.pop_top = some (ret, q') ∧
        Largest (RelOf comp) k (pushedFrom [] (topCalls calls)) ret ∧
        std.size q'.max_queue.pq = 0) ∧
      ∃ ret q', q.pop_bottom = some (ret, q') ∧
        Largest (fun a b => RelOf comp b a) k (pushedFrom [] (bottomCalls calls)) ret ∧
        minStd.size q'.min_queue.pq = 0 := by
  have hmax := keeps_empty (q := TopkQueue.ofCapacity std k) rfl std.contents_empty
  have hmin := keeps_empty (q := TopkQueue.ofCapacity minStd k) rfl minStd.contents_empty
  constructor
  · intro calls
    obtain ⟨q, hrun, hkeeps⟩ := hmax.run hk calls
    obtain ⟨ret, q', hpop, hlargest, _, hempty⟩ := hkeeps.pop
    exact ⟨q, ret, q', hrun, hpop, below_eq comp ▸ hlargest, hempty⟩
  · intro calls
    obtain ⟨q, hrun, hmax', hmin'⟩ :=
      run_topbottom (q := .ofCapacity std minStd k) hmax hmin hk calls
    obtain ⟨top, m, htop, hlargest, _, hempty⟩ := hmax'.pop
    obtain ⟨bottom, n, hbottom, hsmallest, _, hempty'⟩ := hmin'.pop
    refine ⟨q, hrun, ⟨top, ⟨m, q.min_queue⟩, ?_, below_eq comp ▸ hlargest, hempty⟩,
      bottom, ⟨q.max_queue, n⟩, ?_, above_eq comp ▸ hsmallest, hempty'⟩
    · simp [TopbottomkQueue.pop_top, htop]
    · simp [TopbottomkQueue.pop_bottom, hbottom]

theorem pops_largest_of_three :
    ∃ q ret q', (TopkQueue.ofCapacity (sortedListQueue (reversed_type (less : Nat → _))) 2).run
        [.push 3, .push 1, .push 2] = some q ∧
      q.pop = some (ret, q') ∧ Largest (RelOf less) 2 [3, 1, 2] ret ∧
      (sortedListQueue (reversed_type less)).size q'.pq = 0 :=
  (pops_largest (sortedListQueue (reversed_type less))
    (sortedListQueue (reversed_type (reversed_type less))) (by decide)).1 _

end SkUtils.Containers.TopkLaw
