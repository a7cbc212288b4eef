import Mathlib.Data.Finset.Card
import Mathlib.Order.Bounds.Basic

/-!
Packing blocks of one width. A block may start where `p` holds. Going from left to right
and taking every block that starts behind the last one packs as many as is possible.
-/

namespace SkUtils.Library.GreedyPacking

variable {p : Nat → Prop} {width : Nat}

/-- Starts of blocks that do not overlap. -/
structure Packing (p : Nat → Prop) (width : Nat) (starts : Finset Nat) : Prop where
  holds : ∀ i ∈ starts, p i
  apart : ∀ i ∈ starts, ∀ j ∈ starts, i < j → i + width ≤ j

/-- The starts that are taken from a position on. -/
inductive Greedy (p : Nat → Prop) (width : Nat) : Nat → List Nat → Prop
  | done {pos : Nat} (none : ∀ i, pos ≤ i → ¬ p i) : Greedy p width pos []
  | take {pos i : Nat} {starts : List Nat} (le : pos ≤ i) (holds : p i)
      (first : ∀ j, pos ≤ j → j < i → ¬ p j) (rest : Greedy p width (i + width) starts) :
      Greedy p width pos (i :: starts)

theorem Greedy.unique {pos : Nat} {starts starts' : List Nat} (h : Greedy p width pos starts)
    (h' : Greedy p width pos starts') : starts = starts' := by
  induction h generalizing starts' with
  | done none =>
      cases h' with
      | done _ => rfl
      | take le holds _ _ => exact absurd holds (none _ le)
  | @take pos i starts le holds first _ ih =>
      cases h' with
      | done none => exact absurd holds (none i le)
      | @take _ i' starts' le' holds' first' rest' =>
          obtain rfl : i = i' := by
            rcases Nat.lt_trichotomy i i' with hlt | rfl | hlt
            · exact absurd holds (first' i le hlt)
            · rfl
            · exact absurd holds' (first i' le' hlt)
          rw [ih rest']

theorem Greedy.take_here {pos : Nat} {starts : List Nat} (holds : p pos)
    (rest : Greedy p width (pos + width) starts) : Greedy p width pos (pos :: starts) :=
  .take le_rfl holds (fun _ hle hlt => absurd hlt (Nat.not_lt.mpr hle)) rest

theorem Greedy.skip {pos : Nat} {starts : List Nat} (hpos : ¬ p pos)
    (h : Greedy p width (pos + 1) starts) : Greedy p width pos starts := by
  have hnot : ∀ {j}, pos ≤ j → (pos + 1 ≤ j → ¬ p j) → ¬ p j := by
    intro j hle hlater
    rcases Nat.lt_or_eq_of_le hle with hlt | rfl
    · exact hlater hlt
    · exact hpos
  cases h with
  | done none => exact .done fun i hle => hnot hle (none i)
  | take le holds first rest =>
      refine .take (Nat.le_of_succ_le le) holds (fun j hle hlt => hnot hle fun hsucc => ?_) rest
      exact first j hsucc hlt

theorem Greedy.bounds {pos : Nat} {starts : List Nat} (h : Greedy p width pos starts) :
    ∀ i ∈ starts, pos ≤ i ∧ p i := by
  induction h with
  | done _ => simp
  | @take pos i starts le holds _ _ ih =>
      intro j hj
      rcases List.mem_cons.mp hj with rfl | hj
      · exact ⟨le, holds⟩
      · have hlater := ih j hj
        exact ⟨by omega, hlater.2⟩

theorem Greedy.apart {pos : Nat} {starts : List Nat} (h : Greedy p width pos starts) :
    ∀ i ∈ starts, ∀ j ∈ starts, i < j → i + width ≤ j := by
  induction h with
  | done _ => simp
  | @take pos i starts _ _ _ rest ih =>
      intro j hj k hk hlt
      rcases List.mem_cons.mp hj with rfl | hj'
      · rcases List.mem_cons.mp hk with rfl | hk'
        · exact absurd hlt (Nat.lt_irrefl _)
        · exact (rest.bounds k hk').1
      · rcases List.mem_cons.mp hk with rfl | hk'
        · have hbehind := (rest.bounds j hj').1
          omega
        · exact ih j hj' k hk' hlt

theorem Greedy.nodup {pos : Nat} {starts : List Nat} (hwidth : 0 < width)
    (h : Greedy p width pos starts) : starts.Nodup := by
  induction h with
  | done _ => exact .nil
  | take _ _ _ rest ih =>
      refine List.nodup_cons.mpr ⟨fun hmem => ?_, ih⟩
      have hbehind := (rest.bounds _ hmem).1
      omega

theorem Greedy.packing {pos : Nat} {starts : List Nat} (h : Greedy p width pos starts) :
    Packing p width starts.toFinset := by
  constructor
  · intro i hi
    exact (h.bounds i (List.mem_toFinset.mp hi)).2
  · intro i hi j hj
    exact h.apart i (List.mem_toFinset.mp hi) j (List.mem_toFinset.mp hj)

theorem Packing.filter {starts : Finset Nat} (h : Packing p width starts) (q : Nat → Prop)
    [DecidablePred q] : Packing p width (starts.filter q) := by
  constructor
  · intro i hi
    exact h.holds i (Finset.mem_of_mem_filter i hi)
  · intro i hi j hj
    exact h.apart i (Finset.mem_of_mem_filter i hi) j (Finset.mem_of_mem_filter j hj)

/-- At most one block starts within a width of the first place. -/
theorem Packing.card_within {starts : Finset Nat} {i : Nat} (h : Packing p width starts)
    (hstart : ∀ j ∈ starts, i ≤ j) : (starts.filter (¬ i + width ≤ ·)).card ≤ 1 := by
  rw [Finset.card_le_one]
  intro j hj k hk
  rw [Finset.mem_filter] at hj hk
  have hij := hstart j hj.1
  have hik := hstart k hk.1
  rcases Nat.lt_trichotomy j k with hlt | heq | hlt
  · have hapart := h.apart j hj.1 k hk.1 hlt
    omega
  · exact heq
  · have hapart := h.apart k hk.1 j hj.1 hlt
    omega

/-- The blocks of another packing that start before the first greedy block ends are at
most one; the others are packed behind it. -/
theorem Greedy.card_le {pos : Nat} {starts : List Nat} {other : Finset Nat}
    (h : Greedy p width pos starts) (hother : Packing p width other)
    (hpos : ∀ i ∈ other, pos ≤ i) : other.card ≤ starts.length := by
  induction h generalizing other with
  | done none =>
      have hempty : other = ∅ := by
        rw [Finset.eq_empty_iff_forall_notMem]
        intro i hi
        exact none i (hpos i hi) (hother.holds i hi)
      simp [hempty]
  | @take pos i starts le holds first rest ih =>
      have hlater : (other.filter (i + width ≤ ·)).card ≤ starts.length := by
        apply ih (hother.filter _)
        intro j hj
        exact (Finset.mem_filter.mp hj).2
      have hstart : ∀ j ∈ other, i ≤ j := by
        intro j hj
        by_contra hlt
        exact first j (hpos j hj) (Nat.lt_of_not_le hlt) (hother.holds j hj)
      have hfirst := hother.card_within hstart
      have hsplit := Finset.card_filter_add_card_filter_not (s := other) (i + width ≤ ·)
      rw [List.length_cons]
      omega

/-- The greedy packing is a largest one. -/
theorem Greedy.isGreatest {starts : List Nat} (hwidth : 0 < width)
    (h : Greedy p width 0 starts) :
    IsGreatest {n | ∃ other, Packing p width other ∧ other.card = n} starts.length := by
  constructor
  · exact ⟨starts.toFinset, h.packing, List.toFinset_card_of_nodup (h.nodup hwidth)⟩
  · rintro n ⟨other, hother, rfl⟩
    exact h.card_le hother fun i _ => Nat.zero_le i

/-- Blocks that end before `stop` fill no more than what is there. -/
theorem Greedy.length_mul_le {pos stop : Nat} {starts : List Nat}
    (h : Greedy p width pos starts) (hstop : ∀ i, p i → i + width ≤ stop) (hpos : pos ≤ stop) :
    starts.length * width ≤ stop - pos := by
  induction h with
  | done _ => simp
  | @take pos i starts le holds _ _ ih =>
      have hrest := ih (hstop i holds)
      have hend := hstop i holds
      rw [List.length_cons, Nat.succ_mul]
      omega

end SkUtils.Library.GreedyPacking
