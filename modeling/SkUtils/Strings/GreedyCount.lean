import SkUtils.Library.GreedyPacking
import SkUtils.Strings.SplitTermination

/-!
What `count` counts. It takes the next occurrence behind the last one, and `split` tries
the delimiter at every position; both take the same occurrences, and no choice of
occurrences that do not overlap is larger. The `int` holds their number below 2^31.
-/

namespace SkUtils.Strings.GreedyCount

open SkUtils.Library.CheckedLoop
open SkUtils.Library.GreedyPacking
open SkUtils.Library.LongestMatch
open SkUtils.Random.RandomUtil (narrow)
open SkUtils.Strings.SplitTermination
open SkUtils.Strings.StringSplit
open SkUtils.Strings.StringUtils

/-- `substr` stands in `str` at the position `i`. -/
def Occurs (str substr : Str) (i : Nat) : Prop :=
  substr <+: str.drop i

instance (str substr : Str) (i : Nat) : Decidable (Occurs str substr i) :=
  inferInstanceAs (Decidable (substr <+: str.drop i))

def count (str substr : Str) : Except Failure Int :=
  countLoop str substr (str.length + 1) 0 0

/-- `splitLoop`, with the positions of the delimiters that it consumes. -/
def consumingLoop (itermoter : Str → Bool × Nat) (str : Str) :
    Nat → Nat → Nat → List Str → List Nat → Except Failure (List Str × List Nat)
  | fuel, idx, starter, ret, consumed =>
      if idx < str.length then
        match fuel with
        | 0 => throw .noProgress
        | fuel + 1 =>
            let (isDelim, idxInstance) := itermoter (str.drop idx)
            if isDelim then
              let ret := if starter < idx then ret ++ [(str.drop starter).take (idx - starter)]
                else ret
              consumingLoop itermoter str fuel (idx + idxInstance) (idx + idxInstance) ret
                (consumed ++ [idx])
            else
              consumingLoop itermoter str fuel (idx + 1) starter ret consumed
      else
        return (if starter < str.length then ret ++ [str.drop starter] else ret, consumed)

/-- What `split(str, delim)` returns, and where it consumes the delimiter. -/
def consumingSplit (str delim : Str) : Except Failure (List Str × List Nat) :=
  consumingLoop (matchesString delim) str str.length 0 0 [] []

section Occurrences

variable {str substr : Str}

theorem Occurs.le_length (hne : substr ≠ []) {i : Nat} (h : Occurs str substr i) :
    i + substr.length ≤ str.length := by
  have hlength := h.length_le
  have hpos : 0 < substr.length := List.length_pos_of_ne_nil hne
  rw [List.length_drop] at hlength
  omega

theorem found_iff {pos i : Nat} :
    (pos ≤ i && substr.isPrefixOf (str.drop i)) = true ↔ pos ≤ i ∧ Occurs str substr i := by
  rw [Bool.and_eq_true, decide_eq_true_eq, List.isPrefixOf_iff_prefix, Occurs]

theorem find_eq_some {pos i : Nat} (h : find str substr pos = some i) :
    pos ≤ i ∧ Occurs str substr i ∧ ∀ j, pos ≤ j → j < i → ¬ Occurs str substr j := by
  rw [find, List.find?_range_eq_some] at h
  obtain ⟨hfound, -, hbefore⟩ := h
  obtain ⟨hle, hoccurs⟩ := found_iff.mp hfound
  refine ⟨hle, hoccurs, fun j hpos hlt hother => ?_⟩
  have hnot := hbefore j hlt
  rw [found_iff.mpr ⟨hpos, hother⟩] at hnot
  cases hnot

theorem find_eq_none (hne : substr ≠ []) {pos : Nat} (h : find str substr pos = none) :
    ∀ i, pos ≤ i → ¬ Occurs str substr i := by
  intro i hpos hoccurs
  have hlength := hoccurs.le_length hne
  rw [find, List.find?_range_eq_none] at h
  have hnot := h i (by omega)
  rw [found_iff.mpr ⟨hpos, hoccurs⟩] at hnot
  cases hnot

theorem matchesString_eq (delim : Str) (idx : Nat) :
    matchesString delim (str.drop idx) =
      if Occurs str delim idx then (true, delim.length) else (false, 0) := by
  simp only [matchesString, startWith, List.isPrefixOf_iff_prefix]
  rfl

end Occurrences

section Loops

variable {str substr : Str}

theorem narrow_narrow_add (x y : Int) : narrow (narrow x + y) = narrow (x + y) := by
  rw [narrow, narrow, narrow, Int.bmod_add_bmod]

/-- Where nothing more is found the loop is left. -/
theorem countLoop_done (hne : substr ≠ []) {pos : Nat} {cnt out : Int}
    (hfind : find str substr pos = none)
    (hout : (.ok (narrow cnt) : Except Failure Int) = .ok out) :
    ∃ starts, Greedy (Occurs str substr) substr.length pos starts ∧
      out = narrow (cnt + starts.length) := by
  refine ⟨[], .done (find_eq_none hne hfind), ?_⟩
  rw [← Except.ok.inj hout, List.length_nil, Int.natCast_zero, Int.add_zero]

theorem countLoop_greedy (hne : substr ≠ []) {fuel pos : Nat} {cnt out : Int}
    (h : countLoop str substr fuel pos (narrow cnt) = .ok out) :
    ∃ starts, Greedy (Occurs str substr) substr.length pos starts ∧
      out = narrow (cnt + starts.length) := by
  induction fuel generalizing pos cnt with
  | zero =>
      rw [countLoop] at h
      cases hfind : find str substr pos with
      | none =>
          rw [hfind] at h
          exact countLoop_done hne hfind h
      | some i =>
          rw [hfind] at h
          cases h
  | succ fuel ih =>
      rw [countLoop] at h
      cases hfind : find str substr pos with
      | none =>
          rw [hfind] at h
          exact countLoop_done hne hfind h
      | some i =>
          rw [hfind] at h
          dsimp only at h
          rw [narrow_narrow_add] at h
          obtain ⟨starts, hrest, rfl⟩ := ih h
          obtain ⟨hle, hoccurs, hfirst⟩ := find_eq_some hfind
          refine ⟨i :: starts, .take hle hoccurs hfirst hrest, ?_⟩
          rw [List.length_cons, Int.natCast_add, Int.natCast_one, Int.add_assoc,
            Int.add_comm 1]

/-- The positions are all that is new. -/
theorem consumingLoop_fst (str : Str) (itermoter : Str → Bool × Nat) (fuel idx starter : Nat)
    (ret : List Str) (consumed : List Nat) :
    (Prod.fst <$> consumingLoop itermoter str fuel idx starter ret consumed) =
      splitLoop itermoter str fuel idx starter ret := by
  induction fuel generalizing idx starter ret consumed with
  | zero =>
      rw [consumingLoop, splitLoop]
      split <;> rfl
  | succ fuel ih =>
      rw [consumingLoop, splitLoop]
      split
      case isTrue =>
          dsimp only
          split
          · exact ih _ _ _ _
          · exact ih _ _ _ _
      case isFalse => rfl

/-- Behind the text nothing is consumed. -/
theorem consumingLoop_end (hne : substr ≠ []) {fuel idx starter : Nat} {ret out : List Str}
    {consumed positions : List Nat} (hidx : ¬ idx < str.length)
    (h : consumingLoop (matchesString substr) str fuel idx starter ret consumed =
      .ok (out, positions)) :
    ∃ starts, Greedy (Occurs str substr) substr.length idx starts ∧
      positions = consumed ++ starts := by
  rw [consumingLoop.eq_def] at h
  simp only [if_neg hidx] at h
  refine ⟨[], .done fun i hle hoccurs => ?_, ?_⟩
  · have hlength := hoccurs.le_length hne
    have hpos : 0 < substr.length := List.length_pos_of_ne_nil hne
    omega
  · rw [List.append_nil]
    exact (Prod.mk.inj (Except.ok.inj h)).2.symm

theorem consumingLoop_greedy (hne : substr ≠ []) {fuel idx starter : Nat} {ret out : List Str}
    {consumed positions : List Nat}
    (h : consumingLoop (matchesString substr) str fuel idx starter ret consumed =
      .ok (out, positions)) :
    ∃ starts, Greedy (Occurs str substr) substr.length idx starts ∧
      positions = consumed ++ starts := by
  induction fuel generalizing idx starter ret consumed with
  | zero =>
      by_cases hidx : idx < str.length
      · rw [consumingLoop, if_pos hidx] at h
        cases h
      · exact consumingLoop_end hne hidx h
  | succ fuel ih =>
      by_cases hidx : idx < str.length
      · rw [consumingLoop, if_pos hidx, matchesString_eq] at h
        by_cases hoccurs : Occurs str substr idx
        · rw [if_pos hoccurs] at h
          obtain ⟨starts, hrest, rfl⟩ := ih h
          exact ⟨idx :: starts, .take_here hoccurs hrest, by simp⟩
        · rw [if_neg hoccurs] at h
          obtain ⟨starts, hrest, rfl⟩ := ih h
          exact ⟨starts, hrest.skip hoccurs, rfl⟩
      · exact consumingLoop_end hne hidx h

end Loops

/-- The number of occurrences that `split` consumes is the greatest, and `count` is what an
`int` makes of it. -/
theorem count_greatest (str : Str) {substr : Str} (hne : substr ≠ []) :
    ∃ cnt : Nat, count str substr = .ok (narrow cnt) ∧
      IsGreatest {n | ∃ starts, Packing (Occurs str substr) substr.length starts ∧
        starts.card = n} cnt ∧
      cnt * substr.length ≤ str.length ∧
      ∃ ret consumed, splitString str substr = .ok ret ∧
        consumingSplit str substr = .ok (ret, consumed) ∧ consumed.length = cnt := by
  obtain ⟨out, hcount⟩ := countLoop_ok hne 0 (show str.length < 0 + (str.length + 1) by omega)
  rw [← show narrow 0 = 0 from rfl] at hcount
  obtain ⟨starts, hgreedy, hcnt⟩ := countLoop_greedy hne hcount
  rw [Int.zero_add] at hcnt
  obtain ⟨ret, hsplit⟩ : ∃ ret, splitString str substr = .ok ret := by
    obtain ⟨items, scan⟩ := @exists_scan _ [substr] (by simpa [NonemptyWords] using hne) str
    exact ⟨_, @splitBy_scan str (.string substr) (by simpa [NonemptyWords, Delims.words]) _ scan⟩
  have hfst := consumingLoop_fst str (matchesString substr) str.length 0 0 [] []
  refine ⟨starts.length, by rw [← hcnt]; exact hcount,
    hgreedy.isGreatest (List.length_pos_of_ne_nil hne), ?_, ?_⟩
  · have hroom := hgreedy.length_mul_le (fun i hi => hi.le_length hne) (Nat.zero_le str.length)
    rwa [Nat.sub_zero] at hroom
  cases hloop : consumingSplit str substr with
  | error failure =>
      rw [consumingSplit] at hloop
      rw [hloop] at hfst
      have herror : (.error failure : Except Failure (List Str)) = .ok ret := hfst.trans hsplit
      cases herror
  | ok result =>
      obtain ⟨out, consumed⟩ := result
      rw [consumingSplit] at hloop
      obtain ⟨positions, hpositions, rfl⟩ := consumingLoop_greedy hne hloop
      rw [hloop] at hfst
      obtain rfl : out = ret := Except.ok.inj (hfst.trans hsplit)
      obtain rfl := hgreedy.unique hpositions
      exact ⟨out, starts, hsplit, rfl, rfl⟩

/-- `count` is the largest number of occurrences that do not overlap, and the number of
delimiters that `split` consumes. -/
def CountsGreatest (str substr : Str) : Prop :=
  ∃ cnt : Nat, count str substr = .ok (cnt : Int) ∧
    IsGreatest {n | ∃ starts, Packing (Occurs str substr) substr.length starts ∧
      starts.card = n} cnt ∧
    ∃ ret consumed, splitString str substr = .ok ret ∧
      consumingSplit str substr = .ok (ret, consumed) ∧ consumed.length = cnt

theorem narrow_eq_iff {n k : Nat} (hk : narrow n = (k : Int)) (h : k = n) : n < 2 ^ 31 := by
  rw [narrow, Int.bmod_def] at hk
  omega

theorem narrow_eq {n : Nat} (h : n < 2 ^ 31) : narrow n = (n : Int) := by
  rw [narrow, Int.bmod_def]
  omega

theorem countsGreatest_iff {str substr : Str} (hne : substr ≠ []) :
    CountsGreatest str substr ↔
      ∀ starts, Packing (Occurs str substr) substr.length starts → starts.card < 2 ^ 31 := by
  obtain ⟨cnt, hcount, hgreatest, -, hsplit⟩ := count_greatest str hne
  constructor
  · rintro ⟨out, hout, hgreatest', -⟩ starts hstarts
    obtain rfl := hgreatest.unique hgreatest'
    have hfits := narrow_eq_iff (Except.ok.inj (hcount.symm.trans hout)) rfl
    exact (hgreatest.2 ⟨starts, hstarts, rfl⟩).trans_lt hfits
  · intro hfits
    obtain ⟨starts, hstarts, rfl⟩ := hgreatest.1
    exact ⟨_, by rw [hcount, narrow_eq (hfits starts hstarts)], hgreatest, hsplit⟩

theorem countsGreatest_of_length {str substr : Str} (hne : substr ≠ [])
    (hlength : str.length < 2 ^ 31) : CountsGreatest str substr := by
  obtain ⟨cnt, hcount, hgreatest, hroom, hsplit⟩ := count_greatest str hne
  have hle : cnt ≤ cnt * substr.length :=
    Nat.le_mul_of_pos_right cnt (List.length_pos_of_ne_nil hne)
  exact ⟨cnt, by rw [hcount, narrow_eq (by omega)], hgreatest, hsplit⟩

/-- Greedy counting is optimal exactly as long as an `int` holds the count, as it does for
every string of fewer than 2^31 characters. -/
theorem count_optimal_iff (str substr : Str) (hne : substr ≠ []) :
    (CountsGreatest str substr ↔
      ∀ starts, Packing (Occurs str substr) substr.length starts → starts.card < 2 ^ 31) ∧
    (str.length < 2 ^ 31 → CountsGreatest str substr) :=
  ⟨countsGreatest_iff hne, countsGreatest_of_length hne⟩

/-- The occurrences at 0 and at 2; the one at 1 overlaps both. -/
theorem count_optimal_iff_overlapping : CountsGreatest "aaaa".toList "aa".toList :=
  (count_optimal_iff "aaaa".toList "aa".toList (by simp)).2 (by simp)

/-- In 2^31 times the same character, the `int` is back at -2^31. -/
theorem count_wraps : ¬ CountsGreatest (List.replicate (2 ^ 31) 'a') ['a'] := by
  have hpacking : Packing (Occurs (List.replicate (2 ^ 31) 'a') ['a']) 1
      (Finset.range (2 ^ 31)) := by
    constructor
    · intro i hi
      rw [Finset.mem_range] at hi
      rw [Occurs, List.drop_replicate]
      obtain ⟨k, hk⟩ : ∃ k, 2 ^ 31 - i = k + 1 := ⟨2 ^ 31 - i - 1, by omega⟩
      rw [hk, List.replicate_succ]
      exact ⟨_, rfl⟩
    · intro i _ j _ hij
      exact hij
  intro hcounts
  have hlt := (countsGreatest_iff (by simp)).mp hcounts _ hpacking
  rw [Finset.card_range] at hlt
  exact Nat.lt_irrefl _ hlt

end SkUtils.Strings.GreedyCount
