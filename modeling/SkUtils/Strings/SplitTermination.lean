import SkUtils.Random.RandomUtil
import SkUtils.Strings.StringSplit

/-!
When the loops of `split` and `count` end. Both advance by what they have found, and an
empty delimiter or substring is found everywhere.
-/

namespace SkUtils.Strings.SplitTermination

open SkUtils.Library.CheckedLoop
open SkUtils.Library.LongestMatch
open SkUtils.Random.RandomUtil (narrow)
open SkUtils.Strings.StringSplit
open SkUtils.Strings.StringUtils

/-- `str.find(substr, pos)`; `none` is `npos`. -/
def find (str substr : Str) (pos : Nat) : Option Nat :=
  (List.range (str.length + 1)).find? fun i => pos ≤ i && substr.isPrefixOf (str.drop i)

/-- The loop of `count`, cut off after `fuel` rounds. `cnt` is an `int` that wraps around. -/
def countLoop (str substr : Str) : Nat → Nat → Int → Except Failure Int
  | fuel, pos, cnt =>
      match find str substr pos with
      | none => return cnt
      | some pos =>
          match fuel with
          | 0 => throw .noProgress
          | fuel + 1 => countLoop str substr fuel (pos + substr.length) (narrow (cnt + 1))

/-- `count(str, substr)` ends. -/
def CountEnds (str substr : Str) : Prop :=
  ∃ fuel cnt, countLoop str substr fuel 0 0 = .ok cnt

/-- `_split(str, itermoter)` ends. -/
def SplitEnds (str : Str) (itermoter : Str → Bool × Nat) : Prop :=
  ∃ fuel ret, splitLoop itermoter str fuel 0 0 [] = .ok ret

section Split

variable {itermoter : Str → Bool × Nat} {delims : List Str} {str : Str}

theorem splitLoop_out (fuel : Nat) {idx : Nat} (starter : Nat) (ret : List Str)
    (hidx : str.length ≤ idx) : ∃ out, splitLoop itermoter str fuel idx starter ret = .ok out := by
  rw [splitLoop.eq_def]
  simp only [Nat.not_lt.mpr hidx, if_false]
  exact ⟨_, rfl⟩

/-- A round that cuts goes on behind the delimiter. -/
theorem splitLoop_cut (fuel starter : Nat) (ret : List Str) {idx width : Nat}
    (hidx : idx < str.length) (hcut : itermoter (str.drop idx) = (true, width)) :
    ∃ ret', splitLoop itermoter str (fuel + 1) idx starter ret =
      splitLoop itermoter str fuel (idx + width) (idx + width) ret' := by
  rw [splitLoop, if_pos hidx, hcut]
  exact ⟨_, rfl⟩

theorem drop_ne_nil {idx : Nat} (hidx : idx < str.length) : str.drop idx ≠ [] := by
  simp [hidx]

theorem exists_longest (finds : FindsLongest itermoter delims) (hempty : [] ∈ delims)
    {text : Str} (hne : text ≠ []) :
    ∃ d, IsLongest delims text d ∧ itermoter text = (true, d.length) := by
  cases text with
  | nil => exact absurd rfl hne
  | cons c rest =>
      rcases finds c rest with hlongest | ⟨hnone, -⟩
      · exact hlongest
      · exact absurd List.nil_prefix (hnone [] hempty)

theorem splitLoop_tiled (finds : FindsLongest itermoter delims) (hempty : [] ∈ delims)
    {rest : Str} (tiled : Tiled delims rest) (fuel starter : Nat) (ret : List Str) {idx : Nat}
    (hrest : str.drop idx = rest) (hfuel : str.length ≤ idx + fuel) :
    ∃ out, splitLoop itermoter str fuel idx starter ret = .ok out := by
  induction tiled generalizing fuel idx starter ret with
  | done => exact splitLoop_out fuel starter ret (List.drop_eq_nil_iff.mp hrest)
  | @word w rest text longest nonempty cut _ ih =>
      rcases Nat.lt_or_ge idx str.length with hidx | hidx
      · obtain ⟨d, hd, hcut⟩ := exists_longest finds hempty (drop_ne_nil hidx)
        obtain rfl : d = w := hd.unique (hrest ▸ longest)
        have hpos : 0 < d.length := List.length_pos_of_ne_nil nonempty
        obtain ⟨fuel, rfl⟩ := Nat.exists_eq_succ_of_ne_zero (show fuel ≠ 0 by omega)
        obtain ⟨ret', hround⟩ := splitLoop_cut fuel starter ret hidx hcut
        have hnext : str.drop (idx + d.length) = rest := by
          rw [← List.drop_drop, hrest, cut, List.drop_left]
        obtain ⟨out, hout⟩ := ih fuel (idx + d.length) ret' hnext (by omega)
        exact ⟨out, hround.trans hout⟩
      · exact splitLoop_out fuel starter ret hidx

/-- While the empty delimiter is one of them, a loop that ends has found others only. A
round that finds the empty one starts over, with less fuel. -/
theorem tiled_of_splitLoop (finds : FindsLongest itermoter delims) (hempty : [] ∈ delims)
    {fuel idx starter : Nat} {ret out : List Str}
    (hloop : splitLoop itermoter str fuel idx starter ret = .ok out) :
    Tiled delims (str.drop idx) := by
  induction fuel generalizing idx starter ret with
  | zero =>
      rcases Nat.lt_or_ge idx str.length with hidx | hidx
      · rw [splitLoop, if_pos hidx] at hloop
        cases hloop
      · rw [List.drop_of_length_le hidx]
        exact .done
  | succ fuel ih =>
      rcases Nat.lt_or_ge idx str.length with hidx | hidx
      · obtain ⟨d, hd, hcut⟩ := exists_longest finds hempty (drop_ne_nil hidx)
        obtain ⟨ret', hround⟩ := splitLoop_cut fuel starter ret hidx hcut
        have htiled : Tiled delims (str.drop (idx + d.length)) := ih (hround.symm.trans hloop)
        rcases eq_or_ne d [] with rfl | hne
        · exact htiled
        · refine .word hd hne ?_ htiled
          rw [← List.drop_drop]
          exact (List.prefix_iff_eq_append.mp hd.isPrefix).symm
      · rw [List.drop_of_length_le hidx]
        exact .done

theorem splitEnds_iff (finds : FindsLongest itermoter delims) :
    SplitEnds str itermoter ↔ [] ∉ delims ∨ Tiled delims str := by
  constructor
  · rintro ⟨fuel, ret, hloop⟩
    by_cases hempty : [] ∈ delims
    · exact .inr (by simpa using tiled_of_splitLoop finds hempty hloop)
    · exact .inl hempty
  · intro hdelims
    by_cases hempty : [] ∈ delims
    · have tiled : Tiled delims str := hdelims.resolve_left (not_not_intro hempty)
      obtain ⟨out, hloop⟩ :=
        splitLoop_tiled finds hempty tiled str.length 0 [] List.drop_zero (by omega)
      exact ⟨str.length, out, hloop⟩
    · have nonempty : NonemptyWords delims := fun w hw hnil => hempty (hnil ▸ hw)
      obtain ⟨items, scan⟩ := exists_scan nonempty str
      exact ⟨str.length, segments items, splitWith_scan finds nonempty scan⟩

theorem splitEnds_string_iff (delim : Str) :
    SplitEnds str (matchesString delim) ↔ delim ≠ [] ∨ str = [] := by
  rw [splitEnds_iff (findsLongest_matchesString delim)]
  rcases eq_or_ne delim [] with rfl | hne
  · simp [tiled_singleton_nil]
  · simp [hne, Ne.symm hne]

theorem splitEnds_strings_iff (delims : List Str) :
    SplitEnds str (matchesStrings (sortGreater delims)) ↔ [] ∉ delims ∨ Tiled delims str :=
  splitEnds_iff (findsLongest_matchesStrings delims)

end Split

section Count

variable {str substr : Str}

theorem find_bounds {pos i : Nat} (h : find str substr pos = some i) :
    pos ≤ i ∧ i ≤ str.length := by
  have hfound := List.find?_some h
  have hmem := List.mem_of_find?_eq_some h
  simp only [Bool.and_eq_true, decide_eq_true_eq] at hfound
  rw [List.mem_range] at hmem
  omega

/-- The empty string is found where the search starts. -/
theorem find_nil {pos : Nat} (hpos : pos ≤ str.length) : find str [] pos = some pos := by
  rw [find, List.find?_range_eq_some]
  refine ⟨by simp, by simp; omega, ?_⟩
  intro i hi
  simp
  omega

theorem countLoop_ok (hne : substr ≠ []) {fuel pos : Nat} (cnt : Int)
    (hfuel : str.length < pos + fuel) : ∃ out, countLoop str substr fuel pos cnt = .ok out := by
  have hwidth : 0 < substr.length := List.length_pos_of_ne_nil hne
  induction fuel generalizing pos cnt with
  | zero =>
      cases hfind : find str substr pos with
      | none => exact ⟨cnt, by rw [countLoop, hfind]; rfl⟩
      | some i =>
          have := find_bounds hfind
          omega
  | succ fuel ih =>
      cases hfind : find str substr pos with
      | none => exact ⟨cnt, by rw [countLoop, hfind]; rfl⟩
      | some i =>
          have hbounds := find_bounds hfind
          obtain ⟨out, hout⟩ :=
            ih (narrow (cnt + 1)) (show str.length < i + substr.length + fuel by omega)
          exact ⟨out, by rw [countLoop, hfind]; exact hout⟩

theorem countLoop_nil (fuel : Nat) {pos : Nat} (cnt : Int) (hpos : pos ≤ str.length) :
    countLoop str [] fuel pos cnt = .error .noProgress := by
  induction fuel generalizing cnt with
  | zero =>
      rw [countLoop, find_nil hpos]
      rfl
  | succ fuel ih =>
      rw [countLoop, find_nil hpos]
      exact ih (narrow (cnt + 1))

theorem countEnds_iff : CountEnds str substr ↔ substr ≠ [] := by
  constructor
  · rintro ⟨fuel, cnt, hloop⟩ rfl
    rw [countLoop_nil fuel 0 (Nat.zero_le _)] at hloop
    cases hloop
  · intro hne
    have hfuel : str.length < 0 + (str.length + 1) := by omega
    obtain ⟨cnt, hloop⟩ := countLoop_ok hne 0 hfuel
    exact ⟨str.length + 1, cnt, hloop⟩

end Count

/-- `split` at a string, `split` at strings and `count` end on these arguments and no
others. -/
theorem loops_end_iff (str : Str) :
    (∀ delim, SplitEnds str (matchesString delim) ↔ delim ≠ [] ∨ str = []) ∧
    (∀ delims, SplitEnds str (matchesStrings (sortGreater delims)) ↔
      [] ∉ delims ∨ Tiled delims str) ∧
    ∀ substr, CountEnds str substr ↔ substr ≠ [] :=
  ⟨splitEnds_string_iff, splitEnds_strings_iff, fun _ => countEnds_iff⟩

/-- The empty delimiter alone, next to another one, and the empty substring. -/
theorem loops_endless :
    ¬((∀ str delim, SplitEnds str (matchesString delim)) ∧
      (∀ str delims, SplitEnds str (matchesStrings (sortGreater delims))) ∧
      ∀ str substr, CountEnds str substr) ∧
    ¬SplitEnds ['a'] (matchesString []) ∧
    ¬SplitEnds ['a'] (matchesStrings (sortGreater [['x'], []])) ∧
    ¬CountEnds [] [] := by
  have hsplit : ¬SplitEnds ['a'] (matchesString []) := by
    simp [splitEnds_string_iff]
  refine ⟨fun hends => hsplit (hends.1 _ _), hsplit, ?_, by simp [countEnds_iff]⟩
  rw [splitEnds_strings_iff]
  rintro (hempty | tiled)
  · simp at hempty
  · rcases tiled with _ | ⟨longest, nonempty, _, _⟩
    have hword := longest.mem
    have hstart := longest.isPrefix
    rcases List.mem_pair.mp hword with rfl | rfl
    · simp at hstart
    · exact nonempty rfl

end SkUtils.Strings.SplitTermination
