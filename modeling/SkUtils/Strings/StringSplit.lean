import Mathlib.Data.Char
import SkUtils.Library.LongestMatch
import SkUtils.Library.StrictWeakOrder
import SkUtils.Strings.StringUtils

/-!
`split` of `string_utils.h` at a string, at one of several strings and at one of several
characters. The delimiters are tried in descending order, so that the first one that
matches is the longest, and `split` cuts at what a leftmost-longest scan takes.
-/

namespace SkUtils.Strings.StringSplit

open SkUtils.Library.LongestMatch
open SkUtils.Library.StrictWeakOrder
open SkUtils.Strings.StringUtils

def startWith (str beginning : Str) : Bool :=
  beginning.isPrefixOf str

/-- `std::sort` with `std::greater<>`. -/
def sortGreater {α : Type} [LinearOrder α] (delims : List α) : List α :=
  delims.mergeSort fun a b => !greater b a

def matchesString (delim substr : Str) : Bool × Nat :=
  if startWith substr delim then (true, delim.length) else (false, 0)

def matchesStrings : List Str → Str → Bool × Nat
  | [], _ => (false, 0)
  | delim :: delims, substr =>
      if startWith substr delim then (true, delim.length) else matchesStrings delims substr

def matchesChars : List Char → Str → Bool × Nat
  | [], _ => (false, 0)
  | c :: delims, substr =>
      if substr.head? = some c then (true, 1) else matchesChars delims substr

/-- `split(str, delim)` for a string. -/
def splitString (str delim : Str) : Except Failure (List Str) :=
  splitWith str (matchesString delim)

/-- `split(str, delims)` for a vector of strings. -/
def splitStrings (str : Str) (delims : List Str) : Except Failure (List Str) :=
  splitWith str (matchesStrings (sortGreater delims))

/-- `split(str, delims)` for a vector of characters. -/
def splitChars (str : Str) (delims : List Char) : Except Failure (List Str) :=
  splitWith str (matchesChars (sortGreater delims))

section Matching

/-- The matcher finds the longest of the delimiters. -/
def FindsLongest (itermoter : Str → Bool × Nat) (delims : List Str) : Prop :=
  ∀ c rest,
    (∃ d, IsLongest delims (c :: rest) d ∧ itermoter (c :: rest) = (true, d.length)) ∨
      ((∀ d ∈ delims, ¬ d <+: c :: rest) ∧ itermoter (c :: rest) = (false, 0))

theorem sortGreater_pairwise {α : Type} [LinearOrder α] (delims : List α) :
    (sortGreater delims).Pairwise fun a b => b ≤ a := by
  have htrans : ∀ a b c : α, (!greater b a) = true → (!greater c b) = true →
      (!greater c a) = true := by
    intro a b c hab hbc
    simp only [greater, less, Bool.not_eq_true', decide_eq_false_iff_not, not_lt] at hab hbc ⊢
    exact hbc.trans hab
  have htotal : ∀ a b : α, ((!greater b a) || (!greater a b)) = true := by
    intro a b
    simp [greater, less, le_total]
  have hsorted := List.pairwise_mergeSort htrans htotal delims
  exact hsorted.imp fun h => by simpa [greater, less] using h

theorem mem_sortGreater {α : Type} [LinearOrder α] {delims : List α} {d : α} :
    d ∈ sortGreater delims ↔ d ∈ delims :=
  List.mem_mergeSort

theorem matchesStrings_eq (delims : List Str) (substr : Str) :
    matchesStrings delims substr =
      match delims.find? (fun d => d.isPrefixOf substr) with
      | some d => (true, d.length)
      | none => (false, 0) := by
  induction delims with
  | nil => rfl
  | cons d delims ih =>
      cases hd : d.isPrefixOf substr <;> simp [matchesStrings, startWith, hd, ih]

theorem findsLongest_matchesStrings (delims : List Str) :
    FindsLongest (matchesStrings (sortGreater delims)) delims := by
  intro c rest
  rw [matchesStrings_eq]
  cases hfind : (sortGreater delims).find? (fun d => d.isPrefixOf (c :: rest)) with
  | some d =>
      have h := isLongest_of_find? (sortGreater_pairwise delims) hfind
      exact .inl ⟨d, ⟨mem_sortGreater.mp h.mem, h.isPrefix,
        fun other hother => h.longest other (mem_sortGreater.mpr hother)⟩, rfl⟩
  | none =>
      exact .inr ⟨fun d hd => noWord_of_find? hfind d (mem_sortGreater.mpr hd), rfl⟩

theorem findsLongest_matchesString (delim : Str) :
    FindsLongest (matchesString delim) [delim] := by
  intro c rest
  by_cases h : delim <+: c :: rest
  · refine .inl ⟨delim, ⟨by simp, h, fun other hother _ => ?_⟩, ?_⟩
    · rw [List.mem_singleton.mp hother]
    · simp [matchesString, startWith, h]
  · exact .inr ⟨by simpa using h, by simp [matchesString, startWith, h]⟩

theorem singleton_prefix_cons {c d : Char} {rest : Str} : [d] <+: c :: rest ↔ d = c := by
  simp

theorem findsLongest_isDelimiter (delim : Char) :
    FindsLongest (isDelimiter delim) [[delim]] := by
  intro c rest
  rw [isDelimiter_cons]
  by_cases h : c = delim
  · subst c
    refine .inl ⟨[delim], ⟨by simp, by simp, fun other hother _ => ?_⟩, by simp⟩
    rw [List.mem_singleton.mp hother]
  · refine .inr ⟨?_, by simp [h]⟩
    simpa using Ne.symm h

theorem matchesChars_cons (delims : List Char) (c : Char) (rest : Str) :
    matchesChars delims (c :: rest) = if c ∈ delims then (true, 1) else (false, 0) := by
  induction delims with
  | nil => rfl
  | cons d delims ih =>
      by_cases h : c = d
      · simp [matchesChars, h]
      · simp [matchesChars, h, ih]

theorem findsLongest_matchesChars (delims : List Char) :
    FindsLongest (matchesChars (sortGreater delims)) (delims.map fun c => [c]) := by
  intro c rest
  rw [matchesChars_cons]
  by_cases h : c ∈ delims
  · refine .inl ⟨[c], ⟨List.mem_map_of_mem h, by simp, fun other hother _ => ?_⟩, ?_⟩
    · obtain ⟨d, -, rfl⟩ := List.mem_map.mp hother
      exact le_rfl
    · simp [mem_sortGreater, h]
  · refine .inr ⟨fun other hother hmatch => ?_, by simp [mem_sortGreater, h]⟩
    obtain ⟨d, hd, rfl⟩ := List.mem_map.mp hother
    rw [singleton_prefix_cons.mp hmatch] at hd
    exact h hd

end Matching

section Scanning

variable {itermoter : Str → Bool × Nat} {delims : List Str} {str : Str}

theorem open_segment_closed {starter idx : Nat} (hidx : idx ≤ str.length) :
    (if starter < idx then [(str.drop starter).take (idx - starter)] else []) =
      closed ((str.drop starter).take (idx - starter)) := by
  rcases Nat.lt_or_ge starter idx with hlt | hge
  · have hne : (str.drop starter).take (idx - starter) ≠ [] := by
      intro hnil
      have hlen := congrArg List.length hnil
      simp only [List.length_take, List.length_drop, List.length_nil] at hlen
      omega
    rw [if_pos hlt, closed_of_ne_nil hne]
  · simp [Nat.not_lt.mpr hge, Nat.sub_eq_zero_of_le hge, closed]

theorem FindsLongest.word (finds : FindsLongest itermoter delims)
    (nonempty : NonemptyWords delims) {text w : Str} (h : IsLongest delims text w) :
    itermoter text = (true, w.length) := by
  cases text with
  | nil => exact absurd (List.prefix_nil.mp h.isPrefix) (nonempty w h.mem)
  | cons c rest =>
      rcases finds c rest with ⟨d, hd, hmatch⟩ | ⟨hnone, -⟩
      · rw [hmatch, h.unique hd]
      · exact absurd h.isPrefix (hnone w h.mem)

theorem FindsLongest.letter (finds : FindsLongest itermoter delims) {c : Char} {rest : Str}
    (h : ∀ d ∈ delims, ¬ d <+: c :: rest) : itermoter (c :: rest) = (false, 0) := by
  rcases finds c rest with ⟨d, hd, -⟩ | ⟨-, hmatch⟩
  · exact absurd hd.isPrefix (h d hd.mem)
  · exact hmatch

/-- The loop at `idx` with the segment open since `starter` goes the way of the scan. -/
theorem splitLoop_scan (finds : FindsLongest itermoter delims)
    (nonempty : NonemptyWords delims) {rest : Str} {items : List (Item Char)}
    (scan : Scan delims rest items) {fuel idx starter : Nat} {ret : List Str}
    (hrest : str.drop idx = rest) (hstarter : starter ≤ idx) (hidx : idx ≤ str.length)
    (hfuel : str.length ≤ idx + fuel) :
    splitLoop itermoter str fuel idx starter ret =
      .ok (ret ++ segmentsFrom ((str.drop starter).take (idx - starter)) items) := by
  have hlen : str.length = idx + rest.length := by
    rw [← hrest, List.length_drop]
    omega
  induction scan generalizing fuel idx starter ret with
  | done =>
      obtain rfl : idx = str.length := by simpa using hlen.symm
      rw [splitLoop_end fuel ret hstarter, segmentsFrom, ← open_segment_closed hidx,
        ← open_segment hstarter hidx]
  | @word w rest text items longest cut _ ih =>
      have hpos : 0 < w.length := List.length_pos_of_ne_nil (nonempty w longest.mem)
      rw [cut, List.length_append] at hlen
      obtain ⟨fuel, rfl⟩ := Nat.exists_eq_succ_of_ne_zero (show fuel ≠ 0 by omega)
      have hnext : str.drop (idx + w.length) = rest := by
        rw [← List.drop_drop, hrest, cut, List.drop_left]
      have hret : (if starter < idx then ret ++ [(str.drop starter).take (idx - starter)]
          else ret) = ret ++ closed ((str.drop starter).take (idx - starter)) := by
        rw [← open_segment_closed hidx]
        split <;> simp
      rw [splitLoop, if_pos (show idx < str.length by omega), hrest,
        finds.word nonempty longest]
      simp only [if_true]
      rw [ih hnext le_rfl (by omega) (by omega) (by omega), hret, segmentsFrom,
        Nat.sub_self, List.take_zero, List.append_assoc]
  | @letter a rest items noWord _ ih =>
      simp only [List.length_cons] at hlen
      obtain ⟨fuel, rfl⟩ := Nat.exists_eq_succ_of_ne_zero (show fuel ≠ 0 by omega)
      have hnext : str.drop (idx + 1) = rest := by
        rw [← List.drop_drop, hrest, List.drop_succ_cons, List.drop_zero]
      have hopen : (str.drop starter).take (idx + 1 - starter) =
          (str.drop starter).take (idx - starter) ++ [a] := by
        have hget : (str.drop starter)[idx - starter]? = some a := by
          rw [List.getElem?_drop, Nat.add_sub_cancel' hstarter, ← List.head?_drop, hrest,
            List.head?_cons]
        rw [Nat.succ_sub hstarter, List.take_add_one, hget, Option.toList_some]
      rw [splitLoop, if_pos (show idx < str.length by omega), hrest, finds.letter noWord]
      simp only [Bool.false_eq_true, if_false]
      rw [ih hnext (by omega) (by omega) (by omega) (by omega), hopen, segmentsFrom]

theorem splitWith_scan (finds : FindsLongest itermoter delims)
    (nonempty : NonemptyWords delims) {items : List (Item Char)}
    (scan : Scan delims str items) : splitWith str itermoter = .ok (segments items) := by
  rw [splitWith, splitLoop_scan finds nonempty scan List.drop_zero le_rfl (Nat.zero_le _)
    (by omega)]
  simp [segments]

end Scanning

section Overloads

/-- What the overloads of `split` take as their second argument. -/
inductive Delims
  | char (c : Char)
  | string (delim : Str)
  | chars (delims : List Char)
  | strings (delims : List Str)

def Delims.words : Delims → List Str
  | .char c => [[c]]
  | .string delim => [delim]
  | .chars delims => delims.map fun c => [c]
  | .strings delims => delims

def splitBy (str : Str) : Delims → Except Failure (List Str)
  | .char c => split str c
  | .string delim => splitString str delim
  | .chars delims => splitChars str delims
  | .strings delims => splitStrings str delims

theorem splitBy_scan {str : Str} {delims : Delims} (nonempty : NonemptyWords delims.words)
    {items : List (Item Char)} (scan : Scan delims.words str items) :
    splitBy str delims = .ok (segments items) := by
  cases delims with
  | char c => exact splitWith_scan (findsLongest_isDelimiter c) nonempty scan
  | string delim => exact splitWith_scan (findsLongest_matchesString delim) nonempty scan
  | chars delims => exact splitWith_scan (findsLongest_matchesChars delims) nonempty scan
  | strings delims => exact splitWith_scan (findsLongest_matchesStrings delims) nonempty scan

theorem splitBy_congr {str : Str} {delims delims' : Delims}
    (nonempty : NonemptyWords delims.words)
    (hwords : ∀ w, w ∈ delims'.words ↔ w ∈ delims.words) :
    splitBy str delims' = splitBy str delims := by
  obtain ⟨items, scan⟩ := exists_scan nonempty str
  have nonempty' : NonemptyWords delims'.words :=
    fun w hw => nonempty w ((hwords w).mp hw)
  rw [splitBy_scan nonempty scan,
    splitBy_scan nonempty' (scan.congr fun w => (hwords w).symm)]

/-- Every overload returns the segments of the one leftmost-longest scan. They contain
no delimiter, make up the text together with runs of delimiters, and depend only on the
set of the delimiters. -/
theorem split_leftmost_longest (str : Str) (delims : Delims)
    (nonempty : NonemptyWords delims.words) :
    (∃ items, Scan delims.words str items ∧
      (∀ items', Scan delims.words str items' → items' = items) ∧
      splitBy str delims = .ok (segments items) ∧
      (∀ t ∈ segments items, t ≠ [] ∧ ∀ d ∈ delims.words, ¬ d <:+: t) ∧
      Interleaved delims.words (segments items) str) ∧
    (∀ delims' : Delims, (∀ w, w ∈ delims'.words ↔ w ∈ delims.words) →
      splitBy str delims' = splitBy str delims) ∧
    (∀ c, splitBy str (.char c) = splitBy str (.string [c])) := by
  refine ⟨?_, fun delims' => splitBy_congr nonempty, fun c => ?_⟩
  · obtain ⟨items, scan⟩ := exists_scan nonempty str
    exact ⟨items, scan, fun items' scan' => scan'.unique nonempty scan,
      splitBy_scan nonempty scan, scan.tokens_clean nonempty, scan.interleaved_segments⟩
  · have hstring : NonemptyWords (Delims.string [c]).words := by
      simp [NonemptyWords, Delims.words]
    exact splitBy_congr hstring fun w => Iff.rfl

/-- The delimiters overlap: at `llo` the longer one is taken. -/
theorem split_leftmost_longest_hello :
    splitBy "hello worlld".toList (.strings ["ll".toList, "llo".toList, "e".toList]) =
      splitBy "hello worlld".toList
        (.strings ["llo".toList, "e".toList, "ll".toList, "e".toList]) :=
  (split_leftmost_longest "hello worlld".toList
    (.strings ["llo".toList, "e".toList, "ll".toList, "e".toList])
    (by simp [NonemptyWords, Delims.words])).2.1 _ (by simp [Delims.words]; tauto)

end Overloads

end SkUtils.Strings.StringSplit
