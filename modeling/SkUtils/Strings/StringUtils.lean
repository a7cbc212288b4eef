import Mathlib.Data.List.DropRight
import SkUtils.Library.CheckedLoop

/-!
`split` at a character and `strip` of `string_utils.h`. A `std::string` is the list of
its characters; positions are indices into it.
-/

namespace SkUtils.Strings.StringUtils

open SkUtils.Library.CheckedLoop

abbrev Str :=
  List Char

/-- What ends a call early: an exception of the standard library, or a loop that does
not end. -/
inductive Failure
  | outOfRange
  | badVariantAccess
  | noProgress
deriving DecidableEq

/-- The loop of `_split`, cut off after `fuel` rounds. -/
def splitLoop (itermoter : Str → Bool × Nat) (str : Str) :
    Nat → Nat → Nat → List Str → Except Failure (List Str)
  | fuel, idx, starter, ret =>
      if idx < str.length then
        match fuel with
        | 0 => throw .noProgress
        | fuel + 1 =>
            let (isDelim, idxInstance) := itermoter (str.drop idx)
            if isDelim then
              let ret := if starter < idx then ret ++ [(str.drop starter).take (idx - starter)]
                else ret
              splitLoop itermoter str fuel (idx + idxInstance) (idx + idxInstance) ret
            else
              splitLoop itermoter str fuel (idx + 1) starter ret
      else
        return if starter < str.length then ret ++ [str.drop starter] else ret

def splitWith (str : Str) (itermoter : Str → Bool × Nat) : Except Failure (List Str) :=
  splitLoop itermoter str str.length 0 0 []

def isDelimiter (delim : Char) (substr : Str) : Bool × Nat :=
  if substr.head? = some delim then (true, 1) else (false, 0)

/-- `split(str, delim)` for a character. -/
def split (str : Str) (delim : Char) : Except Failure (List Str) :=
  splitWith str (isDelimiter delim)

def find_first_not_of (str : Str) (c : Char) : Option Nat :=
  str.findIdx? (· != c)

def find_last_not_of (str : Str) (c : Char) : Option Nat :=
  (str.reverse.findIdx? (· != c)).map (str.length - 1 - ·)

/-- `strip`; a `substr` from `npos` throws. -/
def strip (str : Str) : Except Failure Str :=
  match find_first_not_of str ' ', find_last_not_of str ' ' with
  | some l, some r => return (str.drop l).take (r - l + 1)
  | _, _ => throw .outOfRange

section Split

variable {delim : Char} {str : Str}

/-- The non-empty segments between the delimiters. -/
def pieces (str : Str) (delim : Char) : List Str :=
  (str.splitOn delim).filter (· ≠ [])

theorem not_mem_of_mem_splitOn {piece : Str} (h : piece ∈ str.splitOn delim) : delim ∉ piece := by
  induction str generalizing piece with
  | nil =>
      obtain rfl : piece = [] := by simpa using h
      exact List.not_mem_nil
  | cons c str ih =>
      rw [List.splitOn_cons_eq_if_modifyHead] at h
      obtain ⟨first, rest, hsplit⟩ := List.exists_cons_of_ne_nil (List.splitOn_ne_nil delim str)
      rw [hsplit] at h ih
      split at h
      · rcases List.mem_cons.mp h with rfl | hpiece
        · exact List.not_mem_nil
        · exact ih hpiece
      · rename_i hdelim
        rcases List.mem_cons.mp h with rfl | hpiece
        · have hfirst := ih List.mem_cons_self
          simp only [List.mem_cons, not_or]
          exact ⟨fun heq => hdelim (by simp [heq]), hfirst⟩
        · exact ih (List.mem_cons_of_mem first hpiece)

theorem pieces_eq_singleton (hdelim : delim ∉ str) (hne : str ≠ []) :
    pieces str delim = [str] := by
  rw [pieces, List.splitOn_eq_singleton hdelim]
  simp [hne]

theorem isDelimiter_cons (delim c : Char) (substr : Str) :
    isDelimiter delim (c :: substr) = if c = delim then (true, 1) else (false, 0) := by
  simp [isDelimiter]

theorem open_segment {starter idx : Nat} (hstarter : starter ≤ idx) (hidx : idx ≤ str.length) :
    (if starter < idx then [(str.drop starter).take (idx - starter)] else []) =
      [(str.drop starter).take (idx - starter)].filter (· ≠ []) := by
  rcases Nat.lt_or_eq_of_le hstarter with hlt | rfl
  · have hne : (str.drop starter).take (idx - starter) ≠ [] := by
      intro hnil
      have hlen := congrArg List.length hnil
      simp only [List.length_take, List.length_drop, List.length_nil] at hlen
      omega
    simp [hlt, hne]
  · simp

theorem splitLoop_end {itermoter : Str → Bool × Nat} (fuel : Nat) {starter : Nat}
    (ret : List Str) (hstarter : starter ≤ str.length) :
    splitLoop itermoter str fuel str.length starter ret =
      .ok (ret ++ [(str.drop starter).take (str.length - starter)].filter (· ≠ [])) := by
  rw [← open_segment hstarter (Nat.le_refl _), splitLoop.eq_def,
    List.take_of_length_le (by simp)]
  simp only [Nat.lt_irrefl, if_false, pure_eq_ok]
  split <;> simp

/-- The loop cuts what it has read of the open segment, and then the rest. -/
theorem splitLoop_eq_ok {fuel idx starter : Nat} {ret : List Str} (hstarter : starter ≤ idx)
    (hidx : idx ≤ str.length) (hfuel : str.length ≤ idx + fuel) :
    splitLoop (isDelimiter delim) str fuel idx starter ret =
      .ok (ret ++ (List.splitOnPPrepend (· == delim) (str.drop idx)
        ((str.drop starter).take (idx - starter)).reverse).filter (· ≠ [])) := by
  induction fuel generalizing idx starter ret with
  | zero =>
      obtain rfl : idx = str.length := by omega
      rw [splitLoop_end 0 ret hstarter, List.drop_length, List.splitOnPPrepend_nil,
        List.reverse_reverse]
  | succ fuel ih =>
      rcases Nat.lt_or_eq_of_le hidx with hlt | rfl
      · rw [splitLoop, if_pos hlt, List.drop_eq_getElem_cons hlt, isDelimiter_cons,
          List.splitOnPPrepend_cons_eq_if]
        rcases eq_or_ne str[idx] delim with hdelim | hdelim
        · simp only [hdelim, if_true, beq_self_eq_true]
          rw [ih (Nat.le_refl _) hlt (by omega), Nat.sub_self, List.take_zero,
            List.reverse_nil, List.splitOnPPrepend_nil_right, List.reverse_reverse]
          have hcut := List.filter_append (p := (· ≠ []))
            [(str.drop starter).take (idx - starter)]
            (List.splitOnP (· == delim) (str.drop (idx + 1)))
          rw [List.singleton_append, ← open_segment hstarter hidx] at hcut
          rw [hcut]
          split <;> simp
        · have hopen : (str.drop starter).take (idx + 1 - starter) =
              (str.drop starter).take (idx - starter) ++ [str[idx]] := by
            have hwidth : idx - starter < (str.drop starter).length := by
              simp only [List.length_drop]
              omega
            have hget : str[idx] = (str.drop starter)[idx - starter] := by
              simp [Nat.add_sub_cancel' hstarter]
            rw [hget, List.take_append_getElem, Nat.succ_sub hstarter]
          simp only [if_neg hdelim, beq_eq_false_iff_ne.mpr hdelim, Bool.false_eq_true, if_false]
          rw [ih (by omega) hlt (by omega), hopen, List.reverse_append]
          rfl
      · rw [splitLoop_end _ ret hstarter, List.drop_length, List.splitOnPPrepend_nil,
          List.reverse_reverse]

theorem split_eq_ok (str : Str) (delim : Char) : split str delim = .ok (pieces str delim) := by
  rw [split, splitWith, splitLoop_eq_ok (Nat.le_refl 0) (Nat.zero_le _) (by omega)]
  simp [pieces, List.splitOn_eq_splitOnP]

end Split

section Strip

def stripped (str : Str) : Str :=
  (str.dropWhile (· == ' ')).rdropWhile (· == ' ')

theorem findIdx?_blanks {blanks rest : Str} {c : Char} (hblanks : ∀ b ∈ blanks, b = ' ')
    (hc : c ≠ ' ') : (blanks ++ c :: rest).findIdx? (· != ' ') = some blanks.length := by
  have hnone : blanks.findIdx? (· != ' ') = none :=
    List.findIdx?_eq_none_iff.mpr fun b hb => by simp [hblanks b hb]
  simp [List.findIdx?_append, hnone, List.findIdx?_cons, hc]

theorem strip_between {blanks core blanks' : Str} (hne : core ≠ [])
    (hblanks : ∀ b ∈ blanks, b = ' ') (hblanks' : ∀ b ∈ blanks', b = ' ')
    (hhead : core.head hne ≠ ' ') (hlast : core.getLast hne ≠ ' ') :
    strip (blanks ++ core ++ blanks') = .ok core := by
  have hfirst : find_first_not_of (blanks ++ core ++ blanks') ' ' = some blanks.length := by
    rw [find_first_not_of, List.append_assoc, ← List.cons_head_tail hne, List.cons_append,
      findIdx?_blanks hblanks hhead]
  have hfinal : find_last_not_of (blanks ++ core ++ blanks') ' ' =
      some (blanks.length + core.length - 1) := by
    have hrev : (blanks ++ core ++ blanks').reverse = blanks'.reverse ++
        core.getLast hne :: (core.dropLast.reverse ++ blanks.reverse) := by
      conv_lhs => rw [← List.dropLast_append_getLast hne]
      simp
    rw [find_last_not_of, hrev, findIdx?_blanks (by simpa using hblanks') hlast]
    simp only [Option.map_some, List.length_append, List.length_reverse, Option.some.injEq]
    omega
  have hpos : 0 < core.length := List.length_pos_of_ne_nil hne
  have hwidth : blanks.length + core.length - 1 - blanks.length + 1 = core.length := by omega
  rw [strip, hfirst, hfinal]
  simp [hwidth]

/-- Not empty, and without blanks at its ends. -/
structure Trimmed (str : Str) : Prop where
  ne_nil : str ≠ []
  head : str.head ne_nil ≠ ' '
  last : str.getLast ne_nil ≠ ' '

theorem trimmed_stripped {str : Str} (h : ∃ c ∈ str, c ≠ ' ') : Trimmed (stripped str) := by
  have hopen : str.dropWhile (· == ' ') ≠ [] := by
    simpa [List.dropWhile_eq_nil_iff] using h
  have hhead := List.head_dropWhile_not (· == ' ') hopen
  have hne : stripped str ≠ [] := by
    intro hnil
    have hall := List.rdropWhile_eq_nil_iff.mp hnil _ (List.head_mem hopen)
    exact Bool.false_ne_true (hhead.symm.trans hall)
  have hleading : stripped str <+: str.dropWhile (· == ' ') := List.rdropWhile_prefix _ _
  refine ⟨hne, ?_, ?_⟩
  · rw [hleading.head hne]
    simpa using hhead
  · simpa [stripped] using List.rdropWhile_last_not _ _ hne

theorem Trimmed.stripped_eq {str : Str} (h : Trimmed str) : stripped str = str := by
  have hopen : str.dropWhile (· == ' ') = str := by
    rw [← List.cons_head_tail h.ne_nil, List.dropWhile_cons_of_neg (by simpa using h.head)]
  rw [stripped, hopen, List.rdropWhile_eq_self_iff]
  intro hne
  simpa using h.last

theorem strip_eq_ok {str : Str} (h : ∃ c ∈ str, c ≠ ' ') : strip str = .ok (stripped str) := by
  have htrimmed := trimmed_stripped h
  have hstr : str.takeWhile (· == ' ') ++ stripped str ++
      (str.dropWhile (· == ' ')).rtakeWhile (· == ' ') = str := by
    rw [List.append_assoc, stripped, List.rdropWhile_append_rtakeWhile,
      List.takeWhile_append_dropWhile]
  have hstrip : strip (str.takeWhile (· == ' ') ++ stripped str ++
      (str.dropWhile (· == ' ')).rtakeWhile (· == ' ')) = .ok (stripped str) := by
    apply strip_between htrimmed.ne_nil
    · intro b hb
      simpa using List.mem_takeWhile_imp hb
    · intro b hb
      simpa using List.mem_rtakeWhile_imp hb
    · exact htrimmed.head
    · exact htrimmed.last
  rwa [hstr] at hstrip

end Strip

end SkUtils.Strings.StringUtils
