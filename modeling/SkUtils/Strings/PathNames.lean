import SkUtils.Strings.SplitTermination
import SkUtils.Strings.StackPrinter

/-!
`dirname` and `basename` of `string_utils.h`, and the name that `moderntools.cpp` takes from
a repository. `dirname` cuts at the last `/` if there is one, `basename` behind the last
separator of either kind; both callers of `split` index what it returns.
-/

namespace SkUtils.Strings.PathNames

open SkUtils.Library.LongestMatch
open SkUtils.Strings.SplitTermination (find)
open SkUtils.Strings.StackPrinter (rfindChar rfindChar_eq)
open SkUtils.Strings.StringSplit
open SkUtils.Strings.StringUtils

/-- `find_last_of` of a character. -/
def find_last_of (str : Str) (c : Char) : Option Nat :=
  rfindChar c str

/-- A `substr` up to `npos` is the whole. -/
def dirname (filename : Str) : Str :=
  let pos :=
    match find_last_of filename '/' with
    | some pos => some pos
    | none => find_last_of filename '\\'
  match pos with
  | some pos => filename.take pos
  | none => filename

/-- `none` is an index outside of what `split` returns. -/
def basename (filename : Str) : Except Failure (Option Str) := do
  let pieces ← splitStrings filename [['/'], ['\\']]
  return pieces.getLast?

def FromRepoToName (repo : Str) : Except Failure (Option Str) := do
  let pieces ← splitString repo ['/']
  return pieces[1]?

def contains (str substr : Str) : Bool :=
  (find str substr 0).isSome

/-- What `main` makes of an argument of `--tool`. `RegisterNewRepo` takes the same name. -/
def toolName (tool : Str) : Except Failure (Option Str) :=
  if contains tool ['/'] then FromRepoToName tool else return some tool

def IsSeparator (c : Char) : Prop :=
  c = '/' ∨ c = '\\'

instance : DecidablePred IsSeparator := fun c =>
  inferInstanceAs (Decidable (c = '/' ∨ c = '\\'))

section Splitting

theorem splitStrings_separators (str : Str) :
    splitStrings str [['/'], ['\\']] = .ok (segments (marked IsSeparator str)) := by
  have nonempty : NonemptyWords (Delims.strings [['/'], ['\\']]).words := by
    simp [NonemptyWords, Delims.words]
  refine @splitBy_scan str (.strings [['/'], ['\\']]) nonempty _ (scan_marked (fun w => ?_) str)
  simp [Delims.words, IsSeparator, or_and_right, exists_or]

theorem splitString_slash (str : Str) :
    splitString str ['/'] = .ok (segments (marked (· = '/') str)) := by
  have nonempty : NonemptyWords (Delims.string ['/']).words := by
    simp [NonemptyWords, Delims.words]
  refine @splitBy_scan str (.string ['/']) nonempty _ (scan_marked (fun w => ?_) str)
  simp [Delims.words]

theorem basename_eq (str : Str) :
    basename str = .ok (segments (marked IsSeparator str)).getLast? := by
  rw [basename, splitStrings_separators]
  rfl

theorem FromRepoToName_eq (repo : Str) :
    FromRepoToName repo = .ok (segments (marked (· = '/') repo))[1]? := by
  rw [FromRepoToName, splitString_slash]
  rfl

theorem basename_behind {before base : Str} {sep : Char} (hsep : IsSeparator sep)
    (hbase : ∀ c ∈ base, ¬ IsSeparator c) (hne : base ≠ []) :
    basename (before ++ sep :: base) = .ok (some base) := by
  have hlast : segments (marked IsSeparator base) = [base] := by
    rw [segments, segmentsFrom_letters [] hbase, List.nil_append, closed_of_ne_nil hne]
  rw [basename_eq, segments_marked_append hsep, hlast, List.getLast?_concat]

end Splitting

section Cutting

variable {path before after : Str}

theorem dirname_of_slash (h : '/' ∉ after) : dirname (before ++ '/' :: after) = before := by
  simp [dirname, find_last_of, rfindChar_eq before h]

theorem find_last_of_eq_none {c : Char} (h : c ∉ path) : find_last_of path c = none := by
  have hreverse : ∀ d ∈ path.reverse, (d == c) = false := by
    intro d hd
    have hne : d ≠ c := fun heq => h (heq ▸ List.mem_reverse.mp hd)
    simpa using hne
  simp [find_last_of, rfindChar, StackPrinter.findChar, List.findIdx?_eq_none_iff.mpr hreverse]

theorem dirname_of_backslash (hslash : '/' ∉ before ++ '\\' :: after) (h : '\\' ∉ after) :
    dirname (before ++ '\\' :: after) = before := by
  have hlast : find_last_of (before ++ '\\' :: after) '\\' = some before.length :=
    rfindChar_eq before h
  simp [dirname, find_last_of_eq_none hslash, hlast]

theorem exists_last {c : Char} (h : c ∈ path) :
    ∃ before after, path = before ++ c :: after ∧ c ∉ after := by
  obtain ⟨after, before, hreverse, hafter⟩ :=
    List.eq_append_cons_of_mem (List.mem_reverse.mpr h)
  refine ⟨before.reverse, after.reverse, ?_, by simpa using hafter⟩
  rw [← List.reverse_reverse path, hreverse]
  simp

/-- `dirname`, the separator at which it cuts, and `basename` make up the path. -/
def Agree (path : Str) : Prop :=
  ∃ sep base, IsSeparator sep ∧ basename path = .ok (some base) ∧
    path = dirname path ++ sep :: base

theorem agree_of_cut {sep : Char} (hsep : IsSeparator sep)
    (hdirname : dirname (before ++ sep :: after) = before)
    (hafter : ∀ c ∈ after, ¬ IsSeparator c) (hne : after ≠ []) : Agree (before ++ sep :: after) :=
  ⟨sep, after, hsep, basename_behind hsep hafter hne, by rw [hdirname]⟩

end Cutting

theorem dirname_basename_iff (path : Str) (hsep : ∃ c ∈ path, IsSeparator c)
    (hlast : ∀ c ∈ path.getLast?, ¬ IsSeparator c) :
    Agree path ↔ ∀ before after, path = before ++ '/' :: after → '/' ∉ after → '\\' ∉ after := by
  have hne : ∀ before sep after, IsSeparator sep → path = before ++ sep :: after → after ≠ [] := by
    rintro before sep after hs rfl rfl
    exact hlast sep (by simp) hs
  constructor
  · rintro ⟨sep, base, -, hbase, hpath⟩ before after rfl hslash hback
    have hafter : after ≠ [] := hne before '/' after (.inl rfl) rfl
    rw [dirname_of_slash hslash] at hpath
    obtain ⟨-, rfl⟩ := List.cons.inj (List.append_cancel_left hpath)
    obtain ⟨front, back, rfl, hend⟩ := exists_last hback
    have hcut : before ++ '/' :: (front ++ '\\' :: back) =
        (before ++ '/' :: front) ++ '\\' :: back := by simp
    have hlater : ∀ c ∈ back, ¬ IsSeparator c := by
      rintro c hc (rfl | rfl)
      · exact hslash (by simp [hc])
      · exact hend hc
    rw [hcut, basename_behind (.inr rfl) hlater (hne _ '\\' back (.inr rfl) hcut)] at hbase
    have hshort := congrArg List.length (Option.some.inj (Except.ok.inj hbase))
    simp only [List.length_append, List.length_cons] at hshort
    omega
  · intro h
    by_cases hslash : '/' ∈ path
    · obtain ⟨before, after, rfl, hafter⟩ := exists_last hslash
      have hback := h before after rfl hafter
      refine agree_of_cut (.inl rfl) (dirname_of_slash hafter) ?_ (hne _ _ _ (.inl rfl) rfl)
      rintro c hc (rfl | rfl)
      · exact hafter hc
      · exact hback hc
    · have hback : '\\' ∈ path := by
        obtain ⟨c, hc, rfl | rfl⟩ := hsep
        · exact absurd hc hslash
        · exact hc
      obtain ⟨before, after, rfl, hafter⟩ := exists_last hback
      refine agree_of_cut (.inr rfl) (dirname_of_backslash hslash hafter) ?_
        (hne _ _ _ (.inr rfl) rfl)
      rintro c hc (rfl | rfl)
      · exact hslash (by simp [hc])
      · exact hafter hc

theorem dirname_basename_file : Agree "dir/file".toList :=
  (dirname_basename_iff "dir/file".toList ⟨'/', by decide, .inl rfl⟩ (by simp [IsSeparator])).mpr
    fun before after hpath _ hback =>
      absurd (show '\\' ∈ "dir/file".toList by simp [hpath, hback]) (by decide)

/-- `dirname` cuts at the `/`, and `basename` behind the `\`. -/
theorem dirname_basename_mixed :
    ¬ ∀ path : Str, (∃ c ∈ path, IsSeparator c) → (∀ c ∈ path.getLast?, ¬ IsSeparator c) →
      Agree path := by
  intro h
  obtain ⟨sep, base, -, hbase, hpath⟩ :=
    h "a/b\\c".toList ⟨'/', by decide, .inl rfl⟩ (by simp [IsSeparator])
  have hdirname : dirname "a/b\\c".toList = ['a'] := by decide
  have hbasename : basename "a/b\\c".toList = .ok (some ['c']) :=
    @basename_behind ['a', '/', 'b'] ['c'] '\\' (.inr rfl) (by simp [IsSeparator]) (by decide)
  rw [hbasename] at hbase
  obtain rfl : ['c'] = base := Option.some.inj (Except.ok.inj hbase)
  rw [hdirname] at hpath
  exact absurd (congrArg List.length hpath) (by simp)

section Indexing

theorem basename_exists {str : Str} :
    (∃ base, basename str = .ok (some base)) ↔ ∃ c ∈ str, ¬ IsSeparator c := by
  rw [basename_eq, ← segments_marked_ne_nil]
  constructor
  · rintro ⟨base, hbase⟩ hnil
    rw [hnil] at hbase
    cases hbase
  · intro hne
    exact ⟨_, by rw [List.getLast?_eq_some_getLast hne]⟩

/-- Between two pieces there is a `/`. -/
def HasSecondPiece (repo : Str) : Prop :=
  ∃ before after, repo = before ++ '/' :: after ∧ (∃ c ∈ before, c ≠ '/') ∧ ∃ c ∈ after, c ≠ '/'

theorem FromRepoToName_exists {repo : Str} :
    (∃ name, FromRepoToName repo = .ok (some name)) ↔ HasSecondPiece repo := by
  have hpieces : 1 < (segments (marked (· = '/') repo)).length ↔ HasSecondPiece repo := by
    rw [one_lt_length_segments]
    constructor
    · rintro ⟨before, c, after, hrepo, rfl, hsides⟩
      exact ⟨before, after, hrepo, hsides⟩
    · rintro ⟨before, after, hrepo, hsides⟩
      exact ⟨before, '/', after, hrepo, rfl, hsides⟩
  rw [FromRepoToName_eq, ← hpieces]
  constructor
  · rintro ⟨name, hname⟩
    exact (List.getElem?_eq_some_iff.mp (Except.ok.inj hname)).1
  · intro hlength
    exact ⟨_, by rw [List.getElem?_eq_getElem hlength]⟩

theorem contains_singleton {str : Str} {c : Char} : contains str [c] = true ↔ c ∈ str := by
  have hfound : ∀ i, (0 ≤ i && [c].isPrefixOf (str.drop i)) = true ↔ str[i]? = some c := by
    intro i
    simp [List.isPrefixOf_iff_prefix, List.singleton_prefix_iff_head?_eq_some]
  rw [contains, find, List.find?_isSome, List.mem_iff_getElem?]
  constructor
  · rintro ⟨i, -, hi⟩
    exact ⟨i, (hfound i).mp hi⟩
  · rintro ⟨i, hi⟩
    have hlt := (List.getElem?_eq_some_iff.mp hi).1
    exact ⟨i, List.mem_range.mpr (by omega), (hfound i).mpr hi⟩

theorem pieces_exist_iff (str tool : Str) :
    ((∃ base, basename str = .ok (some base)) ↔ ∃ c ∈ str, ¬ IsSeparator c) ∧
      ((∃ name, toolName tool = .ok (some name)) ↔ '/' ∈ tool → HasSecondPiece tool) := by
  refine ⟨basename_exists, ?_⟩
  rw [← contains_singleton, ← FromRepoToName_exists, toolName]
  split
  case isTrue h => simp [h]
  case isFalse h => simp [h, pure, Except.pure]

/-- A path of separators only, and a repository without a name. -/
theorem pieces_missing :
    (¬ ∀ str, ∃ base, basename str = .ok (some base)) ∧
      ¬ ∀ tool, '/' ∈ tool → ∃ name, FromRepoToName tool = .ok (some name) := by
  constructor
  · intro h
    obtain ⟨c, hc, hno⟩ := basename_exists.mp (h ['/'])
    exact hno (.inl (List.mem_singleton.mp hc))
  · intro h
    have hpieces : FromRepoToName ['a', '/'] = .ok none := by decide
    obtain ⟨name, hname⟩ := h ['a', '/'] (by simp)
    rw [hpieces] at hname
    cases hname

end Indexing

end SkUtils.Strings.PathNames
