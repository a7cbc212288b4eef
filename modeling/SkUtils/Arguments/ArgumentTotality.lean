import SkUtils.Arguments.ArgumentValues

/-!
When `parse` returns: a piece of blanks is an error of `strip`, an option of type `LIST`
that came with another value is one of the variant, and nothing else is an error. What is
malformed in front of the end is reported and leaves the options as they are.
-/

namespace SkUtils.Arguments.ArgumentTotality

open SkUtils.Library.CheckedLoop
open SkUtils.Strings.StringUtils
open SkUtils.Arguments.ArgumentParser
open SkUtils.Arguments.ArgumentGrammar
open SkUtils.Arguments.ArgumentReading
open SkUtils.Arguments.ArgumentValues

variable {D : Type} {stod : Str → Option D}

section Blanks

theorem strip_eq_error {str : Str} (h : str.all (· == ' ')) : strip str = .error .outOfRange := by
  have hnone : find_first_not_of str ' ' = none := by
    simpa [find_first_not_of, List.findIdx?_eq_none_iff] using h
  rw [strip, hnone]
  rfl

/-- The filter drops what is empty, not what `strip` would make empty. -/
theorem tokenize_eq_error {argv : List Str} (h : ¬NoBlankPiece argv) :
    tokenize argv = .error .outOfRange := by
  obtain ⟨arg, harg, piece, hpiece, hblank⟩ : ∃ arg ∈ argv, ∃ piece ∈ pieces arg '=',
      piece.all (· == ' ') := by
    simpa only [NoBlankPiece, not_forall, not_not, exists_prop] using h
  rw [tokenize_eq]
  refine mapM_eq_error ⟨piece, List.mem_flatMap.mpr ⟨arg, harg, hpiece⟩,
    strip_eq_error hblank⟩ fun other _ => ?_
  by_cases hother : other.all (· == ' ')
  · exact .inr (strip_eq_error hother)
  · exact .inl ⟨_, strip_eq_ok (by simpa using hother)⟩

end Blanks

section Totality

/-- The options of type `LIST` that the command line names hold a list, or nothing. -/
def NamesHeldLists (stod : Str → Option D) (registered : ArgParser D) (args : List Str) : Prop :=
  ∀ groups back, Grouped (registeredTypes registered) stod
    (args.dropWhile registered.unregistered) groups back →
    ∀ g ∈ groups, HoldsList registered g.name

/-- The malformed groups are reported, and the others alone are performed. -/
def SkipsMalformed (stod : Str → Option D) (registered : ArgParser D) (args : List Str)
    (result : ArgParser D × List Report) : Prop :=
  ∃ groups back, Grouped (registeredTypes registered) stod
      (args.dropWhile registered.unregistered) groups back ∧
    result.1 = outcome registered args (groups.filter (·.report = none)) back ∧
    result.2 = groups.filterMap OptionGroup.report

theorem foldl_perform_filter (parser : ArgParser D) (groups : List (OptionGroup D)) :
    (groups.filter (·.report = none)).foldl perform parser = groups.foldl perform parser := by
  induction groups generalizing parser with
  | nil => rfl
  | cons g groups ih =>
      rw [List.foldl_cons, ← ih]
      cases g with
      | missing type name => rw [perform_eq_self fun _ => rfl]; rfl
      | rejected type name provided => rw [perform_eq_self fun _ => rfl]; rfl
      | flag name => rfl
      | valued name token value => rfl
      | list name run => rfl

theorem parse_eq_outOfRange (parser : ArgParser D) (file : Str) {argv : List Str}
    (h : ¬NoBlankPiece argv) : parse stod parser file argv = .error .outOfRange := by
  rw [parse, tokenize_eq_error h]
  rfl

theorem parse_eq_badVariantAccess {parser : ArgParser D} {file : Str} {argv : List Str}
    (hargv : NoBlankPiece argv)
    (hlists : ¬NamesHeldLists stod (prepare parser file) (tokens argv)) :
    parse stod parser file argv = .error .badVariantAccess := by
  obtain ⟨groups, back, hgrouped, hheld⟩ : ∃ groups back,
      Grouped (registeredTypes (prepare parser file)) stod
        ((tokens argv).dropWhile (prepare parser file).unregistered) groups back ∧
      ¬∀ g ∈ groups, HoldsList (prepare parser file) g.name := by
    simpa only [NamesHeldLists, not_forall, exists_prop] using hlists
  exact parse_eq_error hargv hgrouped hheld

theorem parse_skips_malformed {parser : ArgParser D} {file : Str} {argv : List Str}
    (hargv : NoBlankPiece argv)
    (hlists : NamesHeldLists stod (prepare parser file) (tokens argv)) :
    ∃ result, parse stod parser file argv = .ok result ∧
      SkipsMalformed stod (prepare parser file) (tokens argv) result := by
  obtain ⟨groups, back, hgrouped⟩ := exists_grouped (registeredTypes (prepare parser file)) stod
    ((tokens argv).dropWhile (prepare parser file).unregistered)
  refine ⟨_, parse_eq_ok hargv hgrouped (hlists groups back hgrouped), groups, back, hgrouped,
    ?_, rfl⟩
  rw [outcome, outcome, foldl_perform_filter]

/-- `parse` returns on these command lines and on no others. -/
theorem parse_total_iff (stod : Str → Option D) (parser : ArgParser D) (file : Str)
    (argv : List Str) :
    (∃ result, parse stod parser file argv = .ok result ∧
      SkipsMalformed stod (prepare parser file) (tokens argv) result) ↔
      NoBlankPiece argv ∧ NamesHeldLists stod (prepare parser file) (tokens argv) := by
  constructor
  · rintro ⟨result, hparse, -⟩
    have hargv : NoBlankPiece argv := by
      by_contra hblank
      rw [parse_eq_outOfRange parser file hblank] at hparse
      exact absurd hparse nofun
    refine ⟨hargv, ?_⟩
    by_contra hlists
    rw [parse_eq_badVariantAccess hargv hlists] at hparse
    exact absurd hparse nofun
  · rintro ⟨hargv, hlists⟩
    exact parse_skips_malformed hargv hlists

/-- One argument is a blank. -/
theorem parse_not_total : ¬∀ (parser : ArgParser Int) (file : Str) (argv : List Str),
    ∃ result, parse stoi parser file argv = .ok result := by
  intro htotal
  obtain ⟨result, hparse⟩ := htotal {} "tool".toList [" ".toList]
  have hthrows : parse stoi ({} : ArgParser Int) "tool".toList [" ".toList] =
      .error .outOfRange := rfl
  rw [hthrows] at hparse
  exact absurd hparse nofun

end Totality

end SkUtils.Arguments.ArgumentTotality
