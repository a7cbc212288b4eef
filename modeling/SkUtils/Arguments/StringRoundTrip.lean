import SkUtils.Arguments.ArgumentTotality

/-!
A string option given as two arguments: the name and the value. Both are split at every
`=` and stripped before the option is looked up, and the option holds one token.
-/

namespace SkUtils.Arguments.StringRoundTrip

open SkUtils.Library.CheckedLoop
open SkUtils.Strings.StringUtils
open SkUtils.Arguments.ArgumentParser
open SkUtils.Arguments.ArgumentGrammar
open SkUtils.Arguments.ArgumentReading
open SkUtils.Arguments.ArgumentValues
open SkUtils.Arguments.ArgumentTotality

variable {D : Type} {stod : Str → Option D} {parser : ArgParser D} {file name v : Str}
  {info : ArgInfo D}

/-- `parse` of the name and the value gives the value back, and nothing is left over. -/
def RoundTrips (stod : Str → Option D) (parser : ArgParser D) (file name v : Str) : Prop :=
  ∃ parser' reports, parse stod parser file [name, v] = .ok (parser', reports) ∧
    parser'.get_value name = some (.string v) ∧ parser'.get_front_args = none ∧
    parser'.get_back_args = none

section Tokens

/-- What the tokenization leaves as it is. -/
structure IsToken (token : Str) : Prop where
  trimmed : Trimmed token
  unsplit : '=' ∉ token

theorem IsToken.pieces (h : IsToken v) : pieces v '=' = [v] :=
  pieces_eq_singleton h.unsplit h.trimmed.ne_nil

theorem isToken_of_mem {argv : List Str} (hargv : NoBlankPiece argv) {token : Str}
    (h : token ∈ tokens argv) : IsToken token := by
  obtain ⟨piece, hpiece, rfl⟩ := List.mem_map.mp h
  obtain ⟨arg, harg, hpiece⟩ := List.mem_flatMap.mp hpiece
  have hsplit : '=' ∉ piece := not_mem_of_mem_splitOn (List.mem_of_mem_filter hpiece)
  have hblank : ∃ c ∈ piece, c ≠ ' ' := by simpa using hargv arg harg piece hpiece
  refine ⟨trimmed_stripped hblank, fun hmem => hsplit ?_⟩
  have hstripped : stripped piece <+: piece.dropWhile (· == ' ') := List.rdropWhile_prefix _ _
  exact (List.dropWhile_suffix _).mem (hstripped.mem hmem)

theorem tokens_of_isToken {argv : List Str} (h : ∀ arg ∈ argv, IsToken arg) :
    tokens argv = argv := by
  induction argv with
  | nil => rfl
  | cons arg argv ih =>
      obtain ⟨hfirst, hrest⟩ := List.forall_mem_cons.mp h
      have htail := ih hrest
      rw [tokens] at htail
      rw [tokens, List.flatMap_cons, hfirst.pieces, List.map_append, htail, List.map_singleton,
        hfirst.trimmed.stripped_eq, List.singleton_append]

theorem noBlankPiece_of_isToken {argv : List Str} (h : ∀ arg ∈ argv, IsToken arg) :
    NoBlankPiece argv := by
  intro arg harg piece hpiece
  rw [(h arg harg).pieces] at hpiece
  obtain rfl := List.mem_singleton.mp hpiece
  have htrimmed := (h piece harg).trimmed
  intro hblank
  rw [List.all_eq_true] at hblank
  exact htrimmed.head (by simpa using hblank _ (List.head_mem htrimmed.ne_nil))

end Tokens

section Prepare

theorem emplace_of_registered {info' : ArgInfo D} (hinfo : parser.arg_info_mp name = some info) :
    (parser.emplace info').arg_info_mp name = some info := by
  simp [ArgParser.emplace, hinfo]

theorem prepare_of_registered (file : Str) (hinfo : parser.arg_info_mp name = some info) :
    (prepare parser file).arg_info_mp name = some info :=
  emplace_of_registered (emplace_of_registered hinfo)

end Prepare

/-- Where all of the arguments are groups, nothing stands in front of them or behind. -/
theorem reads_of_grouped {registered parser' : ArgParser D} {args front back : List Str}
    {groups groups' : List (OptionGroup D)} {reports : List Report}
    (hreads : Reads stod registered args front groups back parser' reports)
    (hgrouped : Grouped (registeredTypes registered) stod args groups' []) :
    front = [] ∧ groups = groups' ∧ back = [] := by
  have hnone : args.takeWhile registered.unregistered = [] := by
    cases hgrouped with
    | done => rfl
    | group hfirst _ =>
        obtain ⟨after, rfl, hregistered⟩ := hfirst.exists_cons
        refine List.takeWhile_cons_of_neg ?_
        simpa [registeredTypes, ArgParser.unregistered] using hregistered
  have hall : args.dropWhile registered.unregistered = args := by
    have hsplit := List.takeWhile_append_dropWhile (p := registered.unregistered) (l := args)
    rwa [hnone, List.nil_append] at hsplit
  have hread := hreads.grouped
  rw [hall] at hread
  exact ⟨hreads.front_eq.trans hnone, hread.unique hgrouped⟩

theorem roundTrips_of_grouped (stod : Str → Option D) (file : Str) (hfresh : Fresh parser)
    (hinfo : parser.arg_info_mp name = some info) (htype : info.type = .STR)
    (hargv : NoBlankPiece [name, v]) {groups : List (OptionGroup D)}
    (hgrouped : Grouped (registeredTypes (prepare parser file)) stod (tokens [name, v]) groups [])
    (hvalue : ((about groups name).filterMap OptionGroup.value).getLast?.or (given info) =
      some (.string v)) : RoundTrips stod parser file name v := by
  obtain ⟨front, groups', back, parser', reports, hparse, hreads⟩ :=
    parse_reads stod file hfresh hargv
  obtain ⟨rfl, rfl, rfl⟩ := reads_of_grouped hreads hgrouped
  refine ⟨parser', reports, hparse, ?_, ?_, ?_⟩
  · rw [hreads.value_single name info (prepare_of_registered file hinfo) (by simp [htype])]
    exact hvalue
  · rw [hreads.front_args, if_pos rfl]
  · rw [hreads.back_args, if_pos rfl]

theorem roundTrips_of_tokens (stod : Str → Option D) (file : Str) (hfresh : Fresh parser)
    (hinfo : parser.arg_info_mp name = some info) (htype : info.type = .STR)
    (hname : IsToken name) (hv : IsToken v) : RoundTrips stod parser file name v := by
  have hargv : ∀ arg ∈ [name, v], IsToken arg := by simp [hname, hv]
  have htypes : registeredTypes (prepare parser file) name = some .STR := by
    rw [registeredTypes_eq_some (prepare_of_registered file hinfo), htype]
  -- The grammar reads the two tokens in one way.
  have hone : Grouped (registeredTypes (prepare parser file)) stod [name, v]
      [.valued name v (.string v)] [] :=
    .group (.valued htypes rfl rfl) .done
  rw [← tokens_of_isToken hargv] at hone
  refine roundTrips_of_grouped stod file hfresh hinfo htype (noBlankPiece_of_isToken hargv) hone ?_
  simp [about, OptionGroup.name, OptionGroup.value]

/-- A value that is read is a token, behind a token that is its name. -/
theorem tokens_of_value {front back : List Str} {groups : List (OptionGroup D)}
    {registered parser' : ArgParser D} {reports : List Report} {argv : List Str}
    (hargv : NoBlankPiece argv)
    (hreads : Reads stod registered (tokens argv) front groups back parser' reports)
    (htype : registeredTypes registered name = some .STR) {g : OptionGroup D} (hg : g ∈ groups)
    (hname : g.name = name) (hvalue : g.value = some (.string v)) :
    IsToken name ∧ IsToken v := by
  cases g with
  | valued name₁ token value =>
      obtain rfl : name₁ = name := hname
      obtain rfl := Option.some.inj hvalue
      obtain ⟨type, htypes, hconvert⟩ := hreads.grouped.converts hg
      obtain rfl := Option.some.inj (htypes.symm.trans htype)
      obtain rfl : token = v := by simpa [convert] using hconvert
      have hread : ∀ token' ∈ [name₁, token], token' ∈ tokens argv := by
        intro token' htoken'
        rw [hreads.args_eq]
        exact List.mem_append_left back (List.mem_append_right front
          (List.mem_flatMap.mpr ⟨_, hg, htoken'⟩))
      exact ⟨isToken_of_mem hargv (hread name₁ (by simp)),
        isToken_of_mem hargv (hread token (by simp))⟩
  | flag name₁ => cases hvalue
  | _ => cases hvalue

/-- The option came with the value, and both arguments are read as options that leave it
as it is. -/
structure KeepsGiven (stod : Str → Option D) (registered : ArgParser D) (info : ArgInfo D)
    (name v : Str) : Prop where
  given_eq : given info = some (.string v)
  pieces : NoBlankPiece [name, v]
  others : ∃ groups, Grouped (registeredTypes registered) stod (tokens [name, v]) groups [] ∧
    ∀ g ∈ groups, g.name = name → g.value = none

theorem roundTrips_of_keepsGiven (file : Str) (hfresh : Fresh parser)
    (hinfo : parser.arg_info_mp name = some info) (htype : info.type = .STR)
    (hkeeps : KeepsGiven stod (prepare parser file) info name v) :
    RoundTrips stod parser file name v := by
  obtain ⟨groups, hgrouped, hothers⟩ := hkeeps.others
  refine roundTrips_of_grouped stod file hfresh hinfo htype hkeeps.pieces hgrouped ?_
  have hnone : (about groups name).filterMap OptionGroup.value = [] := by
    rw [List.filterMap_eq_nil_iff]
    intro g hg
    obtain ⟨hmem, hname⟩ := List.mem_filter.mp hg
    exact hothers g hmem (of_decide_eq_true hname)
  rw [hnone, hkeeps.given_eq]
  rfl

/-- The value that comes back has been read, or was there before. -/
theorem cases_of_roundTrips (hfresh : Fresh parser)
    (hinfo : parser.arg_info_mp name = some info) (htype : info.type = .STR)
    (h : RoundTrips stod parser file name v) :
    IsToken name ∧ IsToken v ∨ KeepsGiven stod (prepare parser file) info name v := by
  obtain ⟨parser', reports, hparse, hvalue, hfront, hback⟩ := h
  have hregistered := prepare_of_registered file hinfo
  have hargv : NoBlankPiece [name, v] := by
    by_contra hblank
    rw [parse_eq_outOfRange parser file hblank] at hparse
    cases hparse
  obtain ⟨front, groups, back, parser₁, reports₁, hparse₁, hreads⟩ :=
    parse_reads stod file hfresh hargv
  obtain ⟨rfl, rfl⟩ : parser₁ = parser' ∧ reports₁ = reports := by
    simpa using hparse₁.symm.trans hparse
  rw [hreads.value_single name info hregistered (by simp [htype])] at hvalue
  have htypes : registeredTypes (prepare parser file) name = some .STR := by
    rw [registeredTypes_eq_some hregistered, htype]
  cases hlast : ((about groups name).filterMap OptionGroup.value).getLast? with
  | some value =>
      rw [hlast] at hvalue
      obtain rfl : value = .string v := Option.some.inj hvalue
      obtain ⟨g, hg, hgvalue⟩ := List.mem_filterMap.mp (List.mem_of_getLast? hlast)
      obtain ⟨hmem, hname⟩ := List.mem_filter.mp hg
      exact .inl (tokens_of_value hargv hreads htypes hmem (of_decide_eq_true hname) hgvalue)
  | none =>
      rw [hlast] at hvalue
      have hnone := List.filterMap_eq_nil_iff.mp (List.getLast?_eq_none_iff.mp hlast)
      obtain rfl : front = [] := by simpa [hreads.front_args] using hfront
      obtain rfl : back = [] := by simpa [hreads.back_args] using hback
      have hgrouped : Grouped (registeredTypes (prepare parser file)) stod (tokens [name, v])
          groups [] := by
        have hall := List.takeWhile_append_dropWhile (p := (prepare parser file).unregistered)
          (l := tokens [name, v])
        rw [← hreads.front_eq, List.nil_append] at hall
        exact hall ▸ hreads.grouped
      refine .inr ⟨hvalue, hargv, groups, hgrouped, fun g hg hname => hnone g ?_⟩
      exact List.mem_filter.mpr ⟨hg, decide_eq_true hname⟩

/-- A value without outer blanks comes back where neither it nor the name has a `=` and
the name has no outer blanks either, and else only where it was there before. -/
theorem string_round_trips_iff (stod : Str → Option D) (file : Str) (hfresh : Fresh parser)
    (hinfo : parser.arg_info_mp name = some info) (htype : info.type = .STR)
    (hv : Trimmed v) :
    RoundTrips stod parser file name v ↔
      IsToken name ∧ '=' ∉ v ∨ KeepsGiven stod (prepare parser file) info name v := by
  constructor
  · intro h
    refine (cases_of_roundTrips hfresh hinfo htype h).imp_left ?_
    rintro ⟨hname, hvalue⟩
    exact ⟨hname, hvalue.unsplit⟩
  · rintro (⟨hname, hunsplit⟩ | hkeeps)
    · exact roundTrips_of_tokens stod file hfresh hinfo htype hname ⟨hv, hunsplit⟩
    · exact roundTrips_of_keepsGiven file hfresh hinfo htype hkeeps

def outputParser : ArgParser Int :=
  (({} : ArgParser Int).add_arg { name := "-o".toList, type := .STR }).1

theorem string_round_trips_iff_path :
    RoundTrips stoi outputParser "tool".toList "-o".toList "out dir/-a".toList := by
  have hname : IsToken "-o".toList := ⟨⟨by decide, by decide, by decide⟩, by decide⟩
  have hfresh : Fresh outputParser := fresh_empty.add_arg (by simp)
  exact (string_round_trips_iff stoi _ hfresh rfl rfl ⟨by decide, by decide, by decide⟩).mpr
    (.inl ⟨hname, by decide⟩)

/-- The value of `-o` is `a`, and `b` is left over. -/
theorem round_trip_loses_tail :
    (∃ parser' reports, parse stoi outputParser "tool".toList ["-o".toList, "a=b".toList] =
        .ok (parser', reports) ∧
      parser'.get_value "-o".toList = some (.string "a".toList) ∧
      parser'.get_back_args = some ["b".toList]) ∧
    ¬RoundTrips stoi outputParser "tool".toList "-o".toList "a=b".toList := by
  obtain ⟨parser₁, reports₁, hparse, hvalue, hback⟩ : ∃ parser' reports,
      parse stoi outputParser "tool".toList ["-o".toList, "a=b".toList] = .ok (parser', reports) ∧
        parser'.get_value "-o".toList = some (.string "a".toList) ∧
        parser'.get_back_args = some ["b".toList] :=
    ⟨_, _, rfl, rfl, rfl⟩
  refine ⟨⟨parser₁, reports₁, hparse, hvalue, hback⟩, ?_⟩
  rintro ⟨parser₂, reports₂, hparse₂, -, -, hback₂⟩
  obtain ⟨rfl, rfl⟩ : parser₁ = parser₂ ∧ reports₁ = reports₂ := by
    simpa using hparse.symm.trans hparse₂
  rw [hback] at hback₂
  cases hback₂

end SkUtils.Arguments.StringRoundTrip
