import SkUtils.Arguments.ArgumentReading

/-!
What a fresh parser holds after `parse`: the front and back tokens, and for every option
the value that the groups about it make.
-/

namespace SkUtils.Arguments.ArgumentValues

open SkUtils.Library.CheckedLoop
open SkUtils.Strings.StringUtils
open SkUtils.Arguments.ArgumentParser
open SkUtils.Arguments.ArgumentGrammar
open SkUtils.Arguments.ArgumentReading

variable {D : Type} {stod : Str → Option D}

section Values

variable {info : ArgInfo D} {groups : List (OptionGroup D)}

def about (groups : List (OptionGroup D)) (name : Str) : List (OptionGroup D) :=
  groups.filter (·.name = name)

def listValue (info : ArgInfo D) (groups : List (OptionGroup D)) : Option (ArgValueType D) :=
  if info.has_value ∨ held info ++ groups.flatMap OptionGroup.elements ≠ [] then
    some (.strlist (held info ++ groups.flatMap OptionGroup.elements))
  else
    none

theorem get_value_eq (parser : ArgParser D) (name : Str) :
    parser.get_value name = (parser.arg_info_mp name).bind given :=
  rfl

theorem foldl_perform_eq (parser : ArgParser D) (groups : List (OptionGroup D)) :
    groups.foldl perform parser = { parser with
      arg_info_mp := fun name =>
        (parser.arg_info_mp name).map ((about groups name).foldl update) } := by
  induction groups generalizing parser with
  | nil => simp [about]
  | cons g groups ih =>
      rw [List.foldl_cons, ih]
      simp only [perform, ArgParser.mk.injEq, true_and]
      funext name
      rw [Option.map_map]
      congr 1
      funext info
      simp only [Function.comp_apply, about, List.filter_cons, decide_eq_true_eq]
      split <;> rfl

theorem given_foldl_update (hfits : ∀ g ∈ groups, Fits info.type g)
    (htype : info.type ≠ .LIST) :
    given (groups.foldl update info) =
      (groups.filterMap OptionGroup.value).getLast?.or (given info) := by
  induction groups generalizing info with
  | nil => simp
  | cons g groups ih =>
      obtain ⟨hfirst, hrest⟩ := List.forall_mem_cons.mp hfits
      rw [List.foldl_cons, ih (by simpa using hrest) (by simpa using htype)]
      have hgiven : given (update info g) = g.value.or (given info) := by
        cases g with
        | list name run => exact absurd hfirst htype
        | _ => rfl
      rw [hgiven]
      cases hvalue : g.value <;> simp [hvalue, List.getLast?_cons]

theorem held_update_list (info : ArgInfo D) (name : Str) (run : List Str) :
    held (update info (.list name run)) = held info ++ run := by
  simp only [update]
  cases hvalue : info.has_value || decide (held info ++ run ≠ []) with
  | true => rfl
  | false =>
      simp only [Bool.or_eq_false_iff, decide_eq_false_iff_not, not_not] at hvalue
      rw [hvalue.2]
      rfl

theorem listValue_update_list (info : ArgInfo D) (name : Str) (run : List Str)
    (groups : List (OptionGroup D)) :
    listValue (update info (.list name run)) groups =
      listValue info (.list name run :: groups) := by
  have hvalue : (update info (.list name run)).has_value =
      (info.has_value || decide (held info ++ run ≠ [])) := rfl
  simp only [listValue, held_update_list, hvalue, List.flatMap_cons, OptionGroup.elements,
    List.append_assoc]
  congr 1
  simp only [Bool.or_eq_true, decide_eq_true_eq, ne_eq, List.append_eq_nil_iff, eq_iff_iff]
  tauto

theorem given_foldl_update_list (hfits : ∀ g ∈ groups, Fits .LIST g)
    (hheld : info.has_value → ∃ value, info.value = .strlist value) :
    given (groups.foldl update info) = listValue info groups := by
  induction groups generalizing info with
  | nil =>
      cases hvalue : info.has_value with
      | false => simp [given, listValue, held, hvalue]
      | true =>
          obtain ⟨value, hstrlist⟩ := hheld hvalue
          simp [given, listValue, held, hvalue, hstrlist]
  | cons g groups ih =>
      obtain ⟨hfirst, hrest⟩ := List.forall_mem_cons.mp hfits
      cases g with
      | list name run =>
          rw [List.foldl_cons, ih hrest fun _ => ⟨_, rfl⟩, listValue_update_list]
      | flag name => cases hfirst
      | missing type name => cases hfirst
      | rejected type name provided => cases hfirst
      | valued name token value => cases hfirst

end Values

section Fresh

/-- A parser that has parsed nothing. An option has no value yet, or came with one; a
list then, where its type is `LIST`. -/
structure Fresh (parser : ArgParser D) : Prop where
  front_empty : parser.front_default_args = []
  back_empty : parser.back_default_args = []
  lists : ListsHoldLists parser

/-- What holds of the options and of a new one holds of all after the `emplace`. -/
theorem forall_emplace {parser : ArgParser D} {P : ArgInfo D → Prop} {info : ArgInfo D}
    (h : ∀ name info', parser.arg_info_mp name = some info' → P info') (hinfo : P info) :
    ∀ name info', (parser.emplace info).arg_info_mp name = some info' → P info' := by
  intro name info' hinfo'
  simp only [ArgParser.emplace] at hinfo'
  split at hinfo'
  case isTrue hname =>
    obtain rfl := Option.some.inj hinfo'
    exact hinfo
  case isFalse hname => exact h name info' hinfo'

theorem listsHoldLists_emplace {parser : ArgParser D} {info : ArgInfo D}
    (h : ListsHoldLists parser) (hinfo : info.type = .LIST → info.has_value →
      ∃ value, info.value = .strlist value) : ListsHoldLists (parser.emplace info) :=
  forall_emplace h hinfo

theorem fresh_empty : Fresh ({} : ArgParser D) where
  front_empty := rfl
  back_empty := rfl
  lists := nofun

theorem Fresh.add_arg {parser : ArgParser D} {info : ArgInfo D} (h : Fresh parser)
    (hinfo : info.type = .LIST → info.has_value → ∃ value, info.value = .strlist value) :
    Fresh (parser.add_arg info).1 := by
  rw [ArgParser.add_arg]
  split
  case isTrue hname => exact ⟨h.front_empty, h.back_empty, listsHoldLists_emplace h.lists hinfo⟩
  case isFalse hname => exact h

theorem Fresh.prepare {parser : ArgParser D} (h : Fresh parser) (file : Str) :
    Fresh (prepare parser file) where
  front_empty := h.front_empty
  back_empty := h.back_empty
  lists := listsHoldLists_emplace (listsHoldLists_emplace h.lists nofun) nofun

end Fresh

section Tokens

/-- No piece is made of blanks only. -/
def NoBlankPiece (argv : List Str) : Prop :=
  ∀ arg ∈ argv, ∀ piece ∈ pieces arg '=', ¬piece.all (· == ' ')

def tokens (argv : List Str) : List Str :=
  (argv.flatMap (pieces · '=')).map stripped

theorem tokenize_eq (argv : List Str) :
    tokenize argv = (argv.flatMap (pieces · '=')).mapM strip := by
  have hsplit : argv.mapM (split · '=') = .ok (argv.map (pieces · '=')) :=
    mapM_eq_ok fun arg _ => split_eq_ok arg '='
  have hkept : (argv.flatMap (pieces · '=')).filter (· ≠ []) = argv.flatMap (pieces · '=') := by
    refine List.filter_eq_self.mpr fun piece hpiece => ?_
    obtain ⟨arg, -, hpiece⟩ := List.mem_flatMap.mp hpiece
    exact (List.mem_filter.mp hpiece).2
  rw [tokenize, hsplit]
  simp only [ok_bind, ← List.flatMap_def, hkept]

theorem tokenize_eq_ok {argv : List Str} (h : NoBlankPiece argv) :
    tokenize argv = .ok (tokens argv) := by
  rw [tokenize_eq, tokens]
  refine mapM_eq_ok fun piece hpiece => strip_eq_ok ?_
  obtain ⟨arg, harg, hpiece⟩ := List.mem_flatMap.mp hpiece
  simpa using h arg harg piece hpiece

end Tokens

section Outcome

/-- What the groups and the tokens around them make of the registered options. -/
def outcome (registered : ArgParser D) (args : List Str) (groups : List (OptionGroup D))
    (back : List Str) : ArgParser D :=
  { groups.foldl perform registered with
    front_default_args :=
      registered.front_default_args ++ args.takeWhile registered.unregistered
    back_default_args := registered.back_default_args ++ back }

variable {parser : ArgParser D} {file : Str} {argv back : List Str}
  {groups : List (OptionGroup D)}

/-- Where the loop starts, behind the front tokens. -/
def behindFront (registered : ArgParser D) (args : List Str) : Cursor D where
  parser := { registered with
    front_default_args :=
      registered.front_default_args ++ args.takeWhile registered.unregistered }
  idx := (args.takeWhile registered.unregistered).length
  reports := []

theorem drop_behindFront (registered : ArgParser D) (args : List Str) :
    args.drop (behindFront registered args).idx = args.dropWhile registered.unregistered := by
  have hbehind := drop_collected args 0 registered.unregistered
  rwa [List.drop_zero, Nat.zero_add] at hbehind

theorem parse_eq_parseLoop (stod : Str → Option D) (parser : ArgParser D) (file : Str)
    (hargv : NoBlankPiece argv) :
    parse stod parser file argv =
      (parseLoop stod (tokens argv) (tokens argv).length
        (behindFront (prepare parser file) (tokens argv)) >>= fun c =>
          pure (c.parser, c.reports)) := by
  have hfront := collect_eq (prepare parser file).unregistered
    (prepare parser file).front_default_args (Nat.le_add_left (tokens argv).length 0)
  rw [List.drop_zero, Nat.zero_add] at hfront
  rw [parse, tokenize_eq_ok hargv]
  simp only [ok_bind, hfront]
  rfl

theorem parse_eq_ok (hargv : NoBlankPiece argv)
    (hgrouped : Grouped (registeredTypes (prepare parser file)) stod
      ((tokens argv).dropWhile (prepare parser file).unregistered) groups back)
    (hheld : ∀ g ∈ groups, HoldsList (prepare parser file) g.name) :
    parse stod parser file argv = .ok (outcome (prepare parser file) (tokens argv) groups back,
      groups.filterMap OptionGroup.report) := by
  rw [parse_eq_parseLoop stod parser file hargv]
  generalize prepare parser file = registered at hgrouped hheld ⊢
  obtain ⟨last, hloop, hparser, hreports⟩ := parseLoop_grouped hgrouped
    (drop_behindFront registered _) (Nat.le_add_left _ _) hheld
  rw [hloop, ok_bind, hparser, hreports]
  simp only [pure_eq_ok, foldl_perform_eq, outcome, behindFront, List.nil_append]

theorem parse_eq_error (hargv : NoBlankPiece argv)
    (hgrouped : Grouped (registeredTypes (prepare parser file)) stod
      ((tokens argv).dropWhile (prepare parser file).unregistered) groups back)
    (hheld : ¬∀ g ∈ groups, HoldsList (prepare parser file) g.name) :
    parse stod parser file argv = .error .badVariantAccess := by
  rw [parse_eq_parseLoop stod parser file hargv]
  generalize prepare parser file = registered at hgrouped hheld ⊢
  rw [parseLoop_error hgrouped (drop_behindFront registered _) (Nat.le_add_left _ _) hheld,
    error_bind]

end Outcome

section Contract

/-- The result of `parse` in terms of the grammar; `registered` is the parser with the
options, before it reads a token. -/
structure Reads (stod : Str → Option D) (registered : ArgParser D) (args front : List Str)
    (groups : List (OptionGroup D)) (back : List Str) (parser : ArgParser D)
    (reports : List Report) : Prop where
  args_eq : args = front ++ groups.flatMap OptionGroup.tokens ++ back
  front_eq : front = args.takeWhile registered.unregistered
  grouped : Grouped (registeredTypes registered) stod
    (args.dropWhile registered.unregistered) groups back
  front_args : parser.get_front_args = if front = [] then none else some front
  back_args : parser.get_back_args = if back = [] then none else some back
  options : ∀ name, parser.arg_info_mp name =
    (registered.arg_info_mp name).map ((about groups name).foldl update)
  value_unregistered : ∀ name, registered.arg_info_mp name = none →
    parser.get_value name = none
  value_single : ∀ name info, registered.arg_info_mp name = some info →
    info.type ≠ .LIST → parser.get_value name =
      ((about groups name).filterMap OptionGroup.value).getLast?.or (given info)
  value_list : ∀ name info, registered.arg_info_mp name = some info →
    info.type = .LIST → parser.get_value name = listValue info (about groups name)
  reports_eq : reports = groups.filterMap OptionGroup.report

theorem fits_about {registered : ArgParser D} {args back : List Str} {name : Str}
    {groups : List (OptionGroup D)} {info : ArgInfo D}
    (hgrouped : Grouped (registeredTypes registered) stod args groups back)
    (hinfo : registered.arg_info_mp name = some info) :
    ∀ g ∈ about groups name, Fits info.type g := by
  intro g hg
  obtain ⟨hmem, hname⟩ := List.mem_filter.mp hg
  obtain ⟨type, htype, hfits⟩ := hgrouped.fits g hmem
  rw [of_decide_eq_true hname, registeredTypes_eq_some hinfo] at htype
  exact Option.some.inj htype ▸ hfits

theorem get_value_of_options {registered parser : ArgParser D} {name : Str}
    {groups : List (OptionGroup D)} {info : ArgInfo D}
    (hoptions : ∀ name, parser.arg_info_mp name =
      (registered.arg_info_mp name).map ((about groups name).foldl update))
    (hinfo : registered.arg_info_mp name = some info) :
    parser.get_value name = given ((about groups name).foldl update info) := by
  rw [get_value_eq, hoptions, hinfo]
  rfl

theorem parse_reads (stod : Str → Option D) {parser : ArgParser D} {argv : List Str}
    (file : Str) (hfresh : Fresh parser) (hargv : NoBlankPiece argv) :
    ∃ front groups back parser' reports,
      parse stod parser file argv = .ok (parser', reports) ∧
        Reads stod (prepare parser file) (tokens argv) front groups back parser' reports := by
  have hprepared := hfresh.prepare file
  obtain ⟨groups, back, hgrouped⟩ := exists_grouped (registeredTypes (prepare parser file)) stod
    ((tokens argv).dropWhile (prepare parser file).unregistered)
  have hparse := parse_eq_ok hargv hgrouped fun g _ => hprepared.lists g.name
  generalize prepare parser file = registered at hprepared hgrouped hparse ⊢
  generalize tokens argv = args at hgrouped hparse ⊢
  have hoptions : ∀ name, (outcome registered args groups back).arg_info_mp name =
      (registered.arg_info_mp name).map ((about groups name).foldl update) := by
    intro name
    rw [outcome, foldl_perform_eq]
  refine ⟨args.takeWhile registered.unregistered, groups, back, _, _, hparse, ?_, rfl, hgrouped,
    ?_, ?_, hoptions, ?_, ?_, ?_, rfl⟩
  · rw [List.append_assoc, ← hgrouped.tokens_eq, List.takeWhile_append_dropWhile]
  · rw [ArgParser.get_front_args, outcome, hprepared.front_empty, List.nil_append]
  · rw [ArgParser.get_back_args, outcome, hprepared.back_empty, List.nil_append]
  · intro name hinfo
    rw [get_value_eq, hoptions, hinfo]
    rfl
  · intro name info hinfo htype
    rw [get_value_of_options hoptions hinfo]
    exact given_foldl_update (fits_about hgrouped hinfo) htype
  · intro name info hinfo htype
    rw [get_value_of_options hoptions hinfo]
    exact given_foldl_update_list (htype ▸ fits_about hgrouped hinfo)
      (hprepared.lists name info hinfo htype)

theorem parse_reads_of_tool : ∃ front groups back parser' reports,
    parse stoi
      ((({} : ArgParser Int).add_arg { name := "-i".toList, type := .INT }).1.add_arg
        { name := "--path".toList, type := .LIST }).1 "tool".toList
      ["in".toList, "-i".toList, "--path=a".toList, "b".toList, "-i=7".toList,
        "out".toList] = .ok (parser', reports) ∧
      Reads stoi
        (prepare ((({} : ArgParser Int).add_arg { name := "-i".toList, type := .INT }).1.add_arg
          { name := "--path".toList, type := .LIST }).1 "tool".toList)
        (tokens ["in".toList, "-i".toList, "--path=a".toList, "b".toList, "-i=7".toList,
          "out".toList]) front groups back parser' reports :=
  parse_reads stoi _ ((fresh_empty.add_arg (by simp)).add_arg (by simp))
    (by unfold NoBlankPiece; decide)

end Contract

end SkUtils.Arguments.ArgumentValues
