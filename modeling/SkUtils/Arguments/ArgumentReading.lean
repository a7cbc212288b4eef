import SkUtils.Arguments.ArgumentGrammar

/-!
`parse` reads a command line by the grammar: each round of its loop takes the next group,
writes what the group says into its option and reports it; the options end up with the
values of their groups.
-/

namespace SkUtils.Arguments.ArgumentReading

open SkUtils.Library.CheckedLoop
open SkUtils.Strings.StringUtils
open SkUtils.Arguments.ArgumentParser
open SkUtils.Arguments.ArgumentGrammar

variable {D : Type} {stod : Str → Option D}

section Options

/-- What an option of type `LIST` holds before the next run is added. -/
def held (info : ArgInfo D) : List Str :=
  match info.has_value, info.value with
  | true, .strlist value => value
  | _, _ => []

def update (info : ArgInfo D) : OptionGroup D → ArgInfo D
  | .flag _ => { info with value := .bool true, has_value := true }
  | .missing _ _ => info
  | .rejected _ _ _ => info
  | .valued _ _ value => { info with value, has_value := true }
  | .list _ run =>
      { info with
        value := .strlist (held info ++ run)
        has_value := info.has_value || held info ++ run ≠ [] }

def given (info : ArgInfo D) : Option (ArgValueType D) :=
  if info.has_value then some info.value else none

def registeredTypes (parser : ArgParser D) (name : Str) : Option ArgType :=
  (parser.arg_info_mp name).map (·.type)

def perform (parser : ArgParser D) (g : OptionGroup D) : ArgParser D :=
  { parser with
    arg_info_mp := fun name => (parser.arg_info_mp name).map fun info =>
      if g.name = name then update info g else info }

/-- An option of type `LIST` that has a value has a list. -/
def ListsHoldLists (parser : ArgParser D) : Prop :=
  ∀ name info, parser.arg_info_mp name = some info → info.type = .LIST →
    info.has_value → ∃ value, info.value = .strlist value

def HoldsList (parser : ArgParser D) (name : Str) : Prop :=
  ∀ info, parser.arg_info_mp name = some info → info.type = .LIST →
    info.has_value → ∃ value, info.value = .strlist value

@[simp]
theorem update_type (info : ArgInfo D) (g : OptionGroup D) : (update info g).type = info.type := by
  cases g <;> rfl

theorem registeredTypes_perform (parser : ArgParser D) (g : OptionGroup D) :
    registeredTypes (perform parser g) = registeredTypes parser := by
  funext name
  simp only [registeredTypes, perform, Option.map_map]
  congr 1
  funext info
  simp only [Function.comp_apply]
  split <;> simp

theorem assign_eq_perform {parser : ArgParser D} {g : OptionGroup D} {info : ArgInfo D}
    (h : parser.arg_info_mp g.name = some info) :
    parser.assign g.name (update info g) = perform parser g := by
  simp only [ArgParser.assign, perform, ArgParser.mk.injEq, true_and]
  funext name
  split
  case isTrue hname => simp [hname, h]
  case isFalse hname =>
    cases parser.arg_info_mp name <;> simp [Ne.symm hname]

theorem perform_eq_self {parser : ArgParser D} {g : OptionGroup D}
    (h : ∀ info, update info g = info) : perform parser g = parser := by
  have hmap : (parser.arg_info_mp · |>.map fun info => info) = parser.arg_info_mp := by
    funext name
    exact Option.map_id'
  simp only [perform, h, ite_self]
  rw [hmap]

end Options

section Loops

variable {args : List Str}

theorem collect_eq (accept : Str → Bool) {rounds idx : Nat} (out : List Str)
    (h : args.length ≤ idx + rounds) :
    collect accept args rounds idx out =
      (out ++ (args.drop idx).takeWhile accept,
        idx + ((args.drop idx).takeWhile accept).length) := by
  induction rounds generalizing idx out with
  | zero =>
      rw [Nat.add_zero] at h
      rw [List.drop_eq_nil_of_le h]
      simp [collect]
  | succ rounds ih =>
      rw [collect, ← List.head?_drop]
      cases hdrop : args.drop idx with
      | nil => simp
      | cons token rest =>
          have htail : args.drop (idx + 1) = rest := by
            rw [← List.tail_drop, hdrop, List.tail_cons]
          simp only [List.head?_cons]
          split
          case isTrue haccept =>
            rw [ih _ (by omega), htail, List.takeWhile_cons_of_pos haccept,
              List.append_assoc, List.singleton_append, List.length_cons, Nat.add_assoc,
              Nat.add_comm 1]
          case isFalse haccept => simp [haccept]

theorem drop_collected (args : List Str) (idx : Nat) (accept : Str → Bool) :
    args.drop (idx + ((args.drop idx).takeWhile accept).length) =
      (args.drop idx).dropWhile accept := by
  rw [← List.drop_drop]
  conv_lhs => arg 2; rw [← List.takeWhile_append_dropWhile (p := accept) (l := args.drop idx)]
  rw [List.drop_left]

end Loops

section Step

variable {args rest : List Str} {name : Str} {info : ArgInfo D} {c c' : Cursor D}

structure Advances (stod : Str → Option D) (args : List Str) (c c' : Cursor D)
    (g : OptionGroup D) : Prop where
  takes : Takes (registeredTypes c.parser) stod (args.drop c.idx) g (args.drop (c'.idx + 1))
  parser_eq : c'.parser = perform c.parser g
  reports_eq : c'.reports = c.reports ++ g.report.toList
  idx_le : c.idx ≤ c'.idx

theorem drop_succ_of_drop {idx : Nat} (hdrop : args.drop idx = name :: rest) :
    args.drop (idx + 1) = rest := by
  rw [← List.tail_drop, hdrop, List.tail_cons]

theorem registeredTypes_eq_some {parser : ArgParser D}
    (hinfo : parser.arg_info_mp name = some info) :
    registeredTypes parser name = some info.type := by
  rw [registeredTypes, hinfo, Option.map_some]

theorem parseArgument_advances (hdrop : args.drop c.idx = name :: rest)
    (hinfo : c.parser.arg_info_mp name = some info) (htakes : takesValue info.type) :
    ∃ g, Advances stod args c (parseArgument args name info (convert stod info.type) c) g := by
  have hrest := drop_succ_of_drop hdrop
  have htype := registeredTypes_eq_some hinfo
  rw [parseArgument, ← List.head?_drop, hrest]
  cases rest with
  | nil =>
      simp only [List.head?_nil]
      refine ⟨.missing info.type name, ?_, ?_, rfl, Nat.le_refl _⟩
      · rw [hdrop, hrest]
        exact .missing htype htakes
      · exact (perform_eq_self fun _ => rfl).symm
  | cons provided rest =>
      simp only [List.head?_cons]
      cases hconvert : convert stod info.type provided with
      | none =>
          refine ⟨.rejected info.type name provided, ?_, ?_, rfl, Nat.le_refl _⟩
          · rw [hdrop, hrest]
            exact .rejected htype htakes hconvert
          · exact (perform_eq_self fun _ => rfl).symm
      | some value =>
          refine ⟨.valued name provided value, ?_, ?_, (List.append_nil _).symm,
            Nat.le_succ _⟩
          · rw [hdrop, drop_succ_of_drop hrest]
            exact .valued htype htakes hconvert
          · exact assign_eq_perform (g := .valued name provided value) hinfo

theorem parseList_advances (hdrop : args.drop c.idx = name :: rest)
    (hinfo : c.parser.arg_info_mp name = some info) (hlist : info.type = .LIST)
    (hheld : info.has_value → ∃ value, info.value = .strlist value) :
    ∃ g c', parseList args name info c = .ok c' ∧ Advances stod args c c' g := by
  have hrest := drop_succ_of_drop hdrop
  have htype := registeredTypes_eq_some hinfo
  have hstart : (if info.has_value then info.value else .strlist []) =
      ArgValueType.strlist (held info) := by
    cases hvalue : info.has_value with
    | false => simp [held, hvalue]
    | true =>
        obtain ⟨value, hstrlist⟩ := hheld hvalue
        simp [held, hvalue, hstrlist]
  have hcollect := collect_eq c.parser.unregistered (held info)
    (Nat.le_add_left args.length (c.idx + 1))
  have hbehind := drop_collected args (c.idx + 1) c.parser.unregistered
  rw [hrest] at hcollect hbehind
  have hparse : parseList args name info c = .ok { c with
      parser := perform c.parser (.list name (rest.takeWhile c.parser.unregistered))
      idx := c.idx + (rest.takeWhile c.parser.unregistered).length } := by
    rw [parseList, hstart]
    simp only [hcollect, pure_eq_ok]
    rw [← assign_eq_perform (g := .list name (rest.takeWhile c.parser.unregistered)) hinfo,
      Nat.add_right_comm, Nat.add_sub_cancel]
    rfl
  have hunregistered : c.parser.unregistered =
      fun token => (registeredTypes c.parser token).isNone := by
    funext token
    simp [registeredTypes, ArgParser.unregistered]
  refine ⟨.list name (rest.takeWhile c.parser.unregistered), _, hparse, ?_, rfl,
    (List.append_nil _).symm, Nat.le_add_right _ _⟩
  rw [hdrop, Nat.add_right_comm, hbehind, hunregistered]
  exact takes_run (registeredTypes c.parser) stod (hlist ▸ htype) rest

theorem parseList_eq_error (hvalue : info.has_value)
    (hheld : ∀ value, info.value ≠ .strlist value) :
    parseList args name info c = .error .badVariantAccess := by
  rw [parseList, if_pos hvalue]
  cases hvariant : info.value with
  | strlist value => exact absurd hvariant (hheld value)
  | _ => rfl

theorem parseOption_advances (hdrop : args.drop c.idx = name :: rest)
    (hinfo : c.parser.arg_info_mp name = some info) (hheld : HoldsList c.parser name) :
    ∃ g c', parseOption stod args name info c = .ok c' ∧ Advances stod args c c' g := by
  have hscalar : takesValue info.type → ∃ g c',
      (.ok (parseArgument args name info (convert stod info.type) c) :
        Except Failure (Cursor D)) = .ok c' ∧ Advances stod args c c' g := by
    intro htakes
    obtain ⟨g, hadvances⟩ := parseArgument_advances hdrop hinfo htakes
    exact ⟨g, _, rfl, hadvances⟩
  rw [parseOption]
  cases htype : info.type with
  | INT =>
      rw [htype] at hscalar
      exact hscalar rfl
  | FLOAT =>
      rw [htype] at hscalar
      exact hscalar rfl
  | STR =>
      rw [htype] at hscalar
      exact hscalar rfl
  | BOOL =>
      refine ⟨.flag name, _, rfl, ?_, ?_, (List.append_nil _).symm, Nat.le_refl _⟩
      · rw [hdrop, drop_succ_of_drop hdrop]
        exact .flag (htype ▸ registeredTypes_eq_some hinfo)
      · rw [← htype]
        exact assign_eq_perform (g := .flag name) hinfo
  | LIST => exact parseList_advances hdrop hinfo htype (hheld info hinfo htype)

theorem parseOption_eq_error (hinfo : c.parser.arg_info_mp name = some info)
    (hheld : ¬HoldsList c.parser name) :
    parseOption stod args name info c = .error .badVariantAccess := by
  obtain ⟨info', hinfo', htype, hvalue, hnone⟩ : ∃ info', c.parser.arg_info_mp name = some info' ∧
      info'.type = .LIST ∧ info'.has_value ∧ ∀ value, info'.value ≠ .strlist value := by
    simpa [HoldsList] using hheld
  obtain rfl : info = info' := Option.some.inj (hinfo.symm.trans hinfo')
  rw [parseOption, htype]
  exact parseList_eq_error hvalue hnone

end Step

section Run

variable {args rest : List Str} {c : Cursor D} {fuel : Nat} {g : OptionGroup D}

theorem holdsList_perform {parser : ArgParser D} {type : ArgType}
    (htype : registeredTypes parser g.name = some type) (hfits : Fits type g)
    (hheld : HoldsList parser g.name) (name : Str) :
    HoldsList (perform parser g) name ↔ HoldsList parser name := by
  rcases eq_or_ne g.name name with rfl | hname
  · refine iff_of_true (fun info' hinfo' hlist hvalue => ?_) hheld
    obtain ⟨info, hinfo, rfl⟩ : ∃ info, parser.arg_info_mp g.name = some info ∧
        update info g = info' := by
      simpa [perform] using hinfo'
    rw [update_type] at hlist
    obtain rfl : info.type = type := by
      rw [registeredTypes_eq_some hinfo] at htype
      exact Option.some.inj htype
    cases g with
    | list name run => exact ⟨_, rfl⟩
    | flag name => exact absurd (hfits.symm.trans hlist) nofun
    | missing type name => exact hheld info hinfo hlist hvalue
    | rejected type name provided => exact hheld info hinfo hlist hvalue
    | valued name token value =>
        have htakes : takesValue info.type := hfits
        rw [hlist] at htakes
        exact absurd htakes nofun
  · simp [HoldsList, perform, hname]

theorem exists_round {idx : Nat} {name : Str} (hdrop : args.drop idx = name :: rest)
    (hfuel : args.length ≤ idx + fuel) : ∃ rounds, fuel = rounds + 1 := by
  refine Nat.exists_eq_succ_of_ne_zero fun hzero => ?_
  rw [hzero, Nat.add_zero] at hfuel
  rw [List.drop_eq_nil_of_le hfuel] at hdrop
  exact absurd hdrop nofun

/-- One round of the loop reads the first group. -/
theorem parseLoop_group (hfuel : args.length ≤ c.idx + fuel)
    (hfirst : Takes (registeredTypes c.parser) stod (args.drop c.idx) g rest)
    (hheld : HoldsList c.parser g.name) :
    ∃ fuel' c', parseLoop stod args fuel c = parseLoop stod args fuel' c' ∧
      args.length ≤ c'.idx + fuel' ∧ args.drop c'.idx = rest ∧
      c'.parser = perform c.parser g ∧ c'.reports = c.reports ++ g.report.toList := by
  obtain ⟨after, hdrop, hregistered⟩ := hfirst.exists_cons
  obtain ⟨info, hinfo⟩ : ∃ info, c.parser.arg_info_mp g.name = some info := by
    simpa [registeredTypes, Option.ne_none_iff_exists'] using hregistered
  obtain ⟨g', c', hoption, hadvances⟩ : ∃ g' c',
      parseOption stod args g.name info c = .ok c' ∧ Advances stod args c c' g' :=
    parseOption_advances hdrop hinfo hheld
  obtain ⟨rfl, hrest⟩ := hfirst.unique_of_eq hadvances.takes rfl
  have hidx := hadvances.idx_le
  obtain ⟨fuel, rfl⟩ := exists_round hdrop hfuel
  refine ⟨fuel, { c' with idx := c'.idx + 1 }, ?_, by dsimp only; omega, hrest.symm,
    hadvances.parser_eq, hadvances.reports_eq⟩
  rw [parseLoop, ← List.head?_drop, hdrop]
  simp only [List.head?_cons, hinfo, hoption, ok_bind]

theorem parseLoop_group_error (hfuel : args.length ≤ c.idx + fuel)
    (hfirst : Takes (registeredTypes c.parser) stod (args.drop c.idx) g rest)
    (hheld : ¬HoldsList c.parser g.name) :
    parseLoop stod args fuel c = .error .badVariantAccess := by
  obtain ⟨after, hdrop, hregistered⟩ := hfirst.exists_cons
  obtain ⟨info, hinfo⟩ : ∃ info, c.parser.arg_info_mp g.name = some info := by
    simpa [registeredTypes, Option.ne_none_iff_exists'] using hregistered
  obtain ⟨fuel, rfl⟩ := exists_round hdrop hfuel
  rw [parseLoop, ← List.head?_drop, hdrop]
  simp only [List.head?_cons, hinfo, parseOption_eq_error hinfo hheld, error_bind]

/-- The loop ends within as many rounds as there are tokens, and has read the rest of
the tokens by the grammar. -/
theorem parseLoop_grouped {tokens back : List Str} {groups : List (OptionGroup D)}
    (hgrouped : Grouped (registeredTypes c.parser) stod tokens groups back)
    (htokens : args.drop c.idx = tokens) (hfuel : args.length ≤ c.idx + fuel)
    (hheld : ∀ g ∈ groups, HoldsList c.parser g.name) :
    ∃ c', parseLoop stod args fuel c = .ok c' ∧
      c'.parser = { groups.foldl perform c.parser with
        back_default_args := c.parser.back_default_args ++ back } ∧
      c'.reports = c.reports ++ groups.filterMap OptionGroup.report := by
  generalize htypes : registeredTypes c.parser = types at hgrouped
  induction hgrouped generalizing fuel c with
  | done =>
      refine ⟨c, ?_, by simp, by simp⟩
      have hend : args[c.idx]? = none := by rw [← List.head?_drop, htokens, List.head?_nil]
      rw [parseLoop.eq_def]
      simp only [hend, pure_eq_ok]
  | @back token rest htoken =>
      have hinfo : c.parser.arg_info_mp token = none := by
        simpa [← htypes, registeredTypes] using htoken
      have hback := collect_eq (fun _ => true) c.parser.back_default_args
        (Nat.le_add_left args.length c.idx)
      rw [htokens, List.takeWhile_eq_self_iff.mpr fun _ _ => rfl] at hback
      obtain ⟨fuel, rfl⟩ := exists_round htokens hfuel
      rw [parseLoop, ← List.head?_drop, htokens]
      simp only [List.head?_cons, hinfo, hback]
      exact ⟨_, rfl, rfl, (List.append_nil _).symm⟩
  | @group tokens rest back g groups hfirst hrest ih =>
      subst htypes htokens
      obtain ⟨hheadHeld, htailHeld⟩ := List.forall_mem_cons.mp hheld
      obtain ⟨type, htype, hfits⟩ := hfirst.fits
      obtain ⟨fuel', c', hround, hfuel', hdrop', hparser', hreports'⟩ :=
        parseLoop_group hfuel hfirst hheadHeld
      obtain ⟨last, hloop, hparser, hreports⟩ := ih hdrop' hfuel'
        (fun g' hg' => by
          rw [hparser']
          exact (holdsList_perform htype hfits hheadHeld g'.name).mpr (htailHeld g' hg'))
        (by rw [hparser', registeredTypes_perform])
      refine ⟨last, hround.trans hloop, ?_, ?_⟩
      · rw [hparser, hparser', List.foldl_cons]
        rfl
      · rw [hreports, hreports', List.append_assoc]
        cases hreport : g.report <;> simp [hreport]

/-- The first option of type `LIST` that holds something else ends the loop. -/
theorem parseLoop_error {tokens back : List Str} {groups : List (OptionGroup D)}
    (hgrouped : Grouped (registeredTypes c.parser) stod tokens groups back)
    (htokens : args.drop c.idx = tokens) (hfuel : args.length ≤ c.idx + fuel)
    (hheld : ¬∀ g ∈ groups, HoldsList c.parser g.name) :
    parseLoop stod args fuel c = .error .badVariantAccess := by
  generalize htypes : registeredTypes c.parser = types at hgrouped
  induction hgrouped generalizing fuel c with
  | done => exact absurd nofun hheld
  | back htoken => exact absurd nofun hheld
  | @group tokens rest back g groups hfirst hrest ih =>
      subst htypes htokens
      by_cases hheadHeld : HoldsList c.parser g.name
      · obtain ⟨type, htype, hfits⟩ := hfirst.fits
        obtain ⟨fuel', c', hround, hfuel', hdrop', hparser', -⟩ :=
          parseLoop_group hfuel hfirst hheadHeld
        refine hround.trans (ih hdrop' hfuel' (fun htailHeld => hheld ?_)
          (by rw [hparser', registeredTypes_perform]))
        refine List.forall_mem_cons.mpr ⟨hheadHeld, fun g' hg' => ?_⟩
        have hafter := htailHeld g' hg'
        rw [hparser'] at hafter
        exact (holdsList_perform htype hfits hheadHeld g'.name).mp hafter
      · exact parseLoop_group_error hfuel hfirst hheadHeld

end Run

end SkUtils.Arguments.ArgumentReading
