import SkUtils.Arguments.ArgumentTotality

/-!
The variants that the options hold, over any use of a parser: options are registered and
command lines are parsed in any order, also after a `parse` that threw.
-/

namespace SkUtils.Arguments.ArgumentVariants

open SkUtils.Library.CheckedLoop
open SkUtils.Strings.StringUtils
open SkUtils.Arguments.ArgumentParser
open SkUtils.Arguments.ArgumentGrammar
open SkUtils.Arguments.ArgumentReading
open SkUtils.Arguments.ArgumentValues
open SkUtils.Arguments.ArgumentTotality

variable {D : Type} {stod : Str → Option D}

section Code

/-- The C++ type of the values of an option. -/
def Alternative (D : Type) : ArgType → Type
  | .BOOL => Bool
  | .STR => Str
  | .LIST => List Str
  | .INT => Int
  | .FLOAT => D

/-- The variant that is constructed from a value of the type. -/
def variant : (type : ArgType) → Alternative D type → ArgValueType D
  | .BOOL, value => .bool value
  | .STR, value => .string value
  | .LIST, value => .strlist value
  | .INT, value => .int value
  | .FLOAT, value => .double value

/-- The index of a variant, as the type of the options that hold it. -/
def alternative : ArgValueType D → ArgType
  | .bool _ => .BOOL
  | .int _ => .INT
  | .double _ => .FLOAT
  | .string _ => .STR
  | .strlist _ => .LIST

/-- `std::get` of the alternative. -/
def get : (type : ArgType) → ArgValueType D → Except Failure (Alternative D type)
  | .BOOL, .bool value => return value
  | .STR, .string value => return value
  | .LIST, .strlist value => return value
  | .INT, .int value => return value
  | .FLOAT, .double value => return value
  | _, _ => throw .badVariantAccess

/-- `std::get<T>(get_value(arg).value_or(other))`. -/
def get_or (parser : ArgParser D) (type : ArgType) (arg : Str) (other : Alternative D type) :
    Except Failure (Alternative D type) :=
  get type ((parser.get_value arg).getD (variant type other))

def get_value_with_default (parser : ArgParser D) (arg : Str) :
    Except Failure (Option (List Str)) :=
  match parser.arg_info_mp arg with
  | none => return none
  | some info =>
      if info.type ≠ .LIST then
        return none
      else do
        let pv : List Str ← get_or parser .LIST arg []
        let fv := parser.get_front_args.getD []
        let bv := parser.get_back_args.getD []
        let ret := pv ++ fv ++ bv
        return if ret = [] then none else some ret

def need_help (parser : ArgParser D) : Bool :=
  (parser.get_value "-h".toList).isSome || (parser.get_value "--help".toList).isSome

/-- The calls that change a parser. -/
inductive Call (D : Type)
  | add_arg (info : ArgInfo D)
  | parse (file : Str) (argv : List Str)

def call (stod : Str → Option D) (parser : ArgParser D) : Call D → ArgParser D
  | .add_arg info => (parser.add_arg info).1
  | .parse file argv =>
      match parse stod parser file argv with
      | .ok (parser, _) => parser
      -- `strip` throws while the tokens are made, before an option is read.
      | .error _ => prepare parser file

def used (stod : Str → Option D) (calls : List (Call D)) : ArgParser D :=
  calls.foldl (call stod) {}

end Code

section Invariant

/-- An option that has a value holds the alternative of its type. -/
def Declared (info : ArgInfo D) : Prop :=
  info.has_value → alternative info.value = info.type

def AllDeclared (parser : ArgParser D) : Prop :=
  ∀ name info, parser.arg_info_mp name = some info → Declared info

variable {parser : ArgParser D} {info : ArgInfo D}

theorem declared_of_no_value (h : info.has_value = false) : Declared info := by
  intro hvalue
  rw [h] at hvalue
  cases hvalue

@[simp]
theorem alternative_variant (type : ArgType) (value : Alternative D type) :
    alternative (variant type value) = type := by
  cases type <;> rfl

theorem get_eq_ok {type : ArgType} {value : ArgValueType D} (h : alternative value = type) :
    ∃ result, get type value = .ok result := by
  subst h
  cases value <;> exact ⟨_, rfl⟩

theorem allDeclared_empty : AllDeclared ({} : ArgParser D) :=
  nofun

theorem AllDeclared.emplace (h : AllDeclared parser) (hinfo : Declared info) :
    AllDeclared (parser.emplace info) :=
  forall_emplace h hinfo

theorem AllDeclared.assign (h : AllDeclared parser) (name : Str) (hinfo : Declared info) :
    AllDeclared (parser.assign name info) := by
  intro other info' hinfo'
  simp only [ArgParser.assign] at hinfo'
  split at hinfo'
  · obtain rfl := Option.some.inj hinfo'
    exact hinfo
  · exact h other info' hinfo'

theorem AllDeclared.add_arg (h : AllDeclared parser) (hinfo : Declared info) :
    AllDeclared (parser.add_arg info).1 := by
  rw [ArgParser.add_arg]
  split
  · exact h.emplace hinfo
  · exact h

theorem AllDeclared.prepare (h : AllDeclared parser) (file : Str) :
    AllDeclared (prepare parser file) :=
  AllDeclared.emplace (h.emplace (declared_of_no_value rfl)) (declared_of_no_value rfl)

theorem AllDeclared.listsHoldLists (h : AllDeclared parser) : ListsHoldLists parser := by
  intro name info hinfo htype hvalue
  have halternative := (h name info hinfo hvalue).trans htype
  cases hvariant : info.value with
  | strlist value => exact ⟨value, rfl⟩
  | _ => rw [hvariant] at halternative; cases halternative

end Invariant

section Step

variable {args : List Str} {name : Str} {info : ArgInfo D} {c c' : Cursor D}

theorem parseArgument_declared {parse_func : Str → Option (ArgValueType D)}
    (h : AllDeclared c.parser)
    (hconverts : ∀ provided value, parse_func provided = some value →
      alternative value = info.type) :
    AllDeclared (parseArgument args name info parse_func c).parser := by
  rw [parseArgument]
  split
  · exact h
  · split
    · rename_i provided _ _ value hvalue
      exact h.assign name fun _ => hconverts provided value hvalue
    · exact h

/-- Each conversion makes the alternative of the type that it is called for. -/
theorem convert_alternative {type : ArgType} {provided : Str} {value : ArgValueType D}
    (h : convert stod type provided = some value) : alternative value = type := by
  cases type with
  | STR =>
      obtain rfl := Option.some.inj h
      rfl
  | INT =>
      obtain ⟨n, -, rfl⟩ := Option.map_eq_some_iff.mp h
      rfl
  | FLOAT =>
      obtain ⟨x, -, rfl⟩ := Option.map_eq_some_iff.mp h
      rfl
  | BOOL => cases h
  | LIST => cases h

theorem parseList_declared (h : AllDeclared c.parser) (htype : info.type = .LIST)
    (hparse : parseList args name info c = .ok c') : AllDeclared c'.parser := by
  unfold parseList at hparse
  split at hparse
  · obtain rfl := Except.ok.inj hparse
    exact h.assign name fun _ => htype.symm
  · cases hparse

theorem parseOption_declared (h : AllDeclared c.parser)
    (hparse : parseOption stod args name info c = .ok c') : AllDeclared c'.parser := by
  have hscalar : AllDeclared
      (parseArgument args name info (convert stod info.type) c).parser :=
    parseArgument_declared h fun _ _ => convert_alternative
  rw [parseOption] at hparse
  cases htype : info.type with
  | INT =>
      rw [htype] at hparse hscalar
      obtain rfl := Except.ok.inj hparse
      exact hscalar
  | FLOAT =>
      rw [htype] at hparse hscalar
      obtain rfl := Except.ok.inj hparse
      exact hscalar
  | STR =>
      rw [htype] at hparse hscalar
      obtain rfl := Except.ok.inj hparse
      exact hscalar
  | BOOL =>
      rw [htype] at hparse
      obtain rfl := Except.ok.inj hparse
      exact h.assign name fun _ => rfl
  | LIST =>
      rw [htype] at hparse
      exact parseList_declared h htype hparse

/-- What the loop preserves, round by round. -/
theorem parseLoop_declared {fuel : Nat} (h : AllDeclared c.parser)
    (hparse : parseLoop stod args fuel c = .ok c') : AllDeclared c'.parser := by
  induction fuel generalizing c with
  | zero =>
      cases hname : args[c.idx]? with
      | none =>
          obtain rfl : c = c' := by simpa [parseLoop.eq_def, hname] using hparse
          exact h
      | some name =>
          simp [parseLoop.eq_def, hname] at hparse
  | succ fuel ih =>
      cases hname : args[c.idx]? with
      | none =>
          obtain rfl : c = c' := by simpa [parseLoop.eq_def, hname] using hparse
          exact h
      | some name =>
          rw [parseLoop] at hparse
          simp only [hname] at hparse
          split at hparse
          · obtain rfl := Except.ok.inj hparse
            exact h
          · obtain ⟨next, hoption, hrest⟩ := bind_eq_ok.mp hparse
            have hnext : AllDeclared next.parser := parseOption_declared h hoption
            exact ih (c := { next with idx := next.idx + 1 }) hnext hrest

theorem parse_declared {parser parser' : ArgParser D} {file : Str} {argv : List Str}
    {reports : List Report} (h : AllDeclared parser)
    (hparse : parse stod parser file argv = .ok (parser', reports)) : AllDeclared parser' := by
  obtain ⟨args, -, hloop⟩ := bind_eq_ok.mp hparse
  obtain ⟨c, hc, hlast⟩ := bind_eq_ok.mp hloop
  obtain rfl : c.parser = parser' := congrArg Prod.fst (Except.ok.inj hlast)
  exact parseLoop_declared (h.prepare file) hc

theorem registeredTypes_foldl_perform (parser : ArgParser D) (groups : List (OptionGroup D)) :
    registeredTypes (groups.foldl perform parser) = registeredTypes parser := by
  induction groups generalizing parser with
  | nil => rfl
  | cons g groups ih => rw [List.foldl_cons, ih, registeredTypes_perform]

/-- A `parse` that fails has read no option. -/
theorem parse_ok_or {parser : ArgParser D} (h : AllDeclared parser)
    (stod : Str → Option D) (file : Str) (argv : List Str) :
    (∃ result, parse stod parser file argv = .ok result ∧
      SkipsMalformed stod (prepare parser file) (tokens argv) result) ∨
    parse stod parser file argv = .error .outOfRange := by
  rcases em (NoBlankPiece argv) with hargv | hblank
  · exact .inl (parse_skips_malformed hargv fun _ _ _ g _ =>
      (h.prepare file).listsHoldLists g.name)
  · exact .inr (parse_eq_outOfRange parser file hblank)

theorem parse_registeredTypes {parser parser' : ArgParser D} {file : Str} {argv : List Str}
    {reports : List Report} (h : AllDeclared parser)
    (hparse : parse stod parser file argv = .ok (parser', reports)) :
    registeredTypes parser' = registeredTypes (prepare parser file) := by
  rcases parse_ok_or h stod file argv with ⟨result, hresult, hskips⟩ | hthrows
  · obtain ⟨groups, back, -, houtcome, -⟩ := hskips
    obtain rfl : result = (parser', reports) := Except.ok.inj (hresult.symm.trans hparse)
    change parser' = outcome _ _ _ _ at houtcome
    rw [houtcome]
    exact registeredTypes_foldl_perform (prepare parser file) _
  · rw [hthrows] at hparse
    cases hparse

/-- No `std::get` of `parse` fails. -/
theorem parse_ne_badVariantAccess {parser : ArgParser D} (h : AllDeclared parser) (file : Str)
    (argv : List Str) : parse stod parser file argv ≠ .error .badVariantAccess := by
  intro hparse
  rcases parse_ok_or h stod file argv with ⟨result, hresult, -⟩ | hthrows
  · rw [hresult] at hparse
    cases hparse
  · rw [hthrows] at hparse
    cases hparse

end Step

section Run

theorem call_declared {parser : ArgParser D} (h : AllDeclared parser) (c : Call D)
    (hfresh : ∀ info, c = .add_arg info → info.has_value = false) :
    AllDeclared (call stod parser c) := by
  cases c with
  | add_arg info => exact h.add_arg (declared_of_no_value (hfresh info rfl))
  | parse file argv =>
      rw [call]
      split
      case h_1 parser' reports hparse => exact parse_declared h hparse
      case h_2 => exact h.prepare file

theorem calls_declared {parser : ArgParser D} (h : AllDeclared parser) {calls : List (Call D)}
    (hfresh : ∀ info, .add_arg info ∈ calls → info.has_value = false) :
    AllDeclared (calls.foldl (call stod) parser) := by
  induction calls generalizing parser with
  | nil => exact h
  | cons c calls ih =>
      have hfirst : AllDeclared (call stod parser c) :=
        call_declared h c fun info hc => hfresh info (hc ▸ List.mem_cons_self)
      exact ih hfirst fun info hinfo => hfresh info (List.mem_cons_of_mem c hinfo)

theorem used_declared {calls : List (Call D)}
    (hfresh : ∀ info, .add_arg info ∈ calls → info.has_value = false) :
    AllDeclared (used stod calls) :=
  calls_declared allDeclared_empty hfresh

/-- A read by the declared type finds its alternative. -/
theorem AllDeclared.get_or_eq_ok {parser : ArgParser D} (h : AllDeclared parser) {arg : Str}
    {type : ArgType} (htype : registeredTypes parser arg = some type)
    (other : Alternative D type) : ∃ value, get_or parser type arg other = .ok value := by
  obtain ⟨info, hinfo, rfl⟩ := Option.map_eq_some_iff.mp htype
  refine get_eq_ok ?_
  rw [ArgParser.get_value, hinfo]
  cases hvalue : info.has_value with
  | false => simp [hvalue]
  | true => simpa [hvalue] using h arg info hinfo hvalue

theorem AllDeclared.get_value_with_default_eq_ok {parser : ArgParser D} (h : AllDeclared parser)
    (arg : Str) : ∃ ret, get_value_with_default parser arg = .ok ret := by
  rw [get_value_with_default]
  cases hinfo : parser.arg_info_mp arg with
  | none => exact ⟨none, rfl⟩
  | some info =>
      dsimp only
      split
      case isTrue => exact ⟨none, rfl⟩
      case isFalse htype =>
        have hlist : registeredTypes parser arg = some .LIST := by
          rw [registeredTypes_eq_some hinfo, not_not.mp htype]
        obtain ⟨pv, hpv⟩ := h.get_or_eq_ok hlist []
        exact ⟨_, by rw [hpv]; rfl⟩

end Run

end SkUtils.Arguments.ArgumentVariants
