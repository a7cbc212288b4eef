import SkUtils.Arguments.ArgumentParser

/-!
The grammar of a command line: what the option in front of a token sequence takes, and
the reading of the sequence as groups and the tokens behind them. It reads every sequence
in one way.
-/

namespace SkUtils.Arguments.ArgumentGrammar

open SkUtils.Strings.StringUtils
open SkUtils.Arguments.ArgumentParser

variable {D : Type}

/-- An option of the command line with what belongs to it. -/
inductive OptionGroup (D : Type)
  | flag (name : Str)
  | missing (type : ArgType) (name : Str)
  | rejected (type : ArgType) (name provided : Str)
  | valued (name token : Str) (value : ArgValueType D)
  | list (name : Str) (run : List Str)

namespace OptionGroup

def name : OptionGroup D → Str
  | flag name => name
  | missing _ name => name
  | rejected _ name _ => name
  | valued name _ _ => name
  | list name _ => name

def tokens : OptionGroup D → List Str
  | flag name => [name]
  | missing _ name => [name]
  | rejected _ name _ => [name]
  | valued name token _ => [name, token]
  | list name run => name :: run

/-- The value that the group gives to an option of one value. -/
def value : OptionGroup D → Option (ArgValueType D)
  | flag _ => some (.bool true)
  | valued _ _ value => some value
  | _ => none

def elements : OptionGroup D → List Str
  | list _ run => run
  | _ => []

def report : OptionGroup D → Option Report
  | missing type name => some (.missingValue type name)
  | rejected type name provided => some (.invalidValue type name provided)
  | _ => none

end OptionGroup

def takesValue : ArgType → Bool
  | .STR => true
  | .INT => true
  | .FLOAT => true
  | .BOOL => false
  | .LIST => false

def convert (stod : Str → Option D) : ArgType → Str → Option (ArgValueType D)
  | .STR, token => some (.string token)
  | .INT, token => (stoi token).map .int
  | .FLOAT, token => (stod token).map .double
  | .BOOL, _ => none
  | .LIST, _ => none

section Reading

variable (types : Str → Option ArgType) (stod : Str → Option D)

/-- The group in front of a token sequence, and the tokens that it leaves. -/
inductive Takes : List Str → OptionGroup D → List Str → Prop
  | flag {name : Str} {rest : List Str} (htype : types name = some .BOOL) :
      Takes (name :: rest) (.flag name) rest
  | missing {name : Str} {type : ArgType} (htype : types name = some type)
      (htakes : takesValue type) : Takes [name] (.missing type name) []
  | rejected {name provided : Str} {rest : List Str} {type : ArgType}
      (htype : types name = some type) (htakes : takesValue type)
      (hconvert : convert stod type provided = none) :
      Takes (name :: provided :: rest) (.rejected type name provided) (provided :: rest)
  | valued {name token : Str} {rest : List Str} {type : ArgType} {value : ArgValueType D}
      (htype : types name = some type) (htakes : takesValue type)
      (hconvert : convert stod type token = some value) :
      Takes (name :: token :: rest) (.valued name token value) rest
  | list {name : Str} {run rest : List Str} (htype : types name = some .LIST)
      (hrun : ∀ token ∈ run, types token = none)
      (hmaximal : ∀ token ∈ rest.head?, types token ≠ none) :
      Takes (name :: (run ++ rest)) (.list name run) rest

/-- A token sequence as groups and what stands behind them: nothing, or the first token
in the place of an option that is not registered, and all after it. -/
inductive Grouped : List Str → List (OptionGroup D) → List Str → Prop
  | done : Grouped [] [] []
  | back {token : Str} {rest : List Str} (htoken : types token = none) :
      Grouped (token :: rest) [] (token :: rest)
  | group {tokens rest back : List Str} {g : OptionGroup D} {groups : List (OptionGroup D)}
      (hfirst : Takes types stod tokens g rest) (hrest : Grouped rest groups back) :
      Grouped tokens (g :: groups) back

end Reading

def Fits (type : ArgType) : OptionGroup D → Prop
  | .flag _ => type = .BOOL
  | .list _ _ => type = .LIST
  | _ => takesValue type

section Conservation

variable {types : Str → Option ArgType} {stod : Str → Option D}

theorem Takes.tokens_eq {tokens rest : List Str} {g : OptionGroup D}
    (h : Takes types stod tokens g rest) : tokens = g.tokens ++ rest := by
  cases h <;> rfl

theorem Takes.fits {tokens rest : List Str} {g : OptionGroup D}
    (h : Takes types stod tokens g rest) : ∃ type, types g.name = some type ∧ Fits type g := by
  cases h with
  | flag htype => exact ⟨_, htype, rfl⟩
  | missing htype htakes => exact ⟨_, htype, htakes⟩
  | rejected htype htakes hconvert => exact ⟨_, htype, htakes⟩
  | valued htype htakes hconvert => exact ⟨_, htype, htakes⟩
  | list htype hrun hmaximal => exact ⟨_, htype, rfl⟩

/-- Every token is in one part, in its order. -/
theorem Grouped.tokens_eq {tokens back : List Str} {groups : List (OptionGroup D)}
    (h : Grouped types stod tokens groups back) :
    tokens = groups.flatMap OptionGroup.tokens ++ back := by
  induction h with
  | done => rfl
  | back htoken => rfl
  | group hfirst hrest ih =>
      rw [hfirst.tokens_eq, ih, List.flatMap_cons, List.append_assoc]

theorem Grouped.fits {tokens back : List Str} {groups : List (OptionGroup D)}
    (h : Grouped types stod tokens groups back) :
    ∀ g ∈ groups, ∃ type, types g.name = some type ∧ Fits type g := by
  induction h with
  | done => nofun
  | back htoken => nofun
  | group hfirst hrest ih => exact List.forall_mem_cons.mpr ⟨hfirst.fits, ih⟩

/-- A value is what its token converts to. -/
theorem Grouped.converts {tokens back : List Str} {groups : List (OptionGroup D)}
    (h : Grouped types stod tokens groups back) {name token : Str} {value : ArgValueType D}
    (hg : .valued name token value ∈ groups) :
    ∃ type, types name = some type ∧ convert stod type token = some value := by
  induction h with
  | done => cases hg
  | back htoken => cases hg
  | group hfirst hrest ih =>
      rcases List.mem_cons.mp hg with rfl | hg
      · cases hfirst with
        | valued htype htakes hconvert => exact ⟨_, htype, hconvert⟩
      · exact ih hg

end Conservation

section Unique

variable {types : Str → Option ArgType} {stod : Str → Option D}

theorem run_eq_takeWhile {run rest : List Str} (hrun : ∀ token ∈ run, types token = none)
    (hmaximal : ∀ token ∈ rest.head?, types token ≠ none) :
    (run ++ rest).takeWhile (fun token => (types token).isNone) = run := by
  rw [List.takeWhile_append_of_pos fun token htoken => by simp [hrun token htoken]]
  cases rest with
  | nil => simp
  | cons token rest =>
      have hregistered := hmaximal token rfl
      rw [List.takeWhile_cons_of_neg (by simpa using hregistered), List.append_nil]

theorem Takes.exists_cons {tokens rest : List Str} {g : OptionGroup D}
    (h : Takes types stod tokens g rest) :
    ∃ after, tokens = g.name :: after ∧ types g.name ≠ none := by
  obtain ⟨type, htype, -⟩ := h.fits
  refine ⟨g.tokens.tail ++ rest, ?_, by simp [htype]⟩
  rw [h.tokens_eq]
  cases g <;> rfl

theorem Takes.unique_of_eq {tokens tokens' rest rest' : List Str} {g g' : OptionGroup D}
    (h : Takes types stod tokens g rest) (h' : Takes types stod tokens' g' rest')
    (htokens : tokens = tokens') : g = g' ∧ rest = rest' := by
  cases h with
  | flag htype => cases h' <;> grind [takesValue]
  | missing htype htakes => cases h' <;> grind [takesValue]
  | rejected htype htakes hconvert => cases h' <;> grind [takesValue]
  | valued htype htakes hconvert => cases h' <;> grind [takesValue]
  | list htype hrun hmaximal =>
      cases h' with
      | list htype' hrun' hmaximal' =>
          obtain ⟨rfl, hrest⟩ := List.cons.inj htokens
          have htake := congrArg (List.takeWhile fun token => (types token).isNone) hrest
          rw [run_eq_takeWhile hrun hmaximal, run_eq_takeWhile hrun' hmaximal'] at htake
          subst htake
          exact ⟨rfl, List.append_cancel_left hrest⟩
      | flag htype' => grind
      | missing htype' htakes' => grind [takesValue]
      | rejected htype' htakes' => grind [takesValue]
      | valued htype' htakes' => grind [takesValue]

theorem Grouped.unique {tokens back back' : List Str} {groups groups' : List (OptionGroup D)}
    (h : Grouped types stod tokens groups back) (h' : Grouped types stod tokens groups' back') :
    groups = groups' ∧ back = back' := by
  induction h generalizing groups' with
  | done =>
      cases h' with
      | done => exact ⟨rfl, rfl⟩
      | group hfirst => cases hfirst
  | back htoken =>
      cases h' with
      | back => exact ⟨rfl, rfl⟩
      | group hfirst =>
          obtain ⟨after, htokens, hregistered⟩ := hfirst.exists_cons
          obtain ⟨rfl, -⟩ := List.cons.inj htokens
          exact absurd htoken hregistered
  | group hfirst hrest ih =>
      cases h' with
      | done => cases hfirst
      | back htoken =>
          obtain ⟨after, htokens, hregistered⟩ := hfirst.exists_cons
          obtain ⟨rfl, -⟩ := List.cons.inj htokens
          exact absurd htoken hregistered
      | group hfirst' hrest' =>
          obtain ⟨rfl, rfl⟩ := hfirst.unique_of_eq hfirst' rfl
          obtain ⟨rfl, rfl⟩ := ih hrest'
          exact ⟨rfl, rfl⟩

end Unique

section Existence

variable (types : Str → Option ArgType) (stod : Str → Option D)

theorem takes_run {name : Str} (htype : types name = some .LIST) (rest : List Str) :
    Takes types stod (name :: rest)
      (.list name (rest.takeWhile fun token => (types token).isNone))
      (rest.dropWhile fun token => (types token).isNone) := by
  nth_rewrite 1 [← List.takeWhile_append_dropWhile (p := fun token => (types token).isNone)
    (l := rest)]
  apply Takes.list htype
  · intro token htoken
    simpa using List.mem_takeWhile_imp htoken
  · intro token htoken
    have hstop := List.head?_dropWhile_not (fun token => (types token).isNone) rest
    rw [Option.mem_def.mp htoken] at hstop
    simpa [Option.isSome_iff_ne_none] using hstop

theorem exists_takes_value {name : Str} {type : ArgType} (htype : types name = some type)
    (htakes : takesValue type) (rest : List Str) :
    ∃ g left, Takes types stod (name :: rest) g left := by
  cases rest with
  | nil => exact ⟨_, _, .missing htype htakes⟩
  | cons provided rest =>
      cases hconvert : convert stod type provided with
      | none => exact ⟨_, _, .rejected htype htakes hconvert⟩
      | some value => exact ⟨_, _, .valued htype htakes hconvert⟩

theorem exists_takes {name : Str} {type : ArgType} (htype : types name = some type)
    (rest : List Str) : ∃ g left, Takes types stod (name :: rest) g left := by
  cases type with
  | BOOL => exact ⟨_, _, .flag htype⟩
  | LIST => exact ⟨_, _, takes_run types stod htype rest⟩
  | STR => exact exists_takes_value types stod htype rfl rest
  | INT => exact exists_takes_value types stod htype rfl rest
  | FLOAT => exact exists_takes_value types stod htype rfl rest

variable {types stod}

theorem Takes.length_lt {tokens rest : List Str} {g : OptionGroup D}
    (h : Takes types stod tokens g rest) : rest.length < tokens.length := by
  have hpos : 0 < g.tokens.length := by cases g <;> exact Nat.succ_pos _
  rw [h.tokens_eq, List.length_append]
  omega

variable (types stod)

theorem exists_grouped (tokens : List Str) :
    ∃ (groups : List (OptionGroup D)) (back : List Str),
      Grouped types stod tokens groups back := by
  induction hlength : tokens.length using Nat.strong_induction_on generalizing tokens with
  | h length ih =>
      cases tokens with
      | nil => exact ⟨[], [], .done⟩
      | cons name rest =>
          cases htype : types name with
          | none => exact ⟨[], name :: rest, .back htype⟩
          | some type =>
              obtain ⟨g, left, hfirst⟩ := exists_takes types stod htype rest
              obtain ⟨groups, back, hrest⟩ :=
                ih left.length (hlength ▸ hfirst.length_lt) left rfl
              exact ⟨g :: groups, back, .group hfirst hrest⟩

end Existence

end SkUtils.Arguments.ArgumentGrammar
