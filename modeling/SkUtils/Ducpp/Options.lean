import SkUtils.Arguments.ArgumentVariants

/-!
The options of `ducpp`: the parser that `main` builds, and the values that it reads from
it by their declared types.
-/

namespace SkUtils.Ducpp.Options

open SkUtils.Library.CheckedLoop
open SkUtils.Strings.StringUtils
open SkUtils.Arguments.ArgumentParser
open SkUtils.Arguments.ArgumentReading
open SkUtils.Arguments.ArgumentVariants

variable {D : Type}

section Code

def mainCalls : List (Call D) :=
  [.add_arg { name := "-p".toList, type := .LIST },
    .add_arg { name := "-b".toList, type := .INT },
    .add_arg { name := "-t".toList, type := .INT },
    .add_arg { name := "-e".toList, type := .LIST }]

/-- What `main` ranks the files by, where `-t` or `-b` has a value. -/
structure Ranking where
  extentions : List Str
  top_k : Int
  bottom_k : Int

structure Settings where
  paths : List Str
  ranking : Option Ranking

def withDot (ext : Str) : Str :=
  if ext.head? = some '.' then ext else '.' :: ext

/-- What `main` reads from the parser; `none` where it shows the help. -/
def settings (parser : ArgParser D) (current_path : Str) : Except Failure (Option Settings) :=
  if need_help parser then
    return none
  else do
    let paths := (← get_value_with_default parser "-p".toList).getD [current_path]
    if (parser.get_value "-t".toList).isSome || (parser.get_value "-b".toList).isSome then
      let extentions : List Str ← get_or parser .LIST "-e".toList []
      let top_k : Int ← get_or parser .INT "-t".toList (0 : Int)
      let bottom_k : Int ← get_or parser .INT "-b".toList (0 : Int)
      return some { paths, ranking := some { extentions := extentions.map withDot, top_k, bottom_k } }
    else
      return some { paths, ranking := none }

def main (stod : Str → Option D) (current_path file : Str) (argv : List Str) :
    Except Failure (Option Settings) := do
  let (parser, _) ← parse stod (used stod mainCalls) file argv
  settings parser current_path

end Code

section Reads

variable {stod : Str → Option D} {parser parser' : ArgParser D} {current_path file : Str}
  {argv : List Str} {reports : List Report}

theorem mainCalls_fresh (info : ArgInfo D) (h : Call.add_arg info ∈ (mainCalls : List (Call D))) :
    info.has_value = false := by
  simp only [mainCalls, List.mem_cons, Call.add_arg.injEq, List.not_mem_nil, or_false] at h
  rcases h with rfl | rfl | rfl | rfl <;> rfl

/-- The options that `main` has registered, as `parse` leaves them. -/
theorem main_registeredTypes (hparse : parse stod (used stod mainCalls) file argv =
    .ok (parser, reports)) :
    registeredTypes parser "-e".toList = some .LIST ∧
      registeredTypes parser "-t".toList = some .INT ∧
      registeredTypes parser "-b".toList = some .INT := by
  rw [parse_registeredTypes (used_declared mainCalls_fresh) hparse]
  exact ⟨rfl, rfl, rfl⟩

theorem settings_eq_ok (hdeclared : AllDeclared parser)
    (htypes : registeredTypes parser "-e".toList = some .LIST ∧
      registeredTypes parser "-t".toList = some .INT ∧
      registeredTypes parser "-b".toList = some .INT) :
    ∃ result, settings parser current_path = .ok result := by
  obtain ⟨hext, htop, hbottom⟩ := htypes
  obtain ⟨paths, hpaths⟩ := hdeclared.get_value_with_default_eq_ok "-p".toList
  obtain ⟨extentions, hextentions⟩ := hdeclared.get_or_eq_ok hext []
  obtain ⟨top_k, htop_k⟩ := hdeclared.get_or_eq_ok htop (0 : Int)
  obtain ⟨bottom_k, hbottom_k⟩ := hdeclared.get_or_eq_ok hbottom (0 : Int)
  rw [settings]
  split
  · exact ⟨none, rfl⟩
  · simp only [hpaths, ok_bind]
    split
    · simp only [hextentions, htop_k, hbottom_k]
      exact ⟨_, rfl⟩
    · exact ⟨_, rfl⟩

theorem main_ne_badVariantAccess (stod : Str → Option D) (current_path file : Str)
    (argv : List Str) : main stod current_path file argv ≠ .error .badVariantAccess := by
  have hused : AllDeclared (used stod (mainCalls : List (Call D))) := used_declared mainCalls_fresh
  intro hmain
  rw [main] at hmain
  cases hparse : parse stod (used stod mainCalls) file argv with
  | error e =>
      rw [hparse] at hmain
      obtain rfl := Except.error.inj hmain
      exact parse_ne_badVariantAccess hused file argv hparse
  | ok result =>
      obtain ⟨parser, reports⟩ := result
      obtain ⟨result, hsettings⟩ : ∃ result, settings parser current_path = .ok result :=
        settings_eq_ok (parse_declared hused hparse) (main_registeredTypes hparse)
      simp only [hparse, ok_bind, hsettings] at hmain
      cases hmain

end Reads

section Contract

/-- The values keep their declared types through every use of a parser, and no
`std::get` of the parser or by a declared type fails. -/
theorem options_keep_declared_type (stod : Str → Option D) (calls : List (Call D))
    (hfresh : ∀ info, .add_arg info ∈ calls → info.has_value = false) :
    (∀ name info, (used stod calls).arg_info_mp name = some info → info.has_value →
      alternative info.value = info.type) ∧
    (∀ file argv, parse stod (used stod calls) file argv ≠ .error .badVariantAccess) ∧
    (∀ arg, ∃ ret, get_value_with_default (used stod calls) arg = .ok ret) ∧
    (∀ arg type other, registeredTypes (used stod calls) arg = some type →
      ∃ value, get_or (used stod calls) type arg other = .ok value) ∧
    ∀ current_path file argv, main stod current_path file argv ≠ .error .badVariantAccess := by
  have hdeclared : AllDeclared (used stod calls) := used_declared hfresh
  refine ⟨hdeclared, ?_, ?_, ?_, ?_⟩
  · exact parse_ne_badVariantAccess hdeclared
  · exact hdeclared.get_value_with_default_eq_ok
  · intro arg type other htype
    exact hdeclared.get_or_eq_ok htype other
  · exact main_ne_badVariantAccess stod

/-- A `parse` in which `-i` keeps its value and `--path` has two, and one that throws. -/
def toolCalls : List (Call Int) :=
  [.add_arg { name := "-i".toList, type := .INT, value := .string [] },
    .add_arg { name := "--path".toList, type := .LIST },
    .parse "tool".toList ["-i=7".toList, "--path=a".toList, "-i".toList, "b".toList],
    .parse "tool".toList [" ".toList]]

theorem options_keep_declared_type_toolCalls :
    (∃ info, (used stoi toolCalls).arg_info_mp "-i".toList = some info ∧ info.has_value ∧
      alternative info.value = .INT) ∧
    (∀ file argv, parse stoi (used stoi toolCalls) file argv ≠ .error .badVariantAccess) ∧
    ∃ paths, get_value_with_default (used stoi toolCalls) "--path".toList = .ok paths := by
  obtain ⟨hvalues, hparse, hdefault, -, -⟩ :=
    options_keep_declared_type stoi toolCalls (by simp [toolCalls])
  refine ⟨⟨_, rfl, rfl, ?_⟩, hparse, hdefault _⟩
  exact hvalues "-i".toList _ rfl rfl

end Contract

end SkUtils.Ducpp.Options
