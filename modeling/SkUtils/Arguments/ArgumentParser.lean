import Mathlib.Algebra.Group.Int.Defs
import SkUtils.Strings.StringUtils

/-!
`ArgParser` of `argparser.h`. The map of the options is the function that looks a name
up; what `parse` reports with `SK_ERROR` is a list of patterns and their arguments. The
type `D` and the conversion `stod` stand for the floating-point numbers.
-/

namespace SkUtils.Arguments.ArgumentParser

open SkUtils.Library.CheckedLoop
open SkUtils.Strings.StringUtils

variable {D : Type}

inductive ArgType
  | BOOL
  | STR
  | LIST
  | INT
  | FLOAT
deriving DecidableEq

def ArgType.type_str : ArgType → Str
  | .INT => "int".toList
  | .FLOAT => "float".toList
  | .LIST => "strlist".toList
  | .BOOL => "bool".toList
  | .STR => "str".toList

inductive ArgValueType (D : Type)
  | bool (value : Bool)
  | int (value : Int)
  | double (value : D)
  | string (value : Str)
  | strlist (value : List Str)

structure ArgInfo (D : Type) where
  name : Str
  type : ArgType
  value : ArgValueType D := .bool false
  has_value : Bool := false

structure ArgParser (D : Type) where
  file_name : Str := []
  front_default_args : List Str := []
  back_default_args : List Str := []
  arg_info_mp : Str → Option (ArgInfo D) := fun _ => none

/-- The arguments of a call of `SK_ERROR`. -/
structure Report where
  pattern : String
  arguments : List Str
deriving DecidableEq

namespace Report

def skippedName (name : Str) : Report where
  pattern := "Arg name should start with '-'. The '\x7b\x7d' is skipped."
  arguments := [name]

def missingValue (type : ArgType) (name : Str) : Report where
  pattern := "Missing [\x7b\x7d] Value of \"\x7b\x7d\". Try to ignore this option."
  arguments := [type.type_str, name]

def invalidValue (type : ArgType) (name provided : Str) : Report where
  pattern := "Invalidate [\x7b\x7d] Value of \"\x7b\x7d\", provided \"\x7b\x7d\". " ++
    "Try to ignore this option."
  arguments := [type.type_str, name, provided]

end Report

/-- `std::isspace` in the default locale. -/
def isspace (c : Char) : Bool :=
  c = ' ' || (9 ≤ c.toNat && c.toNat ≤ 13)

/-- `std::stoi`: the longest decimal prefix after white space, where it is an `int`. -/
def stoi (str : Str) : Option Int :=
  let (negative, digits) :=
    match str.dropWhile isspace with
    | '-' :: rest => (true, rest.takeWhile Char.isDigit)
    | '+' :: rest => (false, rest.takeWhile Char.isDigit)
    | rest => (false, rest.takeWhile Char.isDigit)
  let magnitude : Int := digits.foldl (fun n c => 10 * n + (c.toNat - '0'.toNat)) 0
  let value := if negative then -magnitude else magnitude
  if digits ≠ [] ∧ -2 ^ 31 ≤ value ∧ value < 2 ^ 31 then some value else none

namespace ArgParser

def emplace (parser : ArgParser D) (info : ArgInfo D) : ArgParser D :=
  { parser with
    arg_info_mp := fun name =>
      if name = info.name ∧ parser.arg_info_mp name = none then some info
      else parser.arg_info_mp name }

/-- What is written through the iterator at `name`. -/
def assign (parser : ArgParser D) (name : Str) (info : ArgInfo D) : ArgParser D :=
  { parser with
    arg_info_mp := fun other => if other = name then some info else parser.arg_info_mp other }

def add_arg (parser : ArgParser D) (info : ArgInfo D) : ArgParser D × List Report :=
  if info.name.head? = some '-' then
    (parser.emplace info, [])
  else
    (parser, [.skippedName info.name])

def get_value (parser : ArgParser D) (arg : Str) : Option (ArgValueType D) := do
  let info ← parser.arg_info_mp arg
  if info.has_value then some info.value else none

def get_front_args (parser : ArgParser D) : Option (List Str) :=
  if parser.front_default_args = [] then none else some parser.front_default_args

def get_back_args (parser : ArgParser D) : Option (List Str) :=
  if parser.back_default_args = [] then none else some parser.back_default_args

def unregistered (parser : ArgParser D) (token : Str) : Bool :=
  (parser.arg_info_mp token).isNone

end ArgParser

/-- The tokens of `argv` behind the program's name. The comparison of `argv[i]` with the
address of `"="` is left out: that argument has no piece. -/
def tokenize (argv : List Str) : Except Failure (List Str) := do
  let args := (← argv.mapM (split · '=')).flatten
  (args.filter (· ≠ [])).mapM strip

/-- The loops of `parse` that append `args[idx++]` to `out`, at most `rounds` times. -/
def collect (accept : Str → Bool) (args : List Str) : Nat → Nat → List Str → List Str × Nat
  | 0, idx, out => (out, idx)
  | rounds + 1, idx, out =>
      match args[idx]? with
      | some token =>
          if accept token then collect accept args rounds (idx + 1) (out ++ [token])
          else (out, idx)
      | none => (out, idx)

/-- Where `parse` stands in `args`, and what it has reported. -/
structure Cursor (D : Type) where
  parser : ArgParser D
  idx : Nat
  reports : List Report

/-- `PARSE_ARGUMENT(parse_func)`. -/
def parseArgument (args : List Str) (name : Str) (info : ArgInfo D)
    (parse_func : Str → Option (ArgValueType D)) (c : Cursor D) : Cursor D :=
  match args[c.idx + 1]? with
  | none => { c with reports := c.reports ++ [.missingValue info.type name] }
  | some provided =>
      match parse_func provided with
      | some value =>
          { c with
            parser := c.parser.assign name { info with value, has_value := true }
            idx := c.idx + 1 }
      -- `idx` is put back to the option.
      | none => { c with reports := c.reports ++ [.invalidValue info.type name provided] }

/-- The case `ArgType::LIST`. -/
def parseList (args : List Str) (name : Str) (info : ArgInfo D) (c : Cursor D) :
    Except Failure (Cursor D) :=
  match if info.has_value then info.value else .strlist [] with
  | .strlist value => do
      let (value, idx) := collect c.parser.unregistered args args.length (c.idx + 1) value
      let has_value := info.has_value || value ≠ []
      return { c with
        parser := c.parser.assign name { info with value := .strlist value, has_value }
        idx := idx - 1 }
  | _ => throw .badVariantAccess

/-- The `switch` over the type of the option at `idx`. -/
def parseOption (stod : Str → Option D) (args : List Str) (name : Str) (info : ArgInfo D)
    (c : Cursor D) : Except Failure (Cursor D) :=
  match info.type with
  | .INT => return parseArgument args name info (fun s => (stoi s).map .int) c
  | .FLOAT => return parseArgument args name info (fun s => (stod s).map .double) c
  | .STR => return parseArgument args name info (fun s => some (.string s)) c
  | .BOOL => return { c with
      parser := c.parser.assign name { info with value := .bool true, has_value := true } }
  | .LIST => parseList args name info c

/-- The loop over the options, cut off after `fuel` rounds. -/
def parseLoop (stod : Str → Option D) (args : List Str) :
    Nat → Cursor D → Except Failure (Cursor D)
  | fuel, c =>
      match args[c.idx]? with
      | none => return c
      | some name =>
          match fuel with
          | 0 => throw .noProgress
          | fuel + 1 =>
              match c.parser.arg_info_mp name with
              | none =>
                  let (back_default_args, idx) := collect (fun _ => true) args args.length c.idx
                    c.parser.back_default_args
                  return { c with parser := { c.parser with back_default_args }, idx }
              | some info => do
                  let c ← parseOption stod args name info c
                  parseLoop stod args fuel { c with idx := c.idx + 1 }

def prepare (parser : ArgParser D) (file : Str) : ArgParser D :=
  { (parser.emplace { name := "-h".toList, type := .BOOL }).emplace
      { name := "--help".toList, type := .BOOL } with
    file_name := file }

def parse (stod : Str → Option D) (parser : ArgParser D) (file : Str) (argv : List Str) :
    Except Failure (ArgParser D × List Report) := do
  let parser := prepare parser file
  let args ← tokenize argv
  let (front_default_args, idx) :=
    collect parser.unregistered args args.length 0 parser.front_default_args
  let c ← parseLoop stod args args.length
    { parser := { parser with front_default_args }, idx, reports := [] }
  return (c.parser, c.reports)

end SkUtils.Arguments.ArgumentParser
