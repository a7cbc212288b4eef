import Mathlib.Data.Char
import Mathlib.Data.List.DropRight
import Mathlib.Data.List.Lex
import SkUtils.Strings.StringUtils

/-!
`merge_skutils.py`: `parse_header`, which takes the include guard and the `#include` lines
out of a header, and the file that `main` writes. Regular expressions are written out; in
none of them can `\s+` give back what it has taken. `isalnum` is `str.isalnum` of a
character.
-/

namespace SkUtils.Scripts.MergeHeaders

open SkUtils.Strings.StringUtils (Str)

/-- `str.isspace` of a character, and `\s`. -/
def isspace (c : Char) : Bool :=
  9 ≤ c.toNat && c.toNat ≤ 13 || 28 ≤ c.toNat && c.toNat ≤ 32 || c.toNat == 0x85 ||
    c.toNat == 0xa0 || c.toNat == 0x1680 || 0x2000 ≤ c.toNat && c.toNat ≤ 0x200a ||
    c.toNat == 0x2028 || c.toNat == 0x2029 || c.toNat == 0x202f || c.toNat == 0x205f ||
    c.toNat == 0x3000

/-- `line.strip()`. -/
def strip (line : Str) : Str :=
  (line.dropWhile isspace).rdropWhile isspace

def startswith (str beginning : Str) : Bool :=
  beginning.isPrefixOf str

/-- `substr in str`. -/
def contains (str substr : Str) : Bool :=
  str.tails.any fun tail => substr.isPrefixOf tail

/-- What follows `directive\s+`. -/
def matchDirective (directive stripped : Str) : Option Str :=
  if startswith stripped directive then
    let rest := stripped.drop directive.length
    if rest.head?.any isspace then some (rest.dropWhile isspace) else none
  else none

section Guard

variable (isalnum : Char → Bool)

/-- `\w`. -/
def isWord (c : Char) : Bool :=
  isalnum c || c == '_'

/-- The group of `#ifndef\s+(\w+)`. -/
def matchIfndef (stripped : Str) : Option Str :=
  match matchDirective "#ifndef".toList stripped with
  | some rest =>
      let guard := rest.takeWhile (isWord isalnum)
      if guard.isEmpty then none else some guard
  | none => none

/-- `#define\s+guard\b`. -/
def matchDefine ( guard_macro stripped : Str) : Bool :=
  match matchDirective "#define".toList stripped with
  | some rest =>
      startswith rest guard_macro && !(rest.drop guard_macro.length).head?.any (isWord isalnum)
  | none => false

def isSkipped (stripped : Str) : Bool :=
  stripped.isEmpty || startswith stripped "//".toList || startswith stripped "/*".toList ||
    startswith stripped "*".toList

/-- Is this taken for the end of the guard? -/
def isEnd ( guard_macro stripped : Str) : Bool :=
  startswith stripped "#endif".toList &&
    (contains stripped guard_macro || stripped == "#endif".toList)

/-- `guard_macro` and `start_idx`. -/
def findGuard (lines : List Str) : Option Str × Nat :=
  match lines.findIdx? fun line => !isSkipped (strip line) with
  | none => (none, 0)
  | some i =>
      match lines[i]?.bind fun line => matchIfndef isalnum (strip line) with
      | none => (none, 0)
      | some guard_macro =>
          match ((lines.drop (i + 1)).take 2).findIdx? fun line =>
              matchDefine isalnum guard_macro (strip line) with
          | some j => (some guard_macro, i + 1 + j + 1)
          | none => (some guard_macro, 0)

/-- `end_idx`; the lines are tried from the last one up. -/
def findEnd (lines : List Str) : Option Str → Nat
  | none => lines.length
  | some guard_macro =>
      ((List.range lines.length).reverse.find? fun i =>
        decide (lines.length - 5 < i) && lines[i]?.any fun line =>
          isEnd guard_macro (strip line)).getD lines.length

end Guard

section Body

/-- The group of `#include\s+<(.+?)>`. -/
def matchStdInclude (stripped : Str) : Option Str :=
  match matchDirective "#include".toList stripped with
  | some ('<' :: c :: rest) =>
      if rest.contains '>' then some (c :: rest.takeWhile (· != '>')) else none
  | _ => none

/-- `#include\s+"`. -/
def matchInclude (stripped : Str) : Bool :=
  match matchDirective "#include".toList stripped with
  | some (c :: _) => c == '\x22'
  | _ => false

def isBlank (line : Str) : Bool :=
  (strip line).isEmpty

def isKept (line : Str) : Bool :=
  (matchStdInclude (strip line)).isNone && !matchInclude (strip line)

/-- The blank lines at both ends are popped. -/
def trim (body_lines : List Str) : List Str :=
  (body_lines.dropWhile isBlank).rdropWhile isBlank

end Body

/-- The standard includes and the body. -/
def parse_header (isalnum : Char → Bool) (lines : List Str) : List Str × List Str :=
  let ( guard_macro, start_idx) := findGuard isalnum lines
  let end_idx := findEnd lines guard_macro
  let between := (lines.take end_idx).drop start_idx
  (between.filterMap fun line => matchStdInclude (strip line), trim (between.filter isKept))

section Main

def SECTION_NAMES : List (Str × Str) :=
  [("noncopyable.h".toList, "NonCopyable".toList), ("spinlock.h".toList, "SpinLock".toList),
    ("config.h".toList, "Config".toList), ("string_utils.h".toList, "String Utilities".toList),
    ("time_utils.h".toList, "Time Utilities".toList), ("printer.h".toList, "Printer".toList),
    ("logger.h".toList, "Logger".toList)]

/-- `os.path.basename`. -/
def basename (filepath : Str) : Str :=
  filepath.rtakeWhile (· != '/')

def section_name (basename : Str) : Str :=
  (SECTION_NAMES.lookup basename).getD basename

def sep : Str :=
  "// ".toList ++ List.replicate 76 '=' ++ ['\n']

/-- What is written for a section, piece by piece. -/
def writeSection (name : Str) (body : List Str) : List Str :=
  [sep, "// ".toList ++ name ++ ['\n'], sep, ['\n']] ++ body ++ [['\n', '\n']]

/-- What is written before the sections. -/
def writeHeader (basenames sorted_includes : List Str) : List Str :=
  ["/// @file skutils.h\n".toList,
    "/// @brief Single header-only library merging printer, logger, and all dependencies.\n".toList,
    "///        Just `#include \"skutils.h\"` — no other headers needed.\n".toList,
    "///\n".toList,
    "/// AUTO-GENERATED — do not edit manually. Modify source headers and rebuild.\n".toList,
    "/// Merged from: ".toList ++ (", ".toList).intercalate basenames ++ ['\n'],
    ['\n'],
    "#ifndef SK_HEADER_ONLY_SKUTILS_H\n".toList,
    "#define SK_HEADER_ONLY_SKUTILS_H\n".toList,
    ['\n'], sep, "// Standard library includes\n".toList, sep, ['\n']] ++
    (sorted_includes.map fun inc => "#include <".toList ++ inc ++ ">\n".toList) ++ [['\n']]

/-- What `main` writes, given the lines of the input files. -/
def merge (isalnum : Char → Bool) (input_files : List (Str × List Str)) : List Str :=
  let parsed := input_files.map fun file => (basename file.1, parse_header isalnum file.2)
  let all_std_includes := (parsed.flatMap fun file => file.2.1).eraseDups
  let sorted_includes := all_std_includes.mergeSort fun a b => decide (a ≤ b)
  writeHeader (parsed.map Prod.fst) sorted_includes ++
    (parsed.flatMap fun file => writeSection (section_name file.1) file.2.2) ++
    ["#endif  // SK_HEADER_ONLY_SKUTILS_H\n".toList]

end Main

end SkUtils.Scripts.MergeHeaders
