import SkUtils.Scripts.MergeHeaders

/-!
The file that `merge_skutils.py` writes, read as a header again: its standard includes are those
of all headers, once each and in order, and its code is the code of their bodies. The texts are
those after Python's newline translation, so that `'\n'` alone ends a line; nor does the path of
a header hold a `'\n'` or a `'\r'`.
-/

namespace SkUtils.Scripts.MergedHeader

open SkUtils.Scripts.MergeHeaders
open SkUtils.Strings.StringUtils (Str)

/-- `f.readlines()`: the lines of a text, with their ends. -/
def readlines : Str → List Str
  | [] => []
  | c :: text =>
      if c = '\n' then [c] :: readlines text
      else
        match readlines text with
        | [] => [[c]]
        | line :: lines => (c :: line) :: lines

/-- What the lines say that are neither blank nor a comment of their own. -/
def code (lines : List Str) : List Str :=
  (lines.map strip).filter fun stripped => !stripped.isEmpty && !startswith stripped "//".toList

/-- A line with its end. -/
def IsLine (line : Str) : Prop :=
  ∃ front, '\n' ∉ front ∧ line = front ++ ['\n']

section Lines

variable {line text : Str} {lines : List Str}

theorem readlines_line (h : '\n' ∉ line) (rest : Str) :
    readlines (line ++ '\n' :: rest) = (line ++ ['\n']) :: readlines rest := by
  induction line with
  | nil => simp [readlines]
  | cons c line ih =>
      obtain ⟨hc, hline⟩ := not_or.mp (List.mem_cons.not.mp h)
      rw [List.cons_append, readlines, if_neg (Ne.symm hc), ih hline]
      rfl

theorem readlines_flatten (h : ∀ line ∈ lines, IsLine line) : readlines lines.flatten = lines := by
  induction lines with
  | nil => rfl
  | cons line lines ih =>
      obtain ⟨⟨front, hfront, rfl⟩, hlines⟩ := List.forall_mem_cons.mp h
      rw [List.flatten_cons, List.append_assoc, List.singleton_append, readlines_line hfront,
        ih hlines]

/-- Only the last one of the lines may have no end. -/
def Delimited (lines : List Str) : Prop :=
  ∃ ended rest, (∀ line ∈ ended, IsLine line) ∧ lines = ended ++ rest ∧
    (rest = [] ∨ ∃ last, '\n' ∉ last ∧ rest = [last])

theorem delimited_readlines (text : Str) : Delimited (readlines text) := by
  induction text with
  | nil => exact ⟨[], [], by simp, rfl, .inl rfl⟩
  | cons c text ih =>
      obtain ⟨ended, rest, hended, hlines, hrest⟩ := ih
      by_cases hc : c = '\n'
      · subst hc
        refine ⟨['\n'] :: ended, rest, ?_, by simp [readlines, hlines], hrest⟩
        exact List.forall_mem_cons.mpr ⟨⟨[], by simp, rfl⟩, hended⟩
      · rw [readlines, if_neg hc, hlines]
        cases ended with
        | nil =>
            rcases hrest with rfl | ⟨last, hlast, rfl⟩
            · exact ⟨[], [[c]], by simp, rfl, .inr ⟨[c], by simpa using Ne.symm hc, rfl⟩⟩
            · exact ⟨[], [c :: last], by simp, rfl, .inr ⟨c :: last, by simp [hlast, Ne.symm hc],
                rfl⟩⟩
        | cons line ended =>
            obtain ⟨⟨front, hfront, rfl⟩, hmore⟩ := List.forall_mem_cons.mp hended
            refine ⟨(c :: (front ++ ['\n'])) :: ended, rest, ?_, rfl, hrest⟩
            refine List.forall_mem_cons.mpr ⟨⟨c :: front, ?_, rfl⟩, hmore⟩
            simp [hfront, Ne.symm hc]

theorem Delimited.sublist {part : List Str} (h : Delimited lines) (hpart : part.Sublist lines) :
    Delimited part := by
  obtain ⟨ended, rest, hended, rfl, hrest⟩ := h
  obtain ⟨ended', rest', rfl, hsub, hsub'⟩ := List.sublist_append_iff.mp hpart
  refine ⟨ended', rest', fun line hline => hended line (hsub.subset hline), rfl, ?_⟩
  rcases hrest with rfl | ⟨last, hlast, rfl⟩
  · exact .inl (List.sublist_nil.mp hsub')
  · rcases List.sublist_singleton.mp hsub' with rfl | rfl
    · exact .inl rfl
    · exact .inr ⟨last, hlast, rfl⟩

end Lines

section Strip

variable {line : Str} {lines more : List Str}

theorem strip_newline (line : Str) : strip (line ++ ['\n']) = strip line := by
  have hspace : isspace '\n' = true := by decide
  rw [strip, strip, List.dropWhile_append]
  split
  case isTrue hempty =>
    rw [List.isEmpty_iff.mp hempty, List.dropWhile_cons_of_pos hspace]
    rfl
  case isFalse => exact List.rdropWhile_concat_pos _ _ _ hspace

/-- What stands in front of a line stays in front of it. -/
theorem strip_append {front : Str} (hne : front ≠ [])
    (hfront : (front.all fun c => !isspace c) = true) (rest : Str) :
    ∃ kept, strip (front ++ rest) = front ++ kept := by
  have hletter : ∀ c ∈ front, ¬isspace c = true := by simpa using hfront
  obtain ⟨c, front, rfl⟩ := List.exists_cons_of_ne_nil hne
  have hc : ¬isspace c = true := hletter c List.mem_cons_self
  rw [strip, List.cons_append, List.dropWhile_cons_of_neg hc, ← List.cons_append]
  induction rest using List.reverseRecOn with
  | nil =>
      refine ⟨[], ?_⟩
      rw [List.append_nil]
      exact List.rdropWhile_eq_self_iff.mpr fun hl => hletter _ (List.getLast_mem hl)
  | append_singleton rest d ih =>
      rw [← List.append_assoc]
      cases hd : isspace d with
      | true =>
          rw [List.rdropWhile_concat_pos _ _ _ hd]
          exact ih
      | false =>
          rw [List.rdropWhile_concat_neg _ _ _ (by simp [hd]), List.append_assoc]
          exact ⟨_, rfl⟩

theorem code_append : code (lines ++ more) = code lines ++ code more := by
  rw [code, code, code, List.map_append, List.filter_append]

theorem code_nil_of_forall (h : ∀ line ∈ lines, code [line] = []) : code lines = [] := by
  induction lines with
  | nil => rfl
  | cons line lines ih =>
      obtain ⟨hline, hlines⟩ := List.forall_mem_cons.mp h
      rw [← List.singleton_append, code_append, hline, ih hlines, List.append_nil]

theorem code_blank (h : isBlank line = true) : code [line] = [] := by
  rw [isBlank] at h
  simp [code, h]

theorem code_trim (lines : List Str) : code (trim lines) = code lines := by
  have hsplit : lines = lines.takeWhile isBlank ++
      (trim lines ++ (lines.dropWhile isBlank).rtakeWhile isBlank) := by
    rw [trim, List.rdropWhile_append_rtakeWhile, List.takeWhile_append_dropWhile]
  have hfront : code (lines.takeWhile isBlank) = [] :=
    code_nil_of_forall fun line hline => code_blank (List.mem_takeWhile_imp hline)
  have hback : code ((lines.dropWhile isBlank).rtakeWhile isBlank) = [] :=
    code_nil_of_forall fun line hline => code_blank (List.mem_rtakeWhile_imp hline)
  conv_rhs => rw [hsplit]
  rw [code_append, code_append, hfront, hback, List.nil_append, List.append_nil]

theorem code_newline (line : Str) : code [line ++ ['\n']] = code [line] := by
  rw [code, code, List.map_singleton, List.map_singleton, strip_newline]

end Strip

section Guarded

variable {isalnum : Char → Bool} {front : List Str} {ifndef define guard : Str}

/-- A header whose guard is at its first line of code and at its last line. -/
theorem parse_header_guarded (mid : List Str) (endif : Str)
    (hfront : ∀ line ∈ front, isSkipped (strip line) = true)
    (hcode : isSkipped (strip ifndef) = false)
    (hifndef : matchIfndef isalnum (strip ifndef) = some guard)
    (hdefine : matchDefine isalnum guard (strip define) = true)
    (hend : isEnd guard (strip endif) = true) :
    parse_header isalnum (front ++ ifndef :: define :: (mid ++ [endif])) =
      (mid.filterMap fun line => matchStdInclude (strip line), trim (mid.filter isKept)) := by
  have hfind : (front ++ ifndef :: define :: (mid ++ [endif])).findIdx?
      (fun line => !isSkipped (strip line)) = some front.length := by
    have hnone : front.findIdx? (fun line => !isSkipped (strip line)) = none :=
      List.findIdx?_eq_none_iff.mpr fun line hline => by rw [hfront line hline]; rfl
    rw [List.findIdx?_append, hnone, List.findIdx?_cons, hcode]
    simp
  have hguard : findGuard isalnum (front ++ ifndef :: define :: (mid ++ [endif])) =
      (some guard, front.length + 2) := by
    have hline : (front ++ ifndef :: define :: (mid ++ [endif]))[front.length]? = some ifndef := by
      simp
    have hbehind : (front ++ ifndef :: define :: (mid ++ [endif])).drop (front.length + 1) =
        define :: (mid ++ [endif]) := by
      simp [List.drop_append]
    rw [findGuard, hfind]
    simp only [hline, Option.bind_some, hifndef, hbehind, List.take_succ_cons, List.findIdx?_cons,
      hdefine, if_true]
  have hlast : findEnd (front ++ ifndef :: define :: (mid ++ [endif])) (some guard) =
      front.length + 2 + mid.length := by
    have hlength : (front ++ ifndef :: define :: (mid ++ [endif])).length =
        front.length + 2 + mid.length + 1 := by
      simp
      omega
    have hline : (front ++ ifndef :: define :: (mid ++ [endif]))[front.length + 2 + mid.length]? =
        some endif := by
      rw [List.getElem?_append_right (by omega)]
      have hindex : front.length + 2 + mid.length - front.length = mid.length + 1 + 1 := by omega
      simp [hindex]
    rw [findEnd, hlength, List.range_succ, List.reverse_concat, List.find?_cons_of_pos]
    · rfl
    · simp only [hline, Option.any_some, hend, Bool.and_true, decide_eq_true_eq]
      omega
  have hbetween : ((front ++ ifndef :: define :: (mid ++ [endif])).take
      (front.length + 2 + mid.length)).drop (front.length + 2) = mid := by
    have hsplit : front ++ ifndef :: define :: (mid ++ [endif]) =
        (front ++ [ifndef, define] ++ mid) ++ [endif] := by
      simp
    rw [hsplit, List.take_left' (by simp; omega), List.drop_left' (by simp)]
  simp only [parse_header, hguard, hlast, hbetween]

end Guarded

section Pieces

variable {line inc name : Str} {lines body : List Str}

theorem strip_comment (rest : Str) : ∃ kept, strip ("//".toList ++ rest) = "//".toList ++ kept :=
  strip_append (List.cons_ne_nil '/' ['/']) rfl rest

theorem isSkipped_comment (rest : Str) : isSkipped (strip ("//".toList ++ rest)) = true := by
  obtain ⟨kept, hkept⟩ := strip_comment rest
  rw [hkept]
  rfl

/-- The lines that make up a part of the merged file, and the code in them. -/
structure Written (text : Str) (codes lines : List Str) : Prop where
  isLine : ∀ line ∈ lines, IsLine line
  flatten : lines.flatten = text
  kept : ∀ line ∈ lines, isKept line = true
  code_eq : code lines = codes

theorem Written.congr {text text' : Str} {codes codes' : List Str} (h : Written text codes lines)
    (htext : text = text') (hcodes : codes = codes') : Written text' codes' lines :=
  hcodes ▸ htext ▸ h

theorem written_nil : Written [] [] [] :=
  ⟨by simp, rfl, by simp, rfl⟩

theorem Written.append {text text' : Str} {codes codes' lines' : List Str}
    (h : Written text codes lines) (h' : Written text' codes' lines') :
    Written (text ++ text') (codes ++ codes') (lines ++ lines') where
  isLine := List.forall_mem_append.mpr ⟨h.isLine, h'.isLine⟩
  flatten := by rw [List.flatten_append, h.flatten, h'.flatten]
  kept := List.forall_mem_append.mpr ⟨h.kept, h'.kept⟩
  code_eq := by rw [code_append, h.code_eq, h'.code_eq]

/-- A comment is no include, and no code. -/
theorem written_comment {rest : Str} (h : '\n' ∉ rest) :
    Written ("//".toList ++ rest ++ ['\n']) [] ["//".toList ++ rest ++ ['\n']] := by
  obtain ⟨kept, hkept⟩ := strip_comment (rest ++ ['\n'])
  rw [← List.append_assoc] at hkept
  refine ⟨?_, by simp, ?_, ?_⟩
  · exact List.forall_mem_singleton.mpr ⟨"//".toList ++ rest, by simpa using h, rfl⟩
  · rw [List.forall_mem_singleton, isKept, hkept]
    rfl
  · rw [code, List.map_singleton, hkept]
    rfl

theorem isKept_newline (line : Str) : isKept (line ++ ['\n']) = isKept line := by
  rw [isKept, isKept, strip_newline]

theorem written_blank : Written ['\n'] [] [['\n']] where
  isLine := List.forall_mem_singleton.mpr ⟨[], by simp, rfl⟩
  flatten := rfl
  kept := by decide
  code_eq := rfl

theorem written_sep : Written sep [] [sep] := by
  have hsep : sep = "//".toList ++ (' ' :: List.replicate 76 '=') ++ ['\n'] := rfl
  rw [hsep]
  exact written_comment (by decide)

/-- The body of a section, with the blank lines behind it. -/
theorem exists_written_body (hbody : Delimited body) (hkept : ∀ line ∈ body, isKept line = true) :
    ∃ lines, Written (body.flatten ++ ['\n', '\n']) (code body) lines := by
  obtain ⟨ended, rest, hended, rfl, hrest⟩ := hbody
  have hfirst : Written ended.flatten (code ended) ended :=
    ⟨hended, rfl, fun line hline => hkept line (List.mem_append_left _ hline), rfl⟩
  rcases hrest with rfl | ⟨last, hlast, rfl⟩
  · exact ⟨_, (hfirst.append (written_blank.append written_blank)).congr (by simp) (by simp)⟩
  · have hlastLine : Written (last ++ ['\n']) (code [last]) [last ++ ['\n']] := by
      refine ⟨?_, by simp, ?_, code_newline last⟩
      · exact List.forall_mem_singleton.mpr ⟨last, hlast, rfl⟩
      · rw [List.forall_mem_singleton, isKept_newline]
        exact hkept last (by simp)
    exact ⟨_, (hfirst.append (hlastLine.append written_blank)).congr (by simp)
      (by simp [code_append])⟩

theorem exists_written_section (hname : '\n' ∉ name) (hbody : Delimited body)
    (hkept : ∀ line ∈ body, isKept line = true) :
    ∃ lines, Written (writeSection name body).flatten (code body) lines := by
  obtain ⟨lines, hwritten⟩ := exists_written_body hbody hkept
  have htitle : Written ('/' :: '/' :: ' ' :: name ++ ['\n']) [] _ :=
    written_comment (by simpa using hname : '\n' ∉ ' ' :: name)
  exact ⟨_, (written_sep.append (htitle.append (written_sep.append
    (written_blank.append hwritten)))).congr (by simp [writeSection]) (by simp)⟩

end Pieces

section Includes

variable {line inc stripped : Str} {lines : List Str}

/-- What `#include\s+<(.+?)>` can have found. -/
structure IsInclude (inc : Str) : Prop where
  cons : ∃ c rest, inc = c :: rest ∧ '>' ∉ rest
  newline : '\n' ∉ inc

theorem strip_subset (line : Str) : strip line ⊆ line := fun _ hc =>
  (List.dropWhile_sublist isspace).subset ((List.rdropWhile_prefix isspace _).subset hc)

theorem IsLine.newline_notMem (h : IsLine line) : '\n' ∉ strip line := by
  obtain ⟨front, hfront, rfl⟩ := h
  rw [strip_newline]
  exact fun hc => hfront (strip_subset front hc)

theorem Delimited.newline_notMem (h : Delimited lines) (hline : line ∈ lines) :
    '\n' ∉ strip line := by
  obtain ⟨ended, rest, hended, rfl, hrest⟩ := h
  rcases List.mem_append.mp hline with hmem | hmem
  · exact (hended line hmem).newline_notMem
  · rcases hrest with rfl | ⟨last, hlast, rfl⟩
    · cases hmem
    · obtain rfl := List.mem_singleton.mp hmem
      exact fun hc => hlast (strip_subset line hc)

theorem isInclude_of_match (h : matchStdInclude stripped = some inc) (hline : '\n' ∉ stripped) :
    IsInclude inc := by
  rw [matchStdInclude] at h
  split at h
  case h_2 => cases h
  case h_1 c rest hmatch =>
    split at h
    case isFalse => cases h
    case isTrue hclose =>
      obtain rfl := Option.some.inj h
      have hsub : '<' :: c :: rest ⊆ stripped := by
        rw [matchDirective] at hmatch
        split at hmatch
        case isFalse => cases hmatch
        case isTrue =>
          obtain ⟨-, hrest⟩ := Option.ite_none_right_eq_some.mp hmatch
          rw [← Option.some.inj hrest]
          exact fun x hx => List.mem_of_mem_drop ((List.dropWhile_sublist isspace).subset hx)
      refine ⟨⟨c, _, rfl, fun hmem => ?_⟩, fun hmem => hline (hsub ?_)⟩
      · simpa using List.mem_takeWhile_imp hmem
      · rcases List.mem_cons.mp hmem with rfl | hmem
        · exact List.mem_cons_of_mem _ List.mem_cons_self
        · exact List.mem_cons_of_mem _ (List.mem_cons_of_mem _
            ((List.takeWhile_sublist _).subset hmem))

def includeLine (inc : Str) : Str :=
  "#include <".toList ++ inc ++ ">\n".toList

theorem includeLine_eq (inc : Str) :
    includeLine inc = ("#include <".toList ++ inc ++ ['>']) ++ ['\n'] := by
  have hback : ">\n".toList = ['>'] ++ ['\n'] := by decide
  exact (congrArg ("#include <".toList ++ inc ++ ·) hback).trans (List.append_assoc _ _ _).symm

theorem strip_includeLine (inc : Str) :
    strip (includeLine inc) = "#include <".toList ++ inc ++ ['>'] := by
  have hback : ¬isspace '>' = true := by decide
  rw [includeLine_eq, strip_newline]
  exact List.rdropWhile_concat_neg isspace ("#include <".toList ++ inc) '>' hback

theorem match_includeLine (h : IsInclude inc) :
    matchStdInclude (strip (includeLine inc)) = some inc := by
  obtain ⟨⟨c, rest, rfl, hrest⟩, -⟩ := h
  have hmatch : matchDirective "#include".toList ("#include <".toList ++ c :: rest ++ ['>']) =
      some ('<' :: c :: (rest ++ ['>'])) := rfl
  have htake : (rest ++ ['>']).takeWhile (· != '>') = rest := by
    have hall : ∀ x ∈ rest, (x != '>') = true :=
      fun x hx => bne_iff_ne.mpr fun heq => hrest (heq ▸ hx)
    rw [List.takeWhile_append_of_pos hall]
    simp
  rw [strip_includeLine, matchStdInclude, hmatch]
  simp [htake]

theorem isLine_includeLine (h : '\n' ∉ inc) : IsLine (includeLine inc) := by
  refine ⟨"#include <".toList ++ inc ++ ['>'], ?_, includeLine_eq inc⟩
  have hfront : '\n' ∉ "#include <".toList := by decide
  rw [List.mem_append, List.mem_append, not_or, not_or]
  exact ⟨⟨hfront, h⟩, by decide⟩

theorem isKept_includeLine (h : IsInclude inc) : isKept (includeLine inc) = false := by
  rw [isKept, match_includeLine h]
  rfl

theorem matchInclude_includeLine (inc : Str) :
    matchInclude (strip (includeLine inc)) = false := by
  have hmatch : matchDirective "#include".toList ("#include <".toList ++ inc ++ ['>']) =
      some ('<' :: (inc ++ ['>'])) := rfl
  rw [strip_includeLine, matchInclude, hmatch]
  rfl

theorem matchInclude_of_isKept (h : isKept line = true) : matchInclude (strip line) = false := by
  rw [isKept, Bool.and_eq_true, Bool.not_eq_true'] at h
  exact h.2

theorem match_of_isKept (h : isKept line = true) : matchStdInclude (strip line) = none := by
  rw [isKept, Bool.and_eq_true] at h
  exact Option.isNone_iff_eq_none.mp h.1

theorem filterMap_of_isKept (h : ∀ line ∈ lines, isKept line = true) :
    (lines.filterMap fun line => matchStdInclude (strip line)) = [] :=
  List.filterMap_eq_nil_iff.mpr fun line hline => match_of_isKept (h line hline)

end Includes

section Parsed

theorem isInclude_of_parse {isalnum : Char → Bool} {text inc : Str}
    (h : inc ∈ (parse_header isalnum (readlines text)).1) : IsInclude inc := by
  obtain ⟨line, hline, hmatch⟩ := List.mem_filterMap.mp h
  refine isInclude_of_match hmatch ((delimited_readlines text).newline_notMem ?_)
  exact List.mem_of_mem_take (List.mem_of_mem_drop hline)

variable (isalnum : Char → Bool) (text : Str)

theorem delimited_body : Delimited (parse_header isalnum (readlines text)).2 := by
  refine (delimited_readlines text).sublist ?_
  exact (List.rdropWhile_prefix _ _).sublist.trans ((List.dropWhile_sublist _).trans
    (List.filter_sublist.trans ((List.drop_sublist _ _).trans (List.take_sublist _ _))))

theorem isKept_body :
    ∀ line ∈ (parse_header isalnum (readlines text)).2, isKept line = true := fun _ hline =>
  (List.mem_filter.mp ((List.dropWhile_sublist _).subset
    ((List.rdropWhile_prefix _ _).subset hline))).2

end Parsed

section Merged

/-- The text of the merged file, given the texts of the input files. -/
def mergedText (isalnum : Char → Bool) (input_files : List (Str × Str)) : Str :=
  (merge isalnum (input_files.map fun file => (file.1, readlines file.2))).flatten

/-- The lines of the merged file before its guard. -/
def preface (basenames : List Str) : List Str :=
  ["/// @file skutils.h\n".toList,
    "/// @brief Single header-only library merging printer, logger, and all dependencies.\n".toList,
    "///        Just `#include \"skutils.h\"` — no other headers needed.\n".toList,
    "///\n".toList,
    "/// AUTO-GENERATED — do not edit manually. Modify source headers and rebuild.\n".toList,
    "/// Merged from: ".toList ++ (", ".toList).intercalate basenames ++ ['\n'],
    ['\n']]

/-- The lines of the merged file before the standard includes. -/
def banner : List Str :=
  [['\n'], sep, "// Standard library includes\n".toList, sep, ['\n']]

theorem writeHeader_eq (basenames sorted_includes : List Str) :
    writeHeader basenames sorted_includes = preface basenames ++
      "#ifndef SK_HEADER_ONLY_SKUTILS_H\n".toList :: "#define SK_HEADER_ONLY_SKUTILS_H\n".toList ::
        (banner ++ (sorted_includes.map includeLine ++ [['\n']])) :=
  rfl

theorem written_banner : Written banner.flatten [] banner := by
  have htitle : Written "// Standard library includes\n".toList []
      ["// Standard library includes\n".toList] :=
    written_comment (by decide : '\n' ∉ " Standard library includes".toList)
  exact (written_blank.append (written_sep.append (htitle.append
    (written_sep.append written_blank)))).congr (by simp [banner]) rfl

theorem notMem_intercalate {c : Char} {words : List Str} {mark : Str} (hmark : c ∉ mark)
    (hwords : ∀ word ∈ words, c ∉ word) : c ∉ mark.intercalate words := by
  induction words with
  | nil => simp [List.intercalate]
  | cons word words ih =>
      obtain ⟨hword, hrest⟩ := List.forall_mem_cons.mp hwords
      cases words with
      | nil => simpa [List.intercalate] using hword
      | cons next words =>
          have hmore := ih hrest
          simp only [List.intercalate, List.intersperse_cons_cons, List.flatten_cons] at hmore ⊢
          simp only [List.mem_append, not_or]
          exact ⟨hword, hmark, hmore⟩

theorem preface_lines {basenames : List Str} (h : ∀ basename ∈ basenames, '\n' ∉ basename) :
    ∀ line ∈ preface basenames,
      IsLine line ∧ isKept line = true ∧ isSkipped (strip line) = true := by
  have hcomment : ∀ line rest, line = "//".toList ++ rest ++ ['\n'] → '\n' ∉ rest →
      IsLine line ∧ isKept line = true ∧ isSkipped (strip line) = true := by
    rintro line rest rfl hrest
    have hwritten := written_comment hrest
    refine ⟨List.forall_mem_singleton.mp hwritten.isLine,
      hwritten.kept _ (List.mem_singleton_self _), ?_⟩
    rw [List.append_assoc]
    exact isSkipped_comment _
  have hnames : '\n' ∉ "/ Merged from: ".toList ++ (", ".toList).intercalate basenames := by
    rw [List.mem_append, not_or]
    exact ⟨by decide, notMem_intercalate (by decide) h⟩
  simp only [preface, List.forall_mem_cons]
  exact ⟨hcomment _ "/ @file skutils.h".toList (by decide +kernel) (by decide +kernel),
    hcomment _ ("/ @brief Single header-only library merging printer, logger, and all " ++
      "dependencies.").toList (by decide +kernel) (by decide +kernel),
    hcomment _ "/        Just `#include \"skutils.h\"` — no other headers needed.".toList
      (by decide +kernel) (by decide +kernel),
    hcomment _ "/".toList (by decide +kernel) (by decide +kernel),
    hcomment _ ("/ AUTO-GENERATED — do not edit manually. Modify source headers and " ++
      "rebuild.").toList (by decide +kernel) (by decide +kernel),
    hcomment _ _ rfl hnames, ⟨⟨[], by simp, rfl⟩, by decide, by decide⟩, List.forall_mem_nil _⟩

variable {isalnum : Char → Bool}

theorem matchIfndef_merged (hupper : ∀ c, 'A' ≤ c → c ≤ 'Z' → isalnum c = true) :
    matchIfndef isalnum (strip "#ifndef SK_HEADER_ONLY_SKUTILS_H\n".toList) =
      some "SK_HEADER_ONLY_SKUTILS_H".toList := by
  have hmatch : matchDirective "#ifndef".toList
      (strip "#ifndef SK_HEADER_ONLY_SKUTILS_H\n".toList) =
        some "SK_HEADER_ONLY_SKUTILS_H".toList := by
    decide +kernel
  have hchars : ("SK_HEADER_ONLY_SKUTILS_H".toList.all
      fun c => decide (c = '_' ∨ 'A' ≤ c ∧ c ≤ 'Z')) = true := by
    decide +kernel
  have hword : ∀ c ∈ "SK_HEADER_ONLY_SKUTILS_H".toList, isWord isalnum c = true := by
    intro c hc
    rcases of_decide_eq_true (List.all_eq_true.mp hchars c hc) with rfl | ⟨hfirst, hlast⟩
    · exact Bool.or_true _
    · rw [isWord, hupper c hfirst hlast, Bool.true_or]
  rw [matchIfndef, hmatch]
  simp only [List.takeWhile_eq_self_iff.mpr hword]
  rfl

theorem matchDefine_merged : matchDefine isalnum "SK_HEADER_ONLY_SKUTILS_H".toList
    (strip "#define SK_HEADER_ONLY_SKUTILS_H\n".toList) = true := by
  have hmatch : matchDirective "#define".toList
      (strip "#define SK_HEADER_ONLY_SKUTILS_H\n".toList) =
        some "SK_HEADER_ONLY_SKUTILS_H".toList := by
    decide +kernel
  have hstarts : startswith "SK_HEADER_ONLY_SKUTILS_H".toList "SK_HEADER_ONLY_SKUTILS_H".toList =
      true := by
    decide +kernel
  rw [matchDefine, hmatch]
  simp only [hstarts, List.drop_length, List.head?_nil, Option.any_none]
  rfl

theorem notMem_section_name {basename : Str} (h : '\n' ∉ basename) :
    '\n' ∉ section_name basename := by
  have hnames : ∀ entry ∈ SECTION_NAMES, '\n' ∉ entry.2 := by decide +kernel
  rw [section_name]
  cases hlookup : SECTION_NAMES.lookup basename with
  | none => exact h
  | some name =>
      obtain ⟨before, after, hsplit, -⟩ := List.lookup_eq_some_iff.mp hlookup
      exact hnames (basename, name) (by rw [hsplit]; simp)

theorem exists_written_sections (isalnum : Char → Bool) {input_files : List (Str × Str)}
    (hnames : ∀ file ∈ input_files, '\n' ∉ file.1) :
    ∃ lines, Written (input_files.flatMap fun file => (writeSection (section_name (basename file.1))
        (parse_header isalnum (readlines file.2)).2).flatten)
      (input_files.flatMap fun file => code (parse_header isalnum (readlines file.2)).2) lines := by
  induction input_files with
  | nil => exact ⟨[], written_nil⟩
  | cons file input_files ih =>
      obtain ⟨hname, hrest⟩ := List.forall_mem_cons.mp hnames
      obtain ⟨lines, hlines⟩ := ih hrest
      have hbasename : '\n' ∉ basename file.1 :=
        fun hmem => hname ((List.rtakeWhile_suffix _ _).subset hmem)
      obtain ⟨lines', hlines'⟩ := exists_written_section (notMem_section_name hbasename)
        (delimited_body isalnum file.2) (isKept_body isalnum file.2)
      exact ⟨_, hlines'.append hlines⟩

theorem nodup_eraseDups (words : List Str) : words.eraseDups.Nodup := by
  induction hlength : words.length using Nat.strong_induction_on generalizing words with
  | _ n ih =>
      cases words with
      | nil => exact List.nodup_nil
      | cons word words =>
          rw [List.eraseDups_cons, List.nodup_cons, List.mem_eraseDups]
          refine ⟨by simp, ih _ ?_ _ rfl⟩
          rw [← hlength]
          exact Nat.lt_succ_of_le (List.length_filter_le _ _)

/-- The standard includes of all input files, once each and in order. -/
def sortedIncludes (isalnum : Char → Bool) (input_files : List (Str × Str)) : List Str :=
  (input_files.flatMap fun file =>
    (parse_header isalnum (readlines file.2)).1).eraseDups.mergeSort fun a b => decide (a ≤ b)

theorem mem_sortedIncludes {input_files : List (Str × Str)} {inc : Str} :
    inc ∈ sortedIncludes isalnum input_files ↔
      ∃ file ∈ input_files, inc ∈ (parse_header isalnum (readlines file.2)).1 := by
  rw [sortedIncludes, List.mem_mergeSort, List.mem_eraseDups, List.mem_flatMap]

theorem sortedIncludes_increasing (input_files : List (Str × Str)) :
    (sortedIncludes isalnum input_files).Pairwise (· < ·) := by
  have hle : (sortedIncludes isalnum input_files).Pairwise fun a b => decide (a ≤ b) = true :=
    List.pairwise_mergeSort (fun a b c hab hbc => decide_eq_true
        ((of_decide_eq_true hab).trans (of_decide_eq_true hbc)))
      (fun a b => by simpa using le_total a b) _
  have hne : (sortedIncludes isalnum input_files).Nodup :=
    (List.mergeSort_perm _ _).nodup_iff.mpr (nodup_eraseDups _)
  exact (hle.and hne).imp fun h => lt_of_le_of_ne (of_decide_eq_true h.1) h.2

/-- The lines of the merged file: the preface, the guard, the includes and the sections. -/
theorem exists_merged_lines (isalnum : Char → Bool) {input_files : List (Str × Str)}
    (hnames : ∀ file ∈ input_files, '\n' ∉ file.1) :
    ∃ basenames sections text,
      readlines (mergedText isalnum input_files) = preface basenames ++
        "#ifndef SK_HEADER_ONLY_SKUTILS_H\n".toList ::
        "#define SK_HEADER_ONLY_SKUTILS_H\n".toList ::
          ((banner ++ ((sortedIncludes isalnum input_files).map includeLine ++
            (['\n'] :: sections))) ++ ["#endif  // SK_HEADER_ONLY_SKUTILS_H\n".toList]) ∧
      (∀ basename ∈ basenames, '\n' ∉ basename) ∧
      Written text
        (input_files.flatMap fun file => code (parse_header isalnum (readlines file.2)).2)
        sections := by
  obtain ⟨sections, hsections⟩ := exists_written_sections isalnum hnames
  have hbasenames : ∀ name ∈ input_files.map fun file => basename file.1, '\n' ∉ name := by
    intro name hname
    obtain ⟨file, hfile, rfl⟩ := List.mem_map.mp hname
    exact fun hmem => hnames file hfile ((List.rtakeWhile_suffix _ _).subset hmem)
  refine ⟨input_files.map fun file => basename file.1, sections, _, ?_, hbasenames, hsections⟩
  have hmerge : merge isalnum (input_files.map fun file => (file.1, readlines file.2)) =
      writeHeader (input_files.map fun file => basename file.1)
        (sortedIncludes isalnum input_files) ++
      (input_files.flatMap fun file => writeSection (section_name (basename file.1))
        (parse_header isalnum (readlines file.2)).2) ++
      ["#endif  // SK_HEADER_ONLY_SKUTILS_H\n".toList] := by
    simp only [merge, List.map_map, List.flatMap_map]
    rfl
  have hflatten : (input_files.flatMap fun file => writeSection (section_name (basename file.1))
      (parse_header isalnum (readlines file.2)).2).flatten = sections.flatten := by
    rw [hsections.flatten, List.flatMap_def, List.flatten_flatten, List.map_map, List.flatMap_def]
    rfl
  rw [mergedText, hmerge, writeHeader_eq, List.flatten_append, List.flatten_append, hflatten,
    ← List.flatten_append, ← List.flatten_append]
  simp only [List.append_assoc, List.cons_append, List.nil_append]
  have hguard : IsLine "#ifndef SK_HEADER_ONLY_SKUTILS_H\n".toList ∧
      IsLine "#define SK_HEADER_ONLY_SKUTILS_H\n".toList ∧
      IsLine "#endif  // SK_HEADER_ONLY_SKUTILS_H\n".toList :=
    ⟨⟨"#ifndef SK_HEADER_ONLY_SKUTILS_H".toList, by decide +kernel, by decide +kernel⟩,
      ⟨"#define SK_HEADER_ONLY_SKUTILS_H".toList, by decide +kernel, by decide +kernel⟩,
      ⟨"#endif  // SK_HEADER_ONLY_SKUTILS_H".toList, by decide +kernel, by decide +kernel⟩⟩
  have hincludes : ∀ line ∈ (sortedIncludes isalnum input_files).map includeLine, IsLine line := by
    intro line hline
    obtain ⟨inc, hinc, rfl⟩ := List.mem_map.mp hline
    obtain ⟨file, -, hmem⟩ := mem_sortedIncludes.mp hinc
    exact isLine_includeLine (isInclude_of_parse hmem).newline
  refine readlines_flatten ?_
  simp only [List.forall_mem_append, List.forall_mem_cons]
  exact ⟨fun line hline => (preface_lines hbasenames line hline).1, hguard.1, hguard.2.1,
    written_banner.isLine, hincludes, ⟨[], by simp, rfl⟩, hsections.isLine, hguard.2.2,
    List.forall_mem_nil _⟩

/-- A header with an include of each kind, whose last line has no end. -/
def oneHeader : List (Str × Str) :=
  [("lib/a.h".toList, ("#ifndef A_H\n#define A_H\n#include \"b.h\"\n#include <map>\n" ++
    "int f();\n#endif // A_H").toList)]

end Merged

end SkUtils.Scripts.MergedHeader
