import Mathlib.Algebra.Group.Nat.Defs
import SkUtils.Strings.Formatter

/-!
`parseSymbolEntryOfBacktrace` of `stack_printer.h`: a line of `backtrace_symbols` is cut at
the first `(`, the first `+`, the first `)` and the last brackets, wherever these are.
-/

namespace SkUtils.Strings.StackPrinter

open SkUtils.Strings.StringUtils SkUtils.Strings.Formatter

def ansiReset : Str :=
  ['\x1b', '[', '0', 'm']

def ansiBlue : Str :=
  ['\x1b', '[', '1', ';', '3', '4', 'm']

def ansiGrey : Str :=
  ['\x1b', '[', '1', ';', '3', '7', 'm']

def stackEntryOfThisFile : Str :=
  "STACK_ENTRY_OF_THIS_FILE".toList

def emptyStackEntry : Str :=
  "EMPTY_STACK_ENTRY".toList

def invalidSymbolEntry : Str :=
  "INVALID_SYMBOL_ENTRY".toList

/-- `std::string::find` of a character. -/
def findChar (c : Char) (str : Str) : Option Nat :=
  str.findIdx? (· == c)

def rfindChar (c : Char) (str : Str) : Option Nat :=
  (findChar c str.reverse).map (str.length - 1 - ·)

def substr (str : Str) (pos count : Nat) : Str :=
  (str.drop pos).take count

/-- `right - left - 1` on positions, which are of type `size_t`. -/
def distance (left right : Nat) : Nat :=
  (right + (2 ^ 64 - (left + 1))) % 2 ^ 64

def fileBaseName (filename : Str) : Str :=
  match rfindChar '/' filename with
  | none => filename
  | some pos => filename.drop (pos + 1)

/-- `cxa_demangle` is `abi::__cxa_demangle`, with `none` for a status other than 0. -/
def demangle (cxa_demangle : Str → Option Str) (symbol_name : Str) : Str :=
  (cxa_demangle symbol_name).getD symbol_name

def dbg : Str :=
  "dbg::".toList

/-- What is written of an entry. -/
def shown (isColorful : Bool) (executable_name demangled_name offset address : Str) : Str :=
  if isColorful then
    ansiGrey ++ "[".toList ++ executable_name ++ "] ".toList ++ ansiBlue ++ demangled_name ++
      ansiReset ++ " : ".toList ++ offset ++ " [".toList ++ address ++ "]".toList
  else
    "[".toList ++ executable_name ++ "] ".toList ++ demangled_name ++ " : ".toList ++ offset ++
      " [".toList ++ address ++ "]".toList

def parseSymbolEntryOfBacktrace (cxa_demangle : Str → Option Str) (entry : Option Str)
    (isColorful : Bool) : Str :=
  match entry with
  | none => emptyStackEntry
  | some symbol =>
      match findChar '(' symbol, findChar '+' symbol, findChar ')' symbol with
      | some pos1, some pos2, some pos3 =>
          let executable_name := fileBaseName (substr symbol 0 pos1)
          let symbol_name := substr symbol (pos1 + 1) (distance pos1 pos2)
          let demangled_name := demangle cxa_demangle symbol_name
          if (find dbg demangled_name).isSome then stackEntryOfThisFile
          else
            let offset := substr symbol (pos2 + 1) (distance pos2 pos3)
            let address :=
              match rfindChar '[' symbol, rfindChar ']' symbol with
              | some pos4, some pos5 => substr symbol (pos4 + 1) (distance pos4 pos5)
              | _, _ => []
            shown isColorful executable_name demangled_name offset address
      | _, _, _ => invalidSymbolEntry

/-- `path(symbol+offset) [address]`. -/
def line (path symbol offset address : Str) : Str :=
  path ++ "(".toList ++ symbol ++ "+".toList ++ offset ++ ") [".toList ++ address ++ "]".toList

def IsHexDigit (c : Char) : Prop :=
  c ∈ "0123456789abcdefABCDEFx".toList

instance : DecidablePred IsHexDigit := fun c =>
  inferInstanceAs (Decidable (c ∈ "0123456789abcdefABCDEFx".toList))

/-- The fields of a line of `backtrace_symbols`. -/
structure Frame where
  path : Str
  symbol : Str
  offset : Str
  address : Str
  symbolChars : ∀ c ∈ symbol, c ∉ "()[]+".toList
  offsetChars : ∀ c ∈ offset, IsHexDigit c
  addressChars : ∀ c ∈ address, IsHexDigit c
  /-- The length is of type `size_t`. -/
  fits : (line path symbol offset address).length < 2 ^ 64

def Frame.text (frame : Frame) : Str :=
  line frame.path frame.symbol frame.offset frame.address

section Search

variable {c : Char} {before after str : Str}

theorem findChar_eq (h : c ∉ before) (after : Str) :
    findChar c (before ++ c :: after) = some before.length := by
  unfold findChar
  rw [List.findIdx?_append, List.findIdx?_eq_none_iff.mpr fun d hd => by
    simpa using ne_of_mem_of_not_mem hd h]
  simp [List.findIdx?_cons]

theorem exists_findChar {c : Char} {str : Str} (h : c ∈ str) :
    ∃ before after, str = before ++ c :: after ∧ c ∉ before ∧
      findChar c str = some before.length := by
  obtain ⟨before, after, rfl, hbefore⟩ := List.eq_append_cons_of_mem h
  exact ⟨before, after, rfl, hbefore, findChar_eq hbefore after⟩

theorem rfindChar_eq (before : Str) (h : c ∉ after) :
    rfindChar c (before ++ c :: after) = some before.length := by
  have hreverse : (before ++ c :: after).reverse = after.reverse ++ c :: before.reverse := by simp
  unfold rfindChar
  rw [hreverse, findChar_eq (by simpa using h), Option.map_some, Option.some_inj]
  simp

theorem distance_of_lt {left right : Nat} (h : left < right) (hright : right < 2 ^ 64) :
    distance left right = right - left - 1 := by
  unfold distance
  omega

/-- The difference wraps around to a length that reaches to the end of any string. -/
theorem distance_of_le {left right : Nat} (h : right ≤ left) (hleft : left < 2 ^ 64) :
    distance left right = 2 ^ 64 + right - left - 1 := by
  unfold distance
  omega

theorem substr_between (before mid after : Str) :
    substr (before ++ mid ++ after) before.length mid.length = mid := by
  unfold substr
  simp

/-- The brackets at the end are the last ones. -/
theorem address_eq {front address : Str} (haddress : ∀ c ∈ address, IsHexDigit c)
    (hlength : (front ++ '[' :: (address ++ [']'])).length < 2 ^ 64) :
    rfindChar '[' (front ++ '[' :: (address ++ [']'])) = some front.length ∧
      rfindChar ']' (front ++ '[' :: (address ++ [']'])) =
        some (front.length + 1 + address.length) ∧
      substr (front ++ '[' :: (address ++ [']'])) (front.length + 1)
        (distance front.length (front.length + 1 + address.length)) = address := by
  have hopen : '[' ∉ address ++ [']'] := by
    rw [List.mem_append, not_or]
    exact ⟨fun h => absurd (haddress _ h) (by decide), by decide⟩
  refine ⟨rfindChar_eq front hopen, ?_, ?_⟩
  · have hlast := @rfindChar_eq ']' [] (front ++ '[' :: address) List.not_mem_nil
    rw [List.append_assoc, List.cons_append] at hlast
    rw [hlast]
    simp
    omega
  · simp only [List.length_append, List.length_cons, List.length_nil] at hlength
    rw [distance_of_lt (by omega) (by omega)]
    have hcount : front.length + 1 + address.length - front.length - 1 = address.length := by omega
    have := substr_between (front ++ ['[']) address [']']
    rw [List.length_append, List.length_singleton] at this
    rw [hcount]
    simpa using this

theorem find_eq_none_iff {pattern : Str} (hne : pattern ≠ []) :
    find pattern str = none ↔ ¬ pattern <:+: str := by
  induction str with
  | nil => simp [find, hne]
  | cons d str ih =>
      rw [find, List.infix_cons_iff, not_or]
      by_cases hstart : pattern <+: d :: str
      · simp [hstart]
      · simp [hstart, ih]

end Search

section Group

variable {pre symbol offset : Str}

/-- No character at which a line is cut. -/
def Clean (str : Str) : Prop :=
  ∀ c ∈ str, c ∉ "(+)".toList

/-- `(symbol+offset)`. -/
def group (symbol offset : Str) : Str :=
  '(' :: (symbol ++ '+' :: (offset ++ [')']))

theorem clean_of_symbol (h : ∀ c ∈ symbol, c ∉ "()[]+".toList) : Clean symbol := by
  intro c hc hcut
  have hnot := h c hc
  simp at hcut hnot
  tauto

theorem clean_of_hex (h : ∀ c ∈ offset, IsHexDigit c) : Clean offset := by
  intro c hc hcut
  have hhex := h c hc
  simp [IsHexDigit] at hcut hhex
  rcases hcut with rfl | rfl | rfl <;> simp at hhex

theorem Clean.not_mem {str : Str} (h : Clean str) :
    '(' ∉ str ∧ '+' ∉ str ∧ ')' ∉ str :=
  ⟨fun hc => h _ hc (by decide), fun hc => h _ hc (by decide), fun hc => h _ hc (by decide)⟩

/-- Where a line is cut whose first group has nothing to cut at in front of it. -/
theorem cuts_of_group (hpre : Clean pre) (hsymbol : Clean symbol) (hoffset : Clean offset)
    (rest : Str) :
    findChar '(' (pre ++ group symbol offset ++ rest) = some pre.length ∧
      findChar '+' (pre ++ group symbol offset ++ rest) =
        some (pre.length + 1 + symbol.length) ∧
      findChar ')' (pre ++ group symbol offset ++ rest) =
        some (pre.length + 1 + symbol.length + 1 + offset.length) := by
  have hplus : '+' ∉ pre ++ '(' :: symbol := by
    simp [hpre.not_mem.2.1, hsymbol.not_mem.2.1]
  have hclose : ')' ∉ pre ++ '(' :: (symbol ++ '+' :: offset) := by
    simp [hpre.not_mem.2.2, hsymbol.not_mem.2.2, hoffset.not_mem.2.2]
  refine ⟨?_, ?_, ?_⟩
  · have h := findChar_eq hpre.not_mem.1 (symbol ++ '+' :: (offset ++ ')' :: rest))
    simpa [group] using h
  · have h := findChar_eq hplus (offset ++ ')' :: rest)
    simpa [group, Nat.add_assoc, Nat.add_comm 1] using h
  · have h := findChar_eq hclose rest
    have hlength : (pre ++ '(' :: (symbol ++ '+' :: offset)).length =
        pre.length + 1 + symbol.length + 1 + offset.length := by
      simp only [List.length_append, List.length_cons]
      omega
    rw [hlength] at h
    simpa [group] using h

theorem substr_of_group (pre symbol offset rest : Str) :
    substr (pre ++ group symbol offset ++ rest) 0 pre.length = pre ∧
      substr (pre ++ group symbol offset ++ rest) (pre.length + 1) symbol.length = symbol ∧
      substr (pre ++ group symbol offset ++ rest) (pre.length + 1 + symbol.length + 1)
        offset.length = offset := by
  refine ⟨?_, ?_, ?_⟩
  · have h := substr_between [] pre (group symbol offset ++ rest)
    simpa using h
  · have h := substr_between (pre ++ ['(']) symbol ('+' :: (offset ++ ')' :: rest))
    simpa [group] using h
  · have h := substr_between (pre ++ '(' :: (symbol ++ ['+'])) offset (')' :: rest)
    simpa [group, Nat.add_assoc, Nat.add_comm 1, Nat.add_left_comm 1] using h

/-- A clean text in front of a group ends before the group or has the group behind it. -/
theorem split_of_group (hpre : Clean pre) (hsymbol : Clean symbol) (hoffset : Clean offset)
    {path rest tail : Str}
    (h : pre ++ group symbol offset ++ rest = path ++ group symbol offset ++ tail) :
    path = pre ∨ ∃ post, path = pre ++ group symbol offset ++ post := by
  have honce : '(' ∉ symbol ++ '+' :: (offset ++ [')']) := by
    simp [hsymbol.not_mem.1, hoffset.not_mem.1]
  rw [List.append_assoc, List.append_assoc, List.append_eq_append_iff] at h
  rcases h with ⟨more, rfl, hmore⟩ | ⟨more, rfl, hmore⟩
  · rcases List.append_eq_append_iff.mp hmore with ⟨post, rfl, -⟩ | ⟨left, hgroup, hleft⟩
    · exact .inr ⟨post, by rw [List.append_assoc]⟩
    · cases more with
      | nil => exact .inl (List.append_nil pre)
      | cons c more =>
          obtain ⟨-, hrest⟩ := List.cons.inj hgroup
          cases left with
          | nil =>
              rw [List.append_nil] at hgroup
              exact .inr ⟨[], by rw [List.append_nil, ← hgroup]⟩
          | cons d left =>
              obtain ⟨rfl, -⟩ := List.cons.inj hleft
              rw [hrest] at honce
              exact absurd (List.mem_append_right more List.mem_cons_self) honce
  · cases more with
    | nil => exact .inl (List.append_nil path).symm
    | cons c more =>
        obtain ⟨rfl, -⟩ := List.cons.inj hmore
        exact absurd (List.mem_append_right path List.mem_cons_self) hpre.not_mem.1

end Group

section Decoding

variable {frame : Frame} {cxa_demangle : Str → Option Str} {isColorful : Bool}

theorem Frame.text_eq (frame : Frame) :
    frame.text = frame.path ++ group frame.symbol frame.offset ++
      ' ' :: '[' :: (frame.address ++ [']']) := by
  simp [Frame.text, line, group]

theorem Frame.parse_eq (frame : Frame) {pos1 pos2 pos3 : Nat}
    (h1 : findChar '(' frame.text = some pos1) (h2 : findChar '+' frame.text = some pos2)
    (h3 : findChar ')' frame.text = some pos3) :
    parseSymbolEntryOfBacktrace cxa_demangle (some frame.text) isColorful =
      let demangled_name :=
        demangle cxa_demangle (substr frame.text (pos1 + 1) (distance pos1 pos2))
      if (find dbg demangled_name).isSome then stackEntryOfThisFile
      else
        shown isColorful (fileBaseName (substr frame.text 0 pos1)) demangled_name
          (substr frame.text (pos2 + 1) (distance pos2 pos3)) frame.address := by
  have htext : frame.text = (frame.path ++ group frame.symbol frame.offset ++ [' ']) ++
      '[' :: (frame.address ++ [']']) := by
    rw [frame.text_eq]
    simp
  have hlength : frame.text.length < 2 ^ 64 := frame.fits
  obtain ⟨h4, h5, haddress⟩ := address_eq frame.addressChars (htext ▸ hlength)
  rw [← htext] at h4 h5 haddress
  simp only [parseSymbolEntryOfBacktrace, h1, h2, h3, h4, h5, haddress]

/-- What is decoded when nothing is cut in front of the group. -/
theorem parse_of_group {pre rest : Str} (hpre : Clean pre)
    (htext : frame.text = pre ++ group frame.symbol frame.offset ++ rest) :
    parseSymbolEntryOfBacktrace cxa_demangle (some frame.text) isColorful =
      if (find dbg (demangle cxa_demangle frame.symbol)).isSome then stackEntryOfThisFile
      else
        shown isColorful (fileBaseName pre) (demangle cxa_demangle frame.symbol) frame.offset
          frame.address := by
  obtain ⟨h1, h2, h3⟩ := cuts_of_group hpre (clean_of_symbol frame.symbolChars)
    (clean_of_hex frame.offsetChars) rest
  obtain ⟨hpath, hsymbol, hoffset⟩ := substr_of_group pre frame.symbol frame.offset rest
  have hlength : (pre ++ group frame.symbol frame.offset ++ rest).length < 2 ^ 64 :=
    htext ▸ frame.fits
  simp only [group, List.length_append, List.length_cons, List.length_nil] at hlength
  have hsymbolLength : distance pre.length (pre.length + 1 + frame.symbol.length) =
      frame.symbol.length := by
    rw [distance_of_lt (by omega) (by omega)]
    omega
  have hoffsetLength : distance (pre.length + 1 + frame.symbol.length)
      (pre.length + 1 + frame.symbol.length + 1 + frame.offset.length) = frame.offset.length := by
    rw [distance_of_lt (by omega) (by omega)]
    omega
  rw [← htext] at h1 h2 h3 hpath hsymbol hoffset
  rw [frame.parse_eq h1 h2 h3, hsymbolLength, hoffsetLength, hpath, hsymbol, hoffset]

/-- The four fields are decoded, whatever the demangler gives, in both styles. -/
def Decoded (frame : Frame) : Prop :=
  ∀ (cxa_demangle : Str → Option Str) (isColorful : Bool),
    (∀ symbol name, cxa_demangle symbol = some name → ¬ dbg <:+: name) →
      parseSymbolEntryOfBacktrace cxa_demangle (some frame.text) isColorful =
        shown isColorful (fileBaseName frame.path) (demangle cxa_demangle frame.symbol)
          frame.offset frame.address

theorem find_dbg_eq_none {name : Str} : find dbg name = none ↔ ¬ dbg <:+: name :=
  find_eq_none_iff (by decide)

theorem substr_length_le (str : Str) (pos count : Nat) :
    (substr str pos count).length ≤ str.length := by
  rw [substr, List.length_take, List.length_drop]
  omega

theorem fileBaseName_length_le (filename : Str) :
    (fileBaseName filename).length ≤ filename.length := by
  unfold fileBaseName
  split
  · exact Nat.le_refl _
  · simp

theorem eq_nil_of_brackets {more r r' : Str} {n : Nat} (hmore : more.length ≤ n)
    (h : ']' :: ' ' :: (List.replicate n 'a' ++ r) =
      more ++ ']' :: ' ' :: (List.replicate n 'a' ++ r')) : more = [] := by
  cases more with
  | nil => rfl
  | cons c more =>
      obtain ⟨-, h⟩ := List.cons.inj h
      cases more with
      | nil => cases (List.cons.inj h).1
      | cons d more =>
          obtain ⟨-, h⟩ := List.cons.inj h
          have hshort : more.length < n := by
            simp only [List.length_cons] at hmore
            omega
          have hchar := congrArg (fun str : Str => str[more.length]?) h
          simp [List.getElem?_append_left, hshort] at hchar

/-- Two lines with a name in them that is longer than what may stand in front of it. -/
theorem shown_long {a b offset offset' address : Str} {n : Nat} (ha : a.length ≤ n)
    (hb : b.length ≤ n)
    (h : shown false a (List.replicate n 'a') offset address =
      shown false b (List.replicate n 'a') offset' address) : a = b ∧ offset = offset' := by
  have h' : a ++ ']' :: ' ' :: (List.replicate n 'a' ++
        (" : ".toList ++ offset ++ (" [".toList ++ address ++ "]".toList))) =
      b ++ ']' :: ' ' :: (List.replicate n 'a' ++
        (" : ".toList ++ offset' ++ (" [".toList ++ address ++ "]".toList))) := by
    simpa [shown] using h
  have hnames : a = b := by
    rcases List.append_eq_append_iff.mp h' with ⟨more, rfl, hmore⟩ | ⟨more, rfl, hmore⟩
    · have hnil := eq_nil_of_brackets (by simp at hb; omega) hmore
      rw [hnil, List.append_nil]
    · have hnil := eq_nil_of_brackets (by simp at ha; omega) hmore
      rw [hnil, List.append_nil]
  subst hnames
  refine ⟨rfl, ?_⟩
  simpa using h'

theorem shown_name {a offset address name name' : Str}
    (h : shown false a name offset address = shown false a name' offset address) :
    name = name' := by
  simpa [shown] using h

theorem drop_past {before after text : Str} {c : Char} (htext : text = before ++ c :: after) :
    text.drop (before.length + 1) = after := by
  rw [htext, ← List.drop_drop, List.drop_left]
  rfl

/-- What is cut out where the cuts come in the wrong order reaches to the last bracket. -/
theorem bracket_mem_substr {before after text : Str} {c : Char} {right : Nat}
    (htext : text = before ++ c :: after) (hc : c ≠ ']') (hlast : text.getLast? = some ']')
    (hlength : text.length < 2 ^ 64) (h : right ≤ before.length) :
    ']' ∈ substr text (before.length + 1) (distance before.length right) := by
  have hbefore : before.length + 1 + after.length = text.length := by
    rw [htext]
    simp
    omega
  rw [substr, drop_past htext, distance_of_le h (by omega), List.take_of_length_le (by omega)]
  rw [htext, List.getLast?_append] at hlast
  cases hafter : after with
  | nil =>
      rw [hafter] at hlast
      exact absurd (Option.some.inj hlast) hc
  | cons d rest =>
      rw [hafter, List.getLast?_cons_cons] at hlast
      exact List.mem_of_getLast? (by simpa using hlast)

/-- The text up to the second of two cuts. -/
theorem eq_of_cuts {before before' after after' text : Str} {c d : Char}
    (htext : text = before ++ c :: after) (htext' : text = before' ++ d :: after')
    (hlength : text.length < 2 ^ 64) (h : before.length < before'.length) :
    before' = before ++
      c :: substr text (before.length + 1) (distance before.length before'.length) := by
  have hbefore' : before'.length < text.length := by
    rw [htext']
    simp
  rw [substr, drop_past htext, distance_of_lt h (by omega)]
  rcases List.append_eq_append_iff.mp (htext.symm.trans htext') with
    ⟨more, rfl, hmore⟩ | ⟨more, rfl, -⟩
  · cases more with
    | nil => simp at h
    | cons e more =>
        obtain ⟨rfl, rfl⟩ := List.cons.inj hmore
        have hcount : (before ++ c :: more).length - before.length - 1 = more.length := by
          simp
        have hmid : List.take more.length (more ++ d :: after') = more := List.take_left
        rw [hcount]
        exact congrArg (before ++ c :: ·) hmid.symm
  · rw [List.length_append] at h
    omega

theorem Frame.getLast?_text (frame : Frame) : frame.text.getLast? = some ']' := by
  have htext : frame.text = (frame.path ++ group frame.symbol frame.offset ++
      ' ' :: '[' :: frame.address) ++ [']'] := by
    rw [frame.text_eq]
    simp
  rw [htext, List.getLast?_concat]

theorem Frame.mem_text (frame : Frame) {c : Char} (hc : c ∈ "(+)".toList) : c ∈ frame.text := by
  simp at hc
  rw [frame.text_eq]
  rcases hc with rfl | rfl | rfl <;> simp [group]

/-- The symbol and the offset are right only if a group is cut in order. -/
theorem exists_group_of_cuts {pos1 pos2 pos3 : Nat}
    (h1 : findChar '(' frame.text = some pos1) (h2 : findChar '+' frame.text = some pos2)
    (h3 : findChar ')' frame.text = some pos3)
    (hsymbol : substr frame.text (pos1 + 1) (distance pos1 pos2) = frame.symbol)
    (hoffset : substr frame.text (pos2 + 1) (distance pos2 pos3) = frame.offset) :
    ∃ rest, Clean (substr frame.text 0 pos1) ∧
      frame.text =
        substr frame.text 0 pos1 ++ group frame.symbol frame.offset ++ rest := by
  have hmem1 := frame.mem_text (by decide : '(' ∈ "(+)".toList)
  have hmem2 := frame.mem_text (by decide : '+' ∈ "(+)".toList)
  have hmem3 := frame.mem_text (by decide : ')' ∈ "(+)".toList)
  obtain ⟨b1, a1, ht1, hb1, hf1⟩ := exists_findChar hmem1
  obtain ⟨b2, a2, ht2, hb2, hf2⟩ := exists_findChar hmem2
  obtain ⟨b3, a3, ht3, hb3, hf3⟩ := exists_findChar hmem3
  obtain rfl := Option.some.inj (h1.symm.trans hf1)
  obtain rfl := Option.some.inj (h2.symm.trans hf2)
  obtain rfl := Option.some.inj (h3.symm.trans hf3)
  have hlength : frame.text.length < 2 ^ 64 := frame.fits
  have hlt12 : b1.length < b2.length := by
    by_contra hle
    have hbracket := bracket_mem_substr ht1 (by decide) frame.getLast?_text hlength
      (Nat.le_of_not_lt hle)
    rw [hsymbol] at hbracket
    exact frame.symbolChars _ hbracket (by decide)
  have hlt23 : b2.length < b3.length := by
    by_contra hle
    have hbracket := bracket_mem_substr ht2 (by decide) frame.getLast?_text hlength
      (Nat.le_of_not_lt hle)
    rw [hoffset] at hbracket
    exact absurd (frame.offsetChars _ hbracket) (by decide)
  have hb2eq := eq_of_cuts ht1 ht2 hlength hlt12
  have hb3eq := eq_of_cuts ht2 ht3 hlength hlt23
  rw [hsymbol] at hb2eq
  rw [hoffset] at hb3eq
  have hpre : substr frame.text 0 b1.length = b1 := by
    rw [substr, List.drop_zero, ht1, List.take_left]
  rw [hpre]
  refine ⟨a3, fun c hc hcut => ?_, ?_⟩
  · have hc2 : c ∈ b2 := hb2eq ▸ List.mem_append_left _ hc
    have hc3 : c ∈ b3 := hb3eq ▸ List.mem_append_left _ hc2
    simp at hcut
    rcases hcut with rfl | rfl | rfl
    · exact hb1 hc
    · exact hb2 hc2
    · exact hb3 hc3
  · rw [ht3, hb3eq, hb2eq]
    simp [group]

/-- The two lines with a demangler that always gives a name. -/
theorem Decoded.shown_eq (h : Decoded frame) {pos1 pos2 pos3 : Nat}
    (h1 : findChar '(' frame.text = some pos1) (h2 : findChar '+' frame.text = some pos2)
    (h3 : findChar ')' frame.text = some pos3) (name : Str → Str)
    (hname : ∀ symbol, ¬ dbg <:+: name symbol) :
    shown false (fileBaseName (substr frame.text 0 pos1))
        (name (substr frame.text (pos1 + 1) (distance pos1 pos2)))
        (substr frame.text (pos2 + 1) (distance pos2 pos3)) frame.address =
      shown false (fileBaseName frame.path) (name frame.symbol) frame.offset frame.address := by
  have hdecoded := h (fun symbol => some (name symbol)) false (by
    rintro symbol _ ⟨⟩
    exact hname symbol)
  have hnone : ∀ symbol, find dbg (demangle (fun symbol => some (name symbol)) symbol) = none :=
    fun symbol => find_dbg_eq_none.mpr (hname symbol)
  rw [frame.parse_eq h1 h2 h3] at hdecoded
  simp only [hnone, Option.isSome_none, Bool.false_eq_true, if_false] at hdecoded
  exact hdecoded

theorem group_of_decoded (h : Decoded frame) :
    ∃ pre, Clean pre ∧ fileBaseName pre = fileBaseName frame.path ∧
      (frame.path = pre ∨
        ∃ post, frame.path = pre ++ group frame.symbol frame.offset ++ post) := by
  obtain ⟨b1, -, -, -, h1⟩ := exists_findChar (frame.mem_text (by decide : '(' ∈ "(+)".toList))
  obtain ⟨b2, -, -, -, h2⟩ := exists_findChar (frame.mem_text (by decide : '+' ∈ "(+)".toList))
  obtain ⟨b3, -, -, -, h3⟩ := exists_findChar (frame.mem_text (by decide : ')' ∈ "(+)".toList))
  have hletters : ∀ n c, c ≠ 'd' → ¬ dbg <:+: List.replicate n c := by
    intro n c hc hinside
    have := List.eq_of_mem_replicate (hinside.subset (by decide : 'd' ∈ dbg))
    exact hc this.symm
  have hpathLength : frame.path.length ≤ frame.text.length := by
    rw [frame.text_eq]
    simp
  -- A long name tells the file name and the offset apart from what stands around them.
  have hlong := h.shown_eq h1 h2 h3 (fun _ => List.replicate frame.text.length 'a')
    fun _ => hletters _ _ (by decide)
  obtain ⟨hfile, hoffset⟩ := shown_long
    ((fileBaseName_length_le _).trans (substr_length_le _ _ _))
    ((fileBaseName_length_le _).trans hpathLength) hlong
  -- A name of its own tells the symbol apart from every other text.
  have hsymbol : substr frame.text (b1.length + 1) (distance b1.length b2.length) =
      frame.symbol := by
    by_contra hother
    have hshort := h.shown_eq h1 h2 h3
      (fun symbol => List.replicate 1 (if symbol = frame.symbol then 'a' else 'b')) fun symbol => by
        split <;> exact hletters 1 _ (by decide)
    rw [hfile, hoffset] at hshort
    have := shown_name hshort
    simp [hother] at this
  obtain ⟨rest, hclean, htext⟩ := exists_group_of_cuts h1 h2 h3 hsymbol hoffset
  refine ⟨_, hclean, hfile, ?_⟩
  exact split_of_group hclean (clean_of_symbol frame.symbolChars) (clean_of_hex frame.offsetChars)
    (htext.symm.trans frame.text_eq)

theorem shown_ne_filtered (executable_name name offset address : Str) :
    shown false executable_name name offset address ≠ stackEntryOfThisFile := by
  intro h
  cases h

theorem decoded_iff (frame : Frame) :
    Decoded frame ↔
      ¬ dbg <:+: frame.symbol ∧ ∃ pre, Clean pre ∧ fileBaseName pre = fileBaseName frame.path ∧
        (frame.path = pre ∨
          ∃ post, frame.path = pre ++ group frame.symbol frame.offset ++ post) := by
  have hgroup : ∀ pre, (frame.path = pre ∨
      ∃ post, frame.path = pre ++ group frame.symbol frame.offset ++ post) →
        ∃ rest, frame.text = pre ++ group frame.symbol frame.offset ++ rest := by
    rintro pre (hpath | ⟨post, hpath⟩)
    · exact ⟨_, hpath ▸ frame.text_eq⟩
    · rw [frame.text_eq, hpath]
      exact ⟨post ++ group frame.symbol frame.offset ++ ' ' :: '[' :: (frame.address ++ [']']),
        by simp⟩
  constructor
  · intro h
    obtain ⟨pre, hclean, hfile, hpath⟩ := group_of_decoded h
    refine ⟨fun hinside => ?_, pre, hclean, hfile, hpath⟩
    obtain ⟨rest, htext⟩ := hgroup pre hpath
    -- The symbol itself is looked at where it has no demangled name.
    have hplain := h (fun _ => none) false (by rintro _ _ ⟨⟩)
    have hfound : (find dbg (demangle (fun _ => none) frame.symbol)).isSome = true := by
      rw [Option.isSome_iff_ne_none]
      exact fun hnone => find_dbg_eq_none.mp hnone hinside
    rw [parse_of_group hclean htext, if_pos hfound] at hplain
    exact shown_ne_filtered _ _ _ _ hplain.symm
  · rintro ⟨hdbg, pre, hclean, hfile, hpath⟩ cxa_demangle isColorful hnames
    obtain ⟨rest, htext⟩ := hgroup pre hpath
    have hnone : find dbg (demangle cxa_demangle frame.symbol) = none := by
      rw [find_dbg_eq_none, demangle]
      cases hname : cxa_demangle frame.symbol with
      | none => exact hdbg
      | some name => exact hnames _ _ hname
    rw [parse_of_group hclean htext, hnone, hfile]
    rfl

/-- A program in a directory `a+b`. -/
def plusFrame : Frame where
  path := "/a+b/c".toList
  symbol := "f".toList
  offset := "0x1".toList
  address := "0x2".toList
  symbolChars := by simp
  offsetChars := by simp [IsHexDigit]
  addressChars := by simp [IsHexDigit]
  fits := by decide

theorem not_decoded : ¬ ∀ frame : Frame, Decoded frame := by
  intro h
  obtain ⟨pre, hclean, -, rfl | ⟨post, hpath⟩⟩ := group_of_decoded (h plusFrame)
  · exact hclean '+' (by decide) (by decide)
  · have hparen : '(' ∈ plusFrame.path := by
      rw [hpath]
      simp [group]
    exact absurd hparen (by decide)

end Decoding

end SkUtils.Strings.StackPrinter
