import SkUtils.Arguments.ArgumentParser

/-!
The values of `INT` and `FLOAT` options. `std::stoi` and `std::stod` convert the longest
prefix that is a literal, and `PARSE_ARGUMENT` does not ask what comes behind it.
-/

namespace SkUtils.Arguments.NumericValues

open SkUtils.Strings.StringUtils
open SkUtils.Arguments.ArgumentParser

/-- The literals of a numeric type and the numbers they denote, with `none` for a literal
out of range. -/
structure NumericFormat (D : Type) where
  literal : Str → Bool
  value : Str → Option D
  begins : ∀ text, literal text = true → text.dropWhile isspace = text

/-- The longest prefix of at most `count` characters that is a literal. -/
def longestPrefix (literal : Str → Bool) (text : Str) : Nat → Option Str
  | 0 => if literal [] then some [] else none
  | count + 1 =>
      if literal (text.take (count + 1)) then some (text.take (count + 1))
      else longestPrefix literal text count

namespace NumericFormat

variable {D : Type}

/-- The literal at the front of a text, behind white space. -/
def leading (format : NumericFormat D) (text : Str) : Option Str :=
  let rest := text.dropWhile isspace
  longestPrefix format.literal rest rest.length

/-- The conversion functions of the standard library. -/
def convert (format : NumericFormat D) (text : Str) : Option D :=
  (format.leading text).bind format.value

/-- The number that a text denotes if the whole of it is a literal. -/
def denoted (format : NumericFormat D) (text : Str) : Option D :=
  if format.literal text then format.value text else none

end NumericFormat

/-- What follows the sign of an integer literal. -/
def unsigned : Str → Str
  | '-' :: rest => rest
  | '+' :: rest => rest
  | rest => rest

def isIntLiteral (text : Str) : Bool :=
  !(unsigned text).isEmpty && (unsigned text).all Char.isDigit

def intValue (text : Str) : Option Int :=
  let magnitude : Int :=
    (unsigned text).foldl (fun n c => 10 * n + (c.toNat - '0'.toNat)) 0
  let value := if text.head? = some '-' then -magnitude else magnitude
  if -2 ^ 31 ≤ value ∧ value < 2 ^ 31 then some value else none

section Prefixes

variable {D : Type} {format : NumericFormat D} {text rest pre : Str}

/-- `pre` is the longest literal at the front of `text`. -/
structure IsLeading (format : NumericFormat D) (text pre : Str) : Prop where
  literal : format.literal pre = true
  isPrefix : pre <+: text.dropWhile isspace
  longest : ∀ other, format.literal other = true → other <+: text.dropWhile isspace →
    other.length ≤ pre.length

theorem IsLeading.unique {pre' : Str} (h : IsLeading format text pre)
    (h' : IsLeading format text pre') : pre = pre' := by
  have hlength : pre.length = pre'.length :=
    Nat.le_antisymm (h'.longest pre h.literal h.isPrefix) (h.longest pre' h'.literal h'.isPrefix)
  exact (List.prefix_of_prefix_length_le h.isPrefix h'.isPrefix hlength.le).eq_of_length hlength

theorem prefix_cases {other : Str} {count : Nat} (h : other <+: text)
    (hcount : other.length ≤ count + 1) : other.length ≤ count ∨ other = text.take (count + 1) := by
  rcases Nat.lt_or_eq_of_le hcount with hlt | heq
  · exact .inl (Nat.le_of_lt_succ hlt)
  · exact .inr (heq ▸ List.prefix_iff_eq_take.mp h)

theorem longestPrefix_eq_some {literal : Str → Bool} {count : Nat}
    (h : longestPrefix literal text count = some pre) :
    literal pre = true ∧ pre <+: text ∧ ∀ other, literal other = true → other <+: text →
      other.length ≤ count → other.length ≤ pre.length := by
  induction count with
  | zero =>
      rw [longestPrefix] at h
      split at h
      · next hliteral =>
          obtain rfl := Option.some.inj h
          exact ⟨hliteral, List.nil_prefix, fun _ _ _ hcount => hcount⟩
      · cases h
  | succ count ih =>
      rw [longestPrefix] at h
      split at h
      · next hliteral =>
          obtain rfl := Option.some.inj h
          refine ⟨hliteral, List.take_prefix _ _, fun other _ hother hcount => ?_⟩
          rw [List.length_take]
          exact Nat.le_min.mpr ⟨hcount, hother.length_le⟩
      · next hnot =>
          obtain ⟨hliteral, hpre, hlongest⟩ := ih h
          refine ⟨hliteral, hpre, fun other hlit hother hcount => ?_⟩
          rcases prefix_cases hother hcount with hshort | rfl
          · exact hlongest other hlit hother hshort
          · exact absurd hlit hnot

theorem longestPrefix_eq_none {literal : Str → Bool} {count : Nat}
    (h : longestPrefix literal text count = none) :
    ∀ other, literal other = true → other <+: text → ¬ other.length ≤ count := by
  induction count with
  | zero =>
      intro other hlit hother hcount
      obtain rfl := List.length_eq_zero_iff.mp (Nat.le_zero.mp hcount)
      simp [longestPrefix, hlit] at h
  | succ count ih =>
      intro other hlit hother hcount
      rw [longestPrefix] at h
      split at h
      · cases h
      · next hnot =>
          rcases prefix_cases hother hcount with hshort | rfl
          · exact ih h other hlit hother hshort
          · exact hnot hlit

theorem leading_eq_some_iff : format.leading text = some pre ↔ IsLeading format text pre := by
  constructor
  · intro h
    obtain ⟨hliteral, hpre, hlongest⟩ := longestPrefix_eq_some h
    exact ⟨hliteral, hpre, fun other hlit hother => hlongest other hlit hother hother.length_le⟩
  · intro h
    cases hleading : format.leading text with
    | none =>
        exact absurd h.isPrefix.length_le
          (longestPrefix_eq_none hleading _ h.literal h.isPrefix)
    | some other =>
        obtain ⟨hliteral, hpre, hlongest⟩ := longestPrefix_eq_some hleading
        have hother : IsLeading format text other :=
          ⟨hliteral, hpre, fun o hlit ho => hlongest o hlit ho ho.length_le⟩
        rw [hother.unique h]

theorem isLeading_self (h : format.literal text = true) : IsLeading format text text := by
  have hbegins := format.begins text h
  constructor
  · exact h
  · simp [hbegins]
  · intro other _ hother
    rw [hbegins] at hother
    exact hother.length_le

/-- Nothing is converted but whole literals. -/
theorem convert_eq_denoted_iff :
    format.convert text = format.denoted text ↔
      format.literal text = true ∨
        ∀ pre, IsLeading format text pre → format.value pre = none := by
  unfold NumericFormat.convert NumericFormat.denoted
  by_cases hliteral : format.literal text = true
  · have hself := leading_eq_some_iff.mpr (isLeading_self hliteral)
    rw [hself, if_pos hliteral]
    exact iff_of_true rfl (.inl hliteral)
  · rw [if_neg hliteral]
    constructor
    · intro h
      refine .inr fun pre hpre => ?_
      rwa [leading_eq_some_iff.mpr hpre] at h
    · rintro (h | h)
      · exact absurd h hliteral
      · cases hleading : format.leading text with
        | none => rfl
        | some pre => exact h pre (leading_eq_some_iff.mp hleading)

end Prefixes

section Integers

variable {sign rest digits text : Str}

theorem isDigit_not_special {c : Char} (h : c.isDigit = true) :
    isspace c = false ∧ c ≠ '-' ∧ c ≠ '+' := by
  refine ⟨?_, ?_, ?_⟩
  · simp only [Char.isDigit, Bool.and_eq_true, decide_eq_true_eq] at h
    have hlow : 48 ≤ c.toNat := h.1
    have hblank : c ≠ ' ' := by
      rintro rfl
      exact absurd hlow (by decide)
    simp only [isspace, hblank, decide_false, Bool.false_or, Bool.and_eq_false_imp,
      decide_eq_true_eq, decide_eq_false_iff_not]
    omega
  · rintro rfl
    exact absurd h (by decide)
  · rintro rfl
    exact absurd h (by decide)

/-- The signs of an integer literal. -/
def IsSign (sign : Str) : Prop :=
  sign = ['-'] ∨ sign = ['+'] ∨ sign = []

theorem unsigned_digits (hsign : IsSign sign) (hdigits : ∀ c ∈ digits, c.isDigit = true) :
    unsigned (sign ++ digits) = digits := by
  rcases hsign with rfl | rfl | rfl
  · rfl
  · rfl
  · cases digits with
    | nil => rfl
    | cons c digits =>
        obtain ⟨-, hminus, hplus⟩ := isDigit_not_special (hdigits c List.mem_cons_self)
        rw [List.nil_append]
        unfold unsigned
        split
        · next h => exact absurd (List.cons.inj h).1 hminus
        · next h => exact absurd (List.cons.inj h).1 hplus
        · rfl

theorem isIntLiteral_iff : isIntLiteral text = true ↔
    unsigned text ≠ [] ∧ ∀ c ∈ unsigned text, c.isDigit = true := by
  simp [isIntLiteral]

theorem isIntLiteral_digits (hsign : IsSign sign) (hne : digits ≠ [])
    (hdigits : ∀ c ∈ digits, c.isDigit = true) : isIntLiteral (sign ++ digits) = true := by
  rw [isIntLiteral_iff, unsigned_digits hsign hdigits]
  exact ⟨hne, hdigits⟩

def intFormat : NumericFormat Int where
  literal := isIntLiteral
  value := intValue
  begins := by
    intro text h
    obtain ⟨hne, hdigits⟩ := isIntLiteral_iff.mp h
    have hhead : ∀ c rest, text = c :: rest → isspace c = false := by
      rintro c rest rfl
      unfold unsigned at hdigits
      split at hdigits
      · next hc => rw [(List.cons.inj hc).1]; decide
      · next hc => rw [(List.cons.inj hc).1]; decide
      · exact (isDigit_not_special (hdigits c List.mem_cons_self)).1
    cases text with
    | nil => rfl
    | cons c rest => rw [List.dropWhile_cons_of_neg (by simp [hhead c rest rfl])]

/-- How the text behind the white space is taken apart. -/
inductive Signed : Str → Str → Str → Prop
  | minus {rest : Str} : Signed ('-' :: rest) ['-'] rest
  | plus {rest : Str} : Signed ('+' :: rest) ['+'] rest
  | none {rest : Str} (hminus : rest.head? ≠ some '-') (hplus : rest.head? ≠ some '+') :
      Signed rest [] rest

theorem Signed.append (h : Signed text sign rest) : text = sign ++ rest ∧ IsSign sign := by
  cases h with
  | minus => exact ⟨rfl, .inl rfl⟩
  | plus => exact ⟨rfl, .inr (.inl rfl)⟩
  | none => exact ⟨rfl, .inr (.inr rfl)⟩

/-- An integer literal at the front has the sign of the text and some of its digits. -/
theorem Signed.of_prefix {other : Str} (h : Signed text sign rest)
    (hliteral : isIntLiteral other = true) (hpre : other <+: text) :
    ∃ digits, other = sign ++ digits ∧ digits <+: rest ∧ digits ≠ [] ∧
      ∀ c ∈ digits, c.isDigit = true := by
  obtain ⟨hne, hdigits⟩ := isIntLiteral_iff.mp hliteral
  cases other with
  | nil => exact absurd rfl hne
  | cons c other =>
      obtain ⟨tail, htail⟩ := hpre
      cases h with
      | minus =>
          obtain ⟨rfl, hrest⟩ := List.cons.inj htail
          exact ⟨other, rfl, ⟨tail, hrest⟩, hne, hdigits⟩
      | plus =>
          obtain ⟨rfl, hrest⟩ := List.cons.inj htail
          exact ⟨other, rfl, ⟨tail, hrest⟩, hne, hdigits⟩
      | none hminus hplus =>
          have hself : unsigned (c :: other) = c :: other := by
            rw [← htail] at hminus hplus
            unfold unsigned
            split
            · next hc => exact absurd (congrArg some (List.cons.inj hc).1) hminus
            · next hc => exact absurd (congrArg some (List.cons.inj hc).1) hplus
            · rfl
          rw [hself] at hne hdigits
          exact ⟨c :: other, rfl, ⟨tail, htail⟩, hne, hdigits⟩

theorem length_le_takeWhile (h : digits <+: rest) (hdigits : ∀ c ∈ digits, c.isDigit = true) :
    digits.length ≤ (rest.takeWhile Char.isDigit).length := by
  obtain ⟨tail, rfl⟩ := h
  rw [List.takeWhile_append_of_pos hdigits, List.length_append]
  exact Nat.le_add_right _ _

theorem Signed.leading (h : Signed (text.dropWhile isspace) sign rest)
    (hne : rest.takeWhile Char.isDigit ≠ []) :
    IsLeading intFormat text (sign ++ rest.takeWhile Char.isDigit) := by
  obtain ⟨htext, hsign⟩ := h.append
  constructor
  · exact isIntLiteral_digits hsign hne fun c hc => List.mem_takeWhile_imp hc
  · rw [htext]
    exact List.prefix_append_right_inj sign |>.mpr (List.takeWhile_prefix _)
  · intro other hliteral hother
    obtain ⟨digits, rfl, hstart, -, hdigits⟩ := h.of_prefix hliteral hother
    rw [List.length_append, List.length_append]
    exact Nat.add_le_add_left (length_le_takeWhile hstart hdigits) _

theorem Signed.not_leading (h : Signed (text.dropWhile isspace) sign rest)
    (hnil : rest.takeWhile Char.isDigit = []) (pre : Str) : ¬ IsLeading intFormat text pre := by
  intro hpre
  obtain ⟨digits, -, hstart, hne, hdigits⟩ := h.of_prefix hpre.literal hpre.isPrefix
  have hlength := length_le_takeWhile hstart hdigits
  rw [hnil] at hlength
  exact hne (List.length_eq_zero_iff.mp (Nat.le_zero.mp hlength))

theorem Signed.convert (h : Signed (text.dropWhile isspace) sign rest) :
    intFormat.convert text =
      if rest.takeWhile Char.isDigit ≠ [] then intValue (sign ++ rest.takeWhile Char.isDigit)
      else Option.none := by
  unfold NumericFormat.convert
  by_cases hne : rest.takeWhile Char.isDigit ≠ []
  · rw [leading_eq_some_iff.mpr (h.leading hne), if_pos hne]
    rfl
  · have hnil := not_not.mp hne
    rw [if_neg hne]
    cases hleading : intFormat.leading text with
    | none => rfl
    | some pre => exact absurd (leading_eq_some_iff.mp hleading) (h.not_leading hnil pre)

/-- The magnitude that `digits` denote. -/
def magnitude (digits : Str) : Int :=
  digits.foldl (fun n c => 10 * n + (c.toNat - '0'.toNat)) 0

def inRange (value : Int) : Option Int :=
  if -2 ^ 31 ≤ value ∧ value < 2 ^ 31 then some value else none

theorem stoi_cases (text : Str) :
    ∃ sign rest, Signed (text.dropWhile isspace) sign rest ∧
      stoi text =
        let digits := rest.takeWhile Char.isDigit
        if digits ≠ [] then
          inRange (if sign = ['-'] then -magnitude digits else magnitude digits)
        else Option.none := by
  unfold stoi
  split
  next negative digits hmatch =>
    split at hmatch
    · next rest hrest =>
        obtain ⟨rfl, rfl⟩ := Prod.mk.inj hmatch
        refine ⟨['-'], rest, hrest ▸ .minus, ?_⟩
        by_cases hne : rest.takeWhile Char.isDigit ≠ [] <;> simp [hne, inRange, magnitude]
    · next rest hrest =>
        obtain ⟨rfl, rfl⟩ := Prod.mk.inj hmatch
        refine ⟨['+'], rest, hrest ▸ .plus, ?_⟩
        by_cases hne : rest.takeWhile Char.isDigit ≠ [] <;> simp [hne, inRange, magnitude]
    · next rest hminus hplus =>
        obtain ⟨rfl, rfl⟩ := Prod.mk.inj hmatch
        refine ⟨[], text.dropWhile isspace, .none (fun h => ?_) (fun h => ?_), ?_⟩
        · obtain ⟨rest, hrest⟩ := List.head?_eq_some_iff.mp h
          exact hminus rest hrest
        · obtain ⟨rest, hrest⟩ := List.head?_eq_some_iff.mp h
          exact hplus rest hrest
        · by_cases hne : (text.dropWhile isspace).takeWhile Char.isDigit ≠ [] <;>
            simp [hne, inRange, magnitude]

theorem intValue_digits (hsign : IsSign sign) (hne : digits ≠ [])
    (hdigits : ∀ c ∈ digits, c.isDigit = true) :
    intValue (sign ++ digits) =
      inRange (if sign = ['-'] then -magnitude digits else magnitude digits) := by
  have hhead : (sign ++ digits).head? = some '-' ↔ sign = ['-'] := by
    rcases hsign with rfl | rfl | rfl
    · simp
    · simp
    · obtain ⟨c, rest, rfl⟩ := List.exists_cons_of_ne_nil hne
      have hminus := (isDigit_not_special (hdigits c List.mem_cons_self)).2.1
      simpa using hminus
  unfold intValue
  rw [unsigned_digits hsign hdigits]
  simp only [hhead]
  rfl

/-- `stoi` is the conversion of the longest integer literal at the front. -/
theorem stoi_eq_convert (text : Str) : stoi text = intFormat.convert text := by
  obtain ⟨sign, rest, hsigned, hstoi⟩ := stoi_cases text
  rw [hstoi, hsigned.convert]
  by_cases hne : rest.takeWhile Char.isDigit ≠ []
  · have hdigits : ∀ c ∈ rest.takeWhile Char.isDigit, c.isDigit = true := fun c hc =>
      List.mem_takeWhile_imp hc
    simp only [if_pos hne]
    rw [intValue_digits hsigned.append.2 hne hdigits]
  · simp only [if_neg hne]

end Integers

section Options

variable {D E : Type} {args : List Str} {name provided : Str} {info : ArgInfo D} {c : Cursor D}

/-- A value is set and the option has one, or the option is left as it is and reported. -/
def settle (name provided : Str) (info : ArgInfo D) (value : Option (ArgValueType D))
    (c : Cursor D) : Cursor D :=
  match value with
  | some value =>
      { c with
        parser := c.parser.assign name { info with value, has_value := true }
        idx := c.idx + 1 }
  | none => { c with reports := c.reports ++ [.invalidValue info.type name provided] }

theorem parseArgument_eq_settle (h : args[c.idx + 1]? = some provided)
    (parse_func : Str → Option (ArgValueType D)) :
    parseArgument args name info parse_func c =
      settle name provided info (parse_func provided) c := by
  rw [parseArgument, h]
  cases hvalue : parse_func provided <;> simp only [hvalue, settle]

theorem settle_injective {value value' : Option (ArgValueType D)}
    (h : settle name provided info value c = settle name provided info value' c) :
    value = value' := by
  cases value with
  | none =>
      cases value' with
      | none => rfl
      | some value' =>
          have hidx : c.idx = c.idx + 1 := congrArg Cursor.idx h
          omega
  | some value =>
      cases value' with
      | none =>
          have hidx : c.idx + 1 = c.idx := congrArg Cursor.idx h
          omega
      | some value' =>
          have hinfo := congrArg (fun c : Cursor D => c.parser.arg_info_mp name) h
          simp only [settle, ArgParser.assign, if_true, Option.some.injEq] at hinfo
          exact congrArg (fun info : ArgInfo D => some info.value) hinfo

/-- The whole text is a literal, or what is in front of it is no literal in range. -/
def WholeOrNothing (format : NumericFormat E) (text : Str) : Prop :=
  format.literal text = true ∨ ∀ pre, IsLeading format text pre → format.value pre = none

theorem parseArgument_eq_iff (format : NumericFormat E) {wrap : E → ArgValueType D}
    (hwrap : Function.Injective wrap) (h : args[c.idx + 1]? = some provided) :
    parseArgument args name info (fun s => (format.convert s).map wrap) c =
        settle name provided info ((format.denoted provided).map wrap) c ↔
      WholeOrNothing format provided := by
  rw [parseArgument_eq_settle h, WholeOrNothing, ← convert_eq_denoted_iff]
  constructor
  · intro heq
    exact Option.map_injective hwrap (settle_injective heq)
  · intro heq
    rw [heq]

theorem numeric_option_iff (format : NumericFormat D) (args : List Str) (name provided : Str)
    (info : ArgInfo D) (c : Cursor D) (token : args[c.idx + 1]? = some provided) :
    (info.type = .INT →
      (parseOption format.convert args name info c =
          .ok (settle name provided info ((intFormat.denoted provided).map .int) c) ↔
        WholeOrNothing intFormat provided)) ∧
      (info.type = .FLOAT →
        (parseOption format.convert args name info c =
            .ok (settle name provided info ((format.denoted provided).map .double) c) ↔
          WholeOrNothing format provided)) := by
  constructor
  · intro htype
    have hstoi : (fun s => (stoi s).map (@ArgValueType.int D)) =
        fun s => (intFormat.convert s).map .int := by
      funext s
      rw [stoi_eq_convert]
    have hparse : parseOption format.convert args name info c =
        .ok (parseArgument args name info (fun s => (intFormat.convert s).map .int) c) := by
      rw [parseOption, htype, ← hstoi]
      rfl
    rw [hparse, Except.ok.injEq]
    exact parseArgument_eq_iff intFormat (fun _ _ h => ArgValueType.int.inj h) token
  · intro htype
    have hparse : parseOption format.convert args name info c =
        .ok (parseArgument args name info (fun s => (format.convert s).map .double) c) := by
      rw [parseOption, htype]
      rfl
    rw [hparse, Except.ok.injEq]
    exact parseArgument_eq_iff format (fun _ _ h => ArgValueType.double.inj h) token

def countInfo : ArgInfo Int where
  name := "-i".toList
  type := .INT
  value := .int 0

def emptyCursor : Cursor Int where
  parser := {}
  idx := 0
  reports := []

theorem numeric_option_iff_twelve :
    (["-i".toList, "12".toList] : List Str)[emptyCursor.idx + 1]? = some "12".toList ∧
      ((countInfo.type = .INT →
        (parseOption intFormat.convert ["-i".toList, "12".toList] "-i".toList countInfo
            emptyCursor =
          .ok (settle "-i".toList "12".toList countInfo
            ((intFormat.denoted "12".toList).map .int) emptyCursor) ↔
          WholeOrNothing intFormat "12".toList)) ∧
        (countInfo.type = .FLOAT →
          (parseOption intFormat.convert ["-i".toList, "12".toList] "-i".toList countInfo
              emptyCursor =
            .ok (settle "-i".toList "12".toList countInfo
              ((intFormat.denoted "12".toList).map .double) emptyCursor) ↔
            WholeOrNothing intFormat "12".toList))) :=
  ⟨rfl, numeric_option_iff intFormat _ _ _ countInfo emptyCursor rfl⟩

/-- `12abc` is taken for 12. -/
theorem takes_numeric_prefix :
    ¬ ∀ (format : NumericFormat Int) (args : List Str) (name provided : Str)
      (info : ArgInfo Int) (c : Cursor Int), args[c.idx + 1]? = some provided →
        info.type = .INT →
          parseOption format.convert args name info c =
            .ok (settle name provided info ((intFormat.denoted provided).map .int) c) := by
  intro h
  have hparse := h intFormat ["-i".toList, "12abc".toList] "-i".toList "12abc".toList countInfo
    emptyCursor rfl rfl
  have hidx := congrArg (fun r : Except Failure (Cursor Int) => r.toOption.map Cursor.idx) hparse
  exact absurd hidx (by decide)

end Options

end SkUtils.Arguments.NumericValues
