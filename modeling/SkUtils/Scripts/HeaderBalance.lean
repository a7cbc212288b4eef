import SkUtils.Library.Brackets
import SkUtils.Scripts.MergeHeaders

/-!
Are the conditionals of what `parse_header` keeps balanced? The front of the guard and its
`#endif` are found by two searches that know nothing of each other, so that one may be taken
and the other left, or another directive taken for one of them.
-/

namespace SkUtils.Scripts.HeaderBalance

open SkUtils.Library.Brackets
open SkUtils.Scripts.MergeHeaders
open SkUtils.Strings.StringUtils (Str)

section Directives

/-- The blanks that may stand around the `#` of a directive. -/
def isHorizontal (c : Char) : Bool :=
  c == ' ' || c == '\t' || c == '\x0b' || c == '\x0c'

def isIdentifier (c : Char) : Bool :=
  c.isAlphanum || c == '_'

/-- The name of the directive in a line. -/
def directiveName (line : Str) : Option Str :=
  match line.dropWhile isHorizontal with
  | '#' :: rest => some ((rest.dropWhile isHorizontal).takeWhile isIdentifier)
  | _ => none

/-- The conditionals of the preprocessor are brackets among the lines. -/
def conditional (line : Str) : Bracket :=
  match directiveName line with
  | none => .plain
  | some name =>
      if name = "if".toList ∨ name = "ifdef".toList ∨ name = "ifndef".toList then .opening
      else if name = "endif".toList then .closing
      else .plain

theorem ne_hash_of_isspace {c : Char} (hc : isspace c = true) : c ≠ '#' := by
  rintro rfl
  exact absurd hc (by decide)

theorem not_isIdentifier_of_isspace {c : Char} (hc : isspace c = true) :
    isIdentifier c = false := by
  have hspace : ¬ (48 ≤ c.toNat ∧ c.toNat ≤ 57 ∨ 65 ≤ c.toNat ∧ c.toNat ≤ 90 ∨
      97 ≤ c.toNat ∧ c.toNat ≤ 122 ∨ c.toNat = 95) := by
    simp only [isspace, Bool.or_eq_true, Bool.and_eq_true, decide_eq_true_eq, beq_iff_eq] at hc
    omega
  rw [Bool.eq_false_iff]
  intro hident
  apply hspace
  delta isIdentifier Char.isAlphanum Char.isAlpha Char.isUpper Char.isLower Char.isDigit at hident
  simp only [Bool.or_eq_true, Bool.and_eq_true, decide_eq_true_eq, beq_iff_eq, ge_iff_le,
    UInt32.le_iff_toNat_le] at hident
  rcases hident with ((hupper | hlower) | hdigit) | rfl
  · exact .inr (.inl hupper)
  · exact .inr (.inr (.inl hlower))
  · exact .inl hdigit
  · exact .inr (.inr (.inr rfl))

/-- Blanks in front of a directive keep it, or hide it. -/
theorem directiveName_blanks {front : Str} (hfront : ∀ c ∈ front, isspace c = true)
    (rest : Str) : directiveName (front ++ rest) = none ∨
      directiveName (front ++ rest) = directiveName rest := by
  induction front with
  | nil => exact .inr rfl
  | cons c front ih =>
      obtain ⟨hc, hfront⟩ := List.forall_mem_cons.mp hfront
      cases hblank : isHorizontal c with
      | true =>
          have hdrop : directiveName (c :: (front ++ rest)) = directiveName (front ++ rest) := by
            rw [directiveName, List.dropWhile_cons_of_pos hblank, directiveName]
          rw [List.cons_append, hdrop]
          exact ih hfront
      | false =>
          left
          rw [directiveName, List.cons_append, List.dropWhile_cons_of_neg (by simp [hblank])]
          split
          · rename_i heq
            injection heq with hhash
            exact absurd hhash (ne_hash_of_isspace hc)
          · rfl

theorem conditional_blanks {front : Str} (hfront : ∀ c ∈ front, isspace c = true)
    {rest : Str} (hrest : conditional rest = .plain) : conditional (front ++ rest) = .plain := by
  rcases directiveName_blanks hfront rest with hnone | hsame
  · rw [conditional, hnone]
  · rw [conditional, hsame]
    exact hrest

theorem conditional_isBlank {line : Str} (h : isBlank line = true) :
    conditional line = .plain := by
  have hspace : ∀ c ∈ line, isspace c = true := by
    rw [isBlank, strip, List.isEmpty_iff, List.rdropWhile_eq_nil_iff] at h
    intro c hc
    rw [← List.takeWhile_append_dropWhile (p := isspace) (l := line)] at hc
    rcases List.mem_append.mp hc with htake | hdrop
    · exact List.mem_takeWhile_imp htake
    · exact h c hdrop
  have hplain := @conditional_blanks line hspace [] rfl
  rwa [List.append_nil] at hplain

/-- The characters of a literal need not be computed again. -/
theorem conditional_ofList {line : Str} (h : conditional line = .plain) :
    conditional (String.ofList line).toList = .plain := by
  rw [String.toList_ofList]
  exact h

theorem strip_eq (line : Str) : ∃ front back, line = front ++ (strip line ++ back) ∧
    ∀ c ∈ front, isspace c = true := by
  refine ⟨line.takeWhile isspace, (line.dropWhile isspace).rtakeWhile isspace, ?_, ?_⟩
  · rw [strip, List.rdropWhile_append_rtakeWhile, List.takeWhile_append_dropWhile]
  · intro c hc
    exact List.mem_takeWhile_imp hc

theorem conditional_include {line rest : Str}
    (h : matchDirective "#include".toList (strip line) = some rest) :
    conditional line = .plain := by
  obtain ⟨front, back, hline, hfront⟩ := strip_eq line
  rw [matchDirective] at h
  split at h
  · rename_i hstarts
    obtain ⟨tail, htail⟩ := List.isPrefixOf_iff_prefix.mp hstarts
    rw [hline, ← htail]
    rw [← htail, List.drop_left] at h
    cases tail with
    | nil => simp at h
    | cons c tail =>
        by_cases hc : isspace c = true
        · apply conditional_blanks hfront
          have htake : ("include".toList ++ c :: (tail ++ back)).takeWhile isIdentifier =
              "include".toList := by
            rw [List.takeWhile_append_of_pos (List.all_eq_true.mp (by decide)),
              List.takeWhile_cons_of_neg (by simp [not_isIdentifier_of_isspace hc]),
              List.append_nil]
          have hname : directiveName ("#include".toList ++ c :: tail ++ back) =
              some "include".toList := congrArg some htake
          rw [conditional, hname]
          rfl
        · simp [hc] at h
  · simp at h

/-- The lines that are left out of the body are no conditionals. -/
theorem conditional_of_not_isKept {line : Str} (h : isKept line = false) :
    conditional line = .plain := by
  rw [isKept, Bool.and_eq_false_iff] at h
  rcases h with hstd | hown
  · cases hmatch : matchDirective "#include".toList (strip line) with
    | none =>
        rw [matchStdInclude, hmatch] at hstd
        exact absurd hstd (by simp)
    | some rest => exact conditional_include hmatch
  · cases hmatch : matchDirective "#include".toList (strip line) with
    | none =>
        rw [matchInclude, hmatch] at hown
        exact absurd hown (by simp)
    | some rest => exact conditional_include hmatch

end Directives

section Body

theorem balanced_trim (body_lines : List Str) :
    Balanced conditional (trim body_lines) ↔ Balanced conditional body_lines := by
  have hfront : ∀ line ∈ body_lines.takeWhile isBlank, conditional line = .plain := by
    intro line hline
    exact conditional_isBlank (List.mem_takeWhile_imp hline)
  have hback : ∀ line ∈ (body_lines.dropWhile isBlank).rtakeWhile isBlank,
      conditional line = .plain := by
    intro line hline
    exact conditional_isBlank (List.mem_rtakeWhile_imp hline)
  have hsplit : body_lines = body_lines.takeWhile isBlank ++
      (trim body_lines ++ (body_lines.dropWhile isBlank).rtakeWhile isBlank) := by
    rw [trim, List.rdropWhile_append_rtakeWhile, List.takeWhile_append_dropWhile]
  conv_rhs => rw [hsplit]
  rw [balanced_append_plain_left hfront, balanced_append_plain_right hback]

/-- The body is as balanced as the lines between the front and the end of the guard. -/
theorem balanced_body (isalnum : Char → Bool) (lines : List Str) :
    Balanced conditional (parse_header isalnum lines).2 ↔
      Balanced conditional ((lines.take (findEnd lines (findGuard isalnum lines).1)).drop
        (findGuard isalnum lines).2) := by
  rw [parse_header, balanced_trim]
  exact balanced_filter fun line _ => conditional_of_not_isKept

end Body

section Taken

/-- The line `k`, stripped, has the property. -/
def At (lines : List Str) (k : Nat) (p : Str → Prop) : Prop :=
  ∃ line, lines[k]? = some line ∧ p (strip line)

variable (isalnum : Char → Bool)

/-- The first line of code is `#ifndef guard`. -/
structure IsGuard (lines : List Str) (i : Nat) (guard : Str) : Prop where
  ifndef : At lines i fun stripped =>
    isSkipped stripped = false ∧ matchIfndef isalnum stripped = some guard
  skipped : ∀ k < i, At lines k fun stripped => isSkipped stripped = true

/-- Of the two lines behind the guard the line `d` is the first that defines it. -/
structure IsDefine (lines : List Str) (i : Nat) (guard : Str) (d : Nat) : Prop where
  behind : i < d ∧ d ≤ i + 2
  define : At lines d fun stripped => matchDefine isalnum guard stripped = true
  first : ∀ k, i < k → k < d → At lines k fun stripped =>
    matchDefine isalnum guard stripped = false

/-- Of the last four lines, the first line of all left out, `e` is the last that is a bare
`#endif` or an `#endif` with the guard in it. -/
structure IsLast (lines : List Str) (guard : Str) (e : Nat) : Prop where
  window : 1 ≤ e ∧ lines.length ≤ e + 4
  closes : At lines e fun stripped => isEnd guard stripped = true
  last : ∀ k, e < k → k < lines.length → At lines k fun stripped =>
    isEnd guard stripped = false

/-- The lines that go with the guard: up to its definition, and from its end on. -/
def Taken (lines : List Str) (k : Nat) : Prop :=
  ∃ i guard, IsGuard isalnum lines i guard ∧
    ((∃ d, IsDefine isalnum lines i guard d ∧ k ≤ d) ∨ ∃ e, IsLast lines guard e ∧ e ≤ k)

variable {isalnum} {lines : List Str} {guard : Str} {i k : Nat}

theorem at_getElem {p : Str → Prop} (hk : k < lines.length) (h : p (strip lines[k])) :
    At lines k p :=
  ⟨lines[k], List.getElem?_eq_getElem hk, h⟩

theorem At.lt_length {p : Str → Prop} (h : At lines k p) : k < lines.length := by
  obtain ⟨line, hline, -⟩ := h
  exact (List.getElem?_eq_some_iff.mp hline).1

theorem At.of_getElem {p : Str → Prop} (h : At lines k p) (hk : k < lines.length) :
    p (strip lines[k]) := by
  obtain ⟨line, hline, hp⟩ := h
  rw [List.getElem?_eq_getElem hk] at hline
  injection hline with heq
  rw [heq]
  exact hp

theorem At.not_both {f : Str → Bool} (h : At lines k fun stripped => f stripped = true)
    (h' : At lines k fun stripped => f stripped = false) : False := by
  have htrue := h.of_getElem h.lt_length
  rw [h'.of_getElem h.lt_length] at htrue
  exact absurd htrue (by simp)

/-- There is one first line of code. -/
theorem code_unique {i' : Nat} (hread : At lines i fun stripped => isSkipped stripped = false)
    (hskipped : ∀ k < i, At lines k fun stripped => isSkipped stripped = true)
    (hread' : At lines i' fun stripped => isSkipped stripped = false)
    (hskipped' : ∀ k < i', At lines k fun stripped => isSkipped stripped = true) : i = i' := by
  rcases Nat.lt_trichotomy i i' with hlt | heq | hgt
  · exact ((hskipped' i hlt).not_both hread).elim
  · exact heq
  · exact ((hskipped i' hgt).not_both hread').elim

theorem IsGuard.code (h : IsGuard isalnum lines i guard) :
    At lines i fun stripped => isSkipped stripped = false := by
  have hi := h.ifndef.lt_length
  exact at_getElem hi (h.ifndef.of_getElem hi).1

theorem IsGuard.unique {i' : Nat} {guard' : Str} (h : IsGuard isalnum lines i guard)
    (h' : IsGuard isalnum lines i' guard') : i = i' ∧ guard = guard' := by
  obtain rfl : i = i' := code_unique h.code h.skipped h'.code h'.skipped
  refine ⟨rfl, ?_⟩
  have hguard := (h.ifndef.of_getElem h.ifndef.lt_length).2
  rw [(h'.ifndef.of_getElem h.ifndef.lt_length).2] at hguard
  injection hguard with heq
  exact heq.symm

theorem isDefine_of_findIdx? {j : Nat}
    (h : ((lines.drop (i + 1)).take 2).findIdx? (fun line =>
      matchDefine isalnum guard (strip line)) = some j) :
    IsDefine isalnum lines i guard (i + 1 + j) := by
  obtain ⟨hj, hdefine, hfirst⟩ := List.findIdx?_eq_some_iff_getElem.mp h
  rw [List.length_take, List.length_drop] at hj
  rw [List.getElem_take, List.getElem_drop] at hdefine
  refine ⟨by omega, at_getElem (by omega) hdefine, ?_⟩
  intro k hik hkj
  obtain ⟨m, rfl⟩ := Nat.exists_eq_add_of_le (show i + 1 ≤ k by omega)
  have hother := hfirst m (by omega)
  rw [List.getElem_take, List.getElem_drop, Bool.not_eq_true] at hother
  exact at_getElem (by omega) hother

theorem not_isDefine_of_findIdx?
    (h : ((lines.drop (i + 1)).take 2).findIdx? (fun line =>
      matchDefine isalnum guard (strip line)) = none) (d : Nat) :
    ¬ IsDefine isalnum lines i guard d := by
  rintro ⟨hbehind, hdefine, -⟩
  obtain ⟨m, rfl⟩ := Nat.exists_eq_add_of_le (show i + 1 ≤ d by omega)
  have hd := hdefine.lt_length
  have hmem : lines[i + 1 + m] ∈ (lines.drop (i + 1)).take 2 := by
    rw [List.mem_take_iff_getElem]
    exact ⟨m, by rw [List.length_drop]; omega, List.getElem_drop⟩
  have hother := List.findIdx?_eq_none_iff.mp h _ hmem
  rw [hdefine.of_getElem hd] at hother
  exact absurd hother (by simp)

/-- The first line of code, if the search for it finds one. -/
theorem code_of_findIdx? (h : lines.findIdx? (fun line => !isSkipped (strip line)) = some i) :
    (At lines i fun stripped => isSkipped stripped = false) ∧
      ∀ k < i, At lines k fun stripped => isSkipped stripped = true := by
  obtain ⟨hi, hread, hfirst⟩ := List.findIdx?_eq_some_iff_getElem.mp h
  rw [Bool.not_eq_true'] at hread
  refine ⟨at_getElem hi hread, ?_⟩
  intro k hk
  have hother := hfirst k hk
  rw [Bool.not_eq_true, Bool.not_eq_false'] at hother
  exact at_getElem (by omega) hother

theorem not_isGuard_of_findIdx?
    (h : lines.findIdx? (fun line => !isSkipped (strip line)) = none) (i : Nat) (guard : Str) :
    ¬ IsGuard isalnum lines i guard := by
  intro hguard
  have hi := hguard.ifndef.lt_length
  have hskipped := List.findIdx?_eq_none_iff.mp h _ (List.getElem_mem hi)
  rw [hguard.code.of_getElem hi] at hskipped
  exact absurd hskipped (by simp)

/-- What the search for the front returns. -/
theorem findGuard_spec (isalnum : Char → Bool) (lines : List Str) :
    (findGuard isalnum lines = (none, 0) ∧ ∀ i guard, ¬ IsGuard isalnum lines i guard) ∨
      ∃ i guard, IsGuard isalnum lines i guard ∧ (findGuard isalnum lines).1 = some guard ∧
        ((findGuard isalnum lines).2 = 0 ∧ (∀ d, ¬ IsDefine isalnum lines i guard d) ∨
          ∃ d, IsDefine isalnum lines i guard d ∧ (findGuard isalnum lines).2 = d + 1) := by
  cases hcode : lines.findIdx? (fun line => !isSkipped (strip line)) with
  | none => exact .inl ⟨by rw [findGuard, hcode], not_isGuard_of_findIdx? hcode⟩
  | some i =>
      obtain ⟨hread, hskipped⟩ := code_of_findIdx? hcode
      have hi := hread.lt_length
      have hline : (lines[i]?.bind fun line => matchIfndef isalnum (strip line)) =
          matchIfndef isalnum (strip lines[i]) := by
        rw [List.getElem?_eq_getElem hi, Option.bind_some]
      cases hifndef : matchIfndef isalnum (strip lines[i]) with
      | none =>
          refine .inl ⟨by rw [findGuard, hcode]; simp only [hline, hifndef], ?_⟩
          intro i' guard' hguard
          obtain rfl : i = i' := code_unique hread hskipped hguard.code hguard.skipped
          have hifndef' := (hguard.ifndef.of_getElem hi).2
          rw [hifndef] at hifndef'
          exact absurd hifndef' (by simp)
      | some guard =>
          have hguard : IsGuard isalnum lines i guard :=
            ⟨at_getElem hi ⟨hread.of_getElem hi, hifndef⟩, hskipped⟩
          refine .inr ⟨i, guard, hguard, ?_⟩
          cases hdefine : ((lines.drop (i + 1)).take 2).findIdx? (fun line =>
              matchDefine isalnum guard (strip line)) with
          | none =>
              have hresult : findGuard isalnum lines = (some guard, 0) := by
                rw [findGuard, hcode]
                simp only [hline, hifndef, hdefine]
              rw [hresult]
              exact ⟨rfl, .inl ⟨rfl, not_isDefine_of_findIdx? hdefine⟩⟩
          | some j =>
              have hresult : findGuard isalnum lines = (some guard, i + 1 + j + 1) := by
                rw [findGuard, hcode]
                simp only [hline, hifndef, hdefine]
              rw [hresult]
              exact ⟨rfl, .inr ⟨i + 1 + j, isDefine_of_findIdx? hdefine, rfl⟩⟩

/-- The search that tries the last number first. -/
theorem find?_reverse_range {n e : Nat} {p : Nat → Bool}
    (h : (List.range n).reverse.find? p = some e) :
    e < n ∧ p e = true ∧ ∀ k, e < k → k < n → p k = false := by
  obtain ⟨hfound, before, after, hsplit, hbefore⟩ := List.find?_eq_some_iff_append.mp h
  have hmem : ∀ k, k < n → k ∈ before ++ e :: after := by
    intro k hk
    rw [← hsplit, List.mem_reverse, List.mem_range]
    exact hk
  have hdescends : (before ++ e :: after).Pairwise (· > ·) := by
    rw [← hsplit, List.pairwise_reverse]
    exact List.pairwise_lt_range
  refine ⟨List.mem_range.mp (List.mem_of_find?_eq_some h |> List.mem_reverse.mp), hfound, ?_⟩
  intro k hek hkn
  rcases List.mem_append.mp (hmem k hkn) with hin | hin
  · have hother := hbefore k hin
    rwa [Bool.not_eq_true'] at hother
  · rcases List.mem_cons.mp hin with rfl | hin
    · exact absurd hek (Nat.lt_irrefl k)
    · have hlt := List.rel_of_pairwise_cons (List.pairwise_append.mp hdescends).2.1 hin
      exact absurd hek (Nat.lt_asymm hlt)

/-- What the search for the end returns. -/
theorem findEnd_spec (lines : List Str) (guard : Str) :
    findEnd lines (some guard) = lines.length ∧ (∀ e, ¬ IsLast lines guard e) ∨
      IsLast lines guard (findEnd lines (some guard)) := by
  have hany : ∀ k (hk : k < lines.length),
      (lines[k]?.any fun line => isEnd guard (strip line)) = isEnd guard (strip lines[k]) := by
    intro k hk
    rw [List.getElem?_eq_getElem hk, Option.any_some]
  cases hfind : (List.range lines.length).reverse.find? (fun i =>
      decide (lines.length - 5 < i) && lines[i]?.any fun line => isEnd guard (strip line)) with
  | none =>
      refine .inl ⟨by rw [findEnd, hfind, Option.getD_none], ?_⟩
      rintro e ⟨hwindow, hcloses, -⟩
      have he := hcloses.lt_length
      have hother := List.find?_eq_none.mp hfind e (by simpa using he)
      rw [hany e he, hcloses.of_getElem he, Bool.and_true, decide_eq_true_eq] at hother
      omega
  | some e =>
      right
      rw [findEnd, hfind, Option.getD_some]
      obtain ⟨he, hfound, hlast⟩ := find?_reverse_range hfind
      rw [hany e he, Bool.and_eq_true, decide_eq_true_eq] at hfound
      refine ⟨by omega, at_getElem he hfound.2, ?_⟩
      intro k hek hk
      have hother := hlast k hek hk
      have hin : decide (lines.length - 5 < k) = true := decide_eq_true (by omega)
      rw [hany k hk, hin, Bool.true_and] at hother
      exact at_getElem hk hother

theorem IsDefine.unique {d d' : Nat} (h : IsDefine isalnum lines i guard d)
    (h' : IsDefine isalnum lines i guard d') : d = d' := by
  rcases Nat.lt_trichotomy d d' with hlt | heq | hgt
  · exact (h.define.not_both (h'.first d h.behind.1 hlt)).elim
  · exact heq
  · exact (h'.define.not_both (h.first d' h'.behind.1 hgt)).elim

theorem IsLast.unique {e e' : Nat} (h : IsLast lines guard e) (h' : IsLast lines guard e') :
    e = e' := by
  rcases Nat.lt_trichotomy e e' with hlt | heq | hgt
  · exact (h'.closes.not_both (h.last e' hlt h'.closes.lt_length)).elim
  · exact heq
  · exact (h.closes.not_both (h'.last e hgt h.closes.lt_length)).elim

theorem back_iff (hk : k < lines.length) :
    (∃ e, IsLast lines guard e ∧ e ≤ k) ↔ findEnd lines (some guard) ≤ k := by
  rcases findEnd_spec lines guard with ⟨hlength, hnone⟩ | hlast
  · rw [hlength]
    constructor
    · rintro ⟨e, hlast, -⟩
      exact absurd hlast (hnone e)
    · intro hle
      exact absurd hk (Nat.not_lt.mpr hle)
  · constructor
    · rintro ⟨e, hlast', hek⟩
      rw [hlast.unique hlast']
      exact hek
    · intro hle
      exact ⟨_, hlast, hle⟩

theorem front_iff {start_idx : Nat}
    (h : start_idx = 0 ∧ (∀ d, ¬ IsDefine isalnum lines i guard d) ∨
      ∃ d, IsDefine isalnum lines i guard d ∧ start_idx = d + 1) :
    (∃ d, IsDefine isalnum lines i guard d ∧ k ≤ d) ↔ k < start_idx := by
  rcases h with ⟨rfl, hnone⟩ | ⟨d, hdefine, rfl⟩
  · constructor
    · rintro ⟨d, hdefine, -⟩
      exact absurd hdefine (hnone d)
    · intro hneg
      exact absurd hneg (Nat.not_lt_zero k)
  · rw [Nat.lt_succ_iff]
    constructor
    · rintro ⟨d', hdefine', hkd⟩
      rw [hdefine.unique hdefine']
      exact hkd
    · intro hkd
      exact ⟨d, hdefine, hkd⟩

/-- The two searches leave the lines that are not taken. -/
theorem taken_iff (isalnum : Char → Bool) (hk : k < lines.length) :
    Taken isalnum lines k ↔ k < (findGuard isalnum lines).2 ∨
      findEnd lines (findGuard isalnum lines).1 ≤ k := by
  rcases findGuard_spec isalnum lines with ⟨hresult, hnone⟩ | ⟨i, guard, hguard, hfound, hfront⟩
  · rw [hresult]
    constructor
    · rintro ⟨i, guard, hguard, -⟩
      exact absurd hguard (hnone i guard)
    · rintro (hstart | hend)
      · exact absurd hstart (Nat.not_lt_zero k)
      · exact absurd hk (Nat.not_lt.mpr hend)
  · rw [hfound, ← front_iff hfront, ← back_iff hk]
    constructor
    · rintro ⟨i', guard', hguard', htaken⟩
      obtain ⟨rfl, rfl⟩ := hguard.unique hguard'
      exact htaken
    · intro htaken
      exact ⟨i, guard, hguard, htaken⟩

theorem findEnd_le (lines : List Str) ( guard_macro : Option Str) :
    findEnd lines guard_macro ≤ lines.length := by
  cases guard_macro with
  | none => exact Nat.le_refl _
  | some guard =>
      rcases findEnd_spec lines guard with ⟨hlength, -⟩ | hlast
      · exact Nat.le_of_eq hlength
      · exact Nat.le_of_lt hlast.closes.lt_length

end Taken

section Pairs

/-- Of two directives that match, both are taken or neither is. -/
def PairsStay (isalnum : Char → Bool) (lines : List Str) : Prop :=
  ∀ a b, Matched conditional lines a b → (Taken isalnum lines a ↔ Taken isalnum lines b)

theorem balanced_between_iff {lines : List Str} (h : Balanced conditional lines)
    {start_idx end_idx : Nat} (hend : end_idx ≤ lines.length) :
    Balanced conditional ((lines.take end_idx).drop start_idx) ↔
      ∀ a b, Matched conditional lines a b →
        (a < start_idx ∨ end_idx ≤ a ↔ b < start_idx ∨ end_idx ≤ b) := by
  by_cases horder : start_idx ≤ end_idx
  · have hsplit : lines = lines.take start_idx ++
        ((lines.take end_idx).drop start_idx ++ lines.drop end_idx) := by
      have hfront : lines.take start_idx = (lines.take end_idx).take start_idx := by
        rw [List.take_take, Nat.min_eq_left horder]
      rw [hfront, ← List.append_assoc, List.take_append_drop, List.take_append_drop]
    have hinner : ∀ k, InPart (lines.take start_idx) ((lines.take end_idx).drop start_idx) k ↔
        ¬ (k < start_idx ∨ end_idx ≤ k) := by
      intro k
      rw [InPart, List.length_take, List.length_drop, List.length_take]
      omega
    rw [hsplit] at h
    rw [balanced_part_iff h, ← hsplit]
    constructor
    · intro hpairs a b hmatched
      have hpair := hpairs a b hmatched
      rw [hinner, hinner] at hpair
      exact not_iff_not.mp hpair
    · intro hpairs a b hmatched
      rw [hinner, hinner]
      exact not_congr (hpairs a b hmatched)
  · have hempty : (lines.take end_idx).drop start_idx = [] := by
      apply List.drop_eq_nil_of_le
      rw [List.length_take]
      omega
    rw [hempty]
    constructor
    · intro _ a b _
      constructor
      all_goals omega
    · intro _
      exact balanced_nil

theorem parse_header_balanced_iff (isalnum : Char → Bool) {lines : List Str}
    (h : Balanced conditional lines) :
    Balanced conditional (parse_header isalnum lines).2 ↔ PairsStay isalnum lines := by
  rw [balanced_body, balanced_between_iff h (findEnd_le lines _), PairsStay]
  refine forall₂_congr fun a b => forall_congr' fun hmatched => ?_
  obtain ⟨ha, hb⟩ := hmatched.lt_length
  rw [taken_iff isalnum ha, taken_iff isalnum hb]

end Pairs

section Merged

variable {isalnum : Char → Bool}

theorem writeHeader_eq (basenames sorted_includes : List Str) :
    ∃ front back, writeHeader basenames sorted_includes =
        front ++ "#ifndef SK_HEADER_ONLY_SKUTILS_H\n".toList :: back ∧
      (∀ piece ∈ front, conditional piece = .plain) ∧
      ∀ piece ∈ back, conditional piece = .plain := by
  refine ⟨(writeHeader basenames sorted_includes).take 7,
    (writeHeader basenames sorted_includes).drop 8, rfl, ?_, ?_⟩
  · simp only [writeHeader, List.cons_append, List.take_succ_cons, List.take_zero,
      List.forall_mem_cons]
    exact ⟨conditional_ofList rfl, conditional_ofList rfl, conditional_ofList rfl,
      conditional_ofList rfl, conditional_ofList rfl, rfl, rfl, List.forall_mem_nil _⟩
  · simp only [writeHeader, List.cons_append, List.drop_succ_cons, List.drop_zero,
      List.nil_append, List.forall_mem_cons, List.forall_mem_append, List.forall_mem_map]
    exact ⟨conditional_ofList rfl, rfl, rfl, conditional_ofList rfl, rfl, rfl,
      fun inc _ => rfl, rfl, List.forall_mem_nil _⟩

theorem balanced_writeSection (name : Str) {body : List Str}
    (h : Balanced conditional body) : Balanced conditional (writeSection name body) := by
  rw [writeSection, balanced_append_plain_right (by simp; rfl), balanced_append_plain_left]
  · exact h
  · intro piece hpiece
    simp only [List.mem_cons, List.not_mem_nil, or_false] at hpiece
    rcases hpiece with rfl | rfl | rfl | rfl
    all_goals rfl

theorem balanced_merge {input_files : List (Str × List Str)}
    (h : ∀ file ∈ input_files, Balanced conditional (parse_header isalnum file.2).2) :
    Balanced conditional (merge isalnum input_files) := by
  let parsed := input_files.map fun file => (basename file.1, parse_header isalnum file.2)
  let includes := (parsed.flatMap fun file => file.2.1).eraseDups.mergeSort
    fun a b => decide (a ≤ b)
  let sections := parsed.flatMap fun file => writeSection (section_name file.1) file.2.2
  have hmerge : merge isalnum input_files = writeHeader (parsed.map Prod.fst) includes ++
      sections ++ ["#endif  // SK_HEADER_ONLY_SKUTILS_H\n".toList] := rfl
  have hsections : Balanced conditional sections := by
    apply balanced_flatten
    intro written hwritten
    obtain ⟨file, hfile, rfl⟩ := List.mem_map.mp hwritten
    obtain ⟨source, hsource, rfl⟩ := List.mem_map.mp hfile
    exact balanced_writeSection _ (h source hsource)
  obtain ⟨front, back, hwrite, hfront, hback⟩ := writeHeader_eq (parsed.map Prod.fst) includes
  rw [hmerge, hwrite, List.append_assoc, List.append_assoc, balanced_append_plain_left hfront,
    List.cons_append, ← List.append_assoc]
  exact ((balanced_of_plain hback).append hsections).enclose rfl rfl

/-- The bodies, and with them the merged file, keep the balance of the headers when no pair of
directives is split. -/
theorem merge_balanced_iff (isalnum : Char → Bool) (input_files : List (Str × List Str))
    (h : ∀ file ∈ input_files, Balanced conditional file.2) :
    ((∀ file ∈ input_files, Balanced conditional (parse_header isalnum file.2).2) ∧
      Balanced conditional (input_files.flatMap fun file => (parse_header isalnum file.2).2) ∧
      Balanced conditional (merge isalnum input_files)) ↔
      ∀ file ∈ input_files, PairsStay isalnum file.2 := by
  constructor
  · rintro ⟨hbodies, -, -⟩ file hfile
    exact (parse_header_balanced_iff isalnum (h file hfile)).mp (hbodies file hfile)
  · intro hpairs
    have hbodies : ∀ file ∈ input_files,
        Balanced conditional (parse_header isalnum file.2).2 := by
      intro file hfile
      exact (parse_header_balanced_iff isalnum (h file hfile)).mpr (hpairs file hfile)
    refine ⟨hbodies, ?_, balanced_merge hbodies⟩
    apply balanced_flatten
    intro body hbody
    obtain ⟨file, hfile, rfl⟩ := List.mem_map.mp hbody
    exact hbodies file hfile

def guarded : List Str :=
  ["#ifndef A_H\n".toList, "#define A_H\n".toList, "#ifdef B\n".toList, "int f();\n".toList,
    "#endif\n".toList, "#endif // A_H\n".toList]

theorem balanced_conditional :
    Balanced conditional ["#ifdef B\n".toList, "int f();\n".toList, "#endif\n".toList] := by
  have hinner : Balanced conditional ["int f();\n".toList] := by
    apply balanced_of_plain
    simp only [List.mem_singleton, forall_eq]
    rfl
  exact hinner.enclose rfl rfl

theorem balanced_guarded : Balanced conditional guarded := by
  have hdefine : Balanced conditional ["#define A_H\n".toList] := by
    apply balanced_of_plain
    simp only [List.mem_singleton, forall_eq]
    rfl
  exact (hdefine.append balanced_conditional).enclose rfl rfl

theorem merge_balanced_guarded : Balanced conditional guarded ∧
    ∀ file ∈ [("a.h".toList, guarded)], PairsStay Char.isAlphanum file.2 := by
  have hbody : (parse_header Char.isAlphanum guarded).2 =
      ["#ifdef B\n".toList, "int f();\n".toList, "#endif\n".toList] := by
    decide
  have hbodies : ∀ file ∈ [("a.h".toList, guarded)],
      Balanced conditional (parse_header Char.isAlphanum file.2).2 := by
    simp only [List.mem_singleton, forall_eq]
    rw [hbody]
    exact balanced_conditional
  refine ⟨balanced_guarded, (merge_balanced_iff Char.isAlphanum _ ?_).mp ⟨hbodies, ?_, ?_⟩⟩
  · simp only [List.mem_singleton, forall_eq]
    exact balanced_guarded
  · rw [List.flatMap_singleton, hbody]
    exact balanced_conditional
  · exact balanced_merge hbodies

/-- A header whose `#endif` carries another comment than the name of the guard. -/
def commented : List Str :=
  ["#ifndef A_H\n".toList, "#define A_H\n".toList, "int f();\n".toList,
    "#endif // end of a.h\n".toList]

theorem balanced_commented : Balanced conditional commented := by
  have hinner : Balanced conditional ["#define A_H\n".toList, "int f();\n".toList] := by
    apply balanced_of_plain
    simp only [List.mem_cons, List.not_mem_nil, or_false, forall_eq_or_imp, forall_eq]
    exact ⟨rfl, rfl⟩
  exact hinner.enclose rfl rfl

theorem parse_header_commented : (parse_header Char.isAlphanum commented).2 =
    ["int f();\n".toList, "#endif // end of a.h\n".toList] := by
  decide

theorem merge_unbalanced : Balanced conditional commented ∧
    ¬ Balanced conditional (parse_header Char.isAlphanum commented).2 := by
  refine ⟨balanced_commented, ?_⟩
  intro hbody
  rw [parse_header_commented] at hbody
  exact absurd hbody.level_eq (by decide)

end Merged

end SkUtils.Scripts.HeaderBalance
