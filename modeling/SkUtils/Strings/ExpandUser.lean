import SkUtils.Strings.StringSplit

/-!
`expandUser` of `string_utils.h`. It replaces the pattern `~` by the home directory with
`std::regex_replace`, which replaces every match.
-/

namespace SkUtils.Strings.ExpandUser

open SkUtils.Strings.StringSplit (startWith)
open SkUtils.Strings.StringUtils (Str)

/-- A `std::string` of a null pointer. -/
inductive Fault
  | logicError
deriving DecidableEq

/-- Group 0 is the match; a pattern of ordinary characters has no others. -/
def group (matched : Str) (number : Nat) : Str :=
  if number = 0 then matched else []

/-- What `std::match_results::format` makes of a format. `before` is the text since the
match before this one, `after` the text behind it. -/
def format (matched before after : Str) : Str → Str
  | [] => []
  | [c] => [c]
  | c :: d :: fmt =>
      if c ≠ '$' then c :: format matched before after (d :: fmt)
      else if d = '$' then '$' :: format matched before after fmt
      else if d = '&' then matched ++ format matched before after fmt
      else if d = '\x60' then before ++ format matched before after fmt
      else if d = '\x27' then after ++ format matched before after fmt
      else if d.isDigit then
        match fmt with
        | [] => group matched (d.toNat - '0'.toNat)
        | e :: fmt =>
            if e.isDigit then
              group matched ((d.toNat - '0'.toNat) * 10 + (e.toNat - '0'.toNat)) ++
                format matched before after fmt
            else group matched (d.toNat - '0'.toNat) ++ format matched before after (e :: fmt)
      else '$' :: format matched before after (d :: fmt)

/-- `std::regex_replace` from a position on, for a pattern of ordinary characters that is
not empty. The first `skip` characters belong to the last match, `before` is the text
behind it. -/
def regexReplace (pattern replacer : Str) : Nat → Str → Str → Str
  | _, before, [] => before
  | skip + 1, before, _ :: rest => regexReplace pattern replacer skip before rest
  | 0, before, c :: rest =>
      if pattern.isPrefixOf (c :: rest) then
        before ++ format pattern before ((c :: rest).drop pattern.length) replacer ++
          regexReplace pattern replacer (pattern.length - 1) [] rest
      else regexReplace pattern replacer 0 (before ++ [c]) rest

def replace (str pattern replacer : Str) : Str :=
  regexReplace pattern replacer 0 [] str

/-- `home_dir` is what `getenv` returns. -/
def expandUser (home_dir : Option Str) (path : Str) : Except Fault Str :=
  if startWith path ['~'] then
    match home_dir with
    | some home_dir => return replace path ['~'] home_dir
    | none => throw .logicError
  else return path

section Replacement

variable {home : Str}

theorem format_of_plain (matched before after : Str) {fmt : Str} (h : '$' ∉ fmt) :
    format matched before after fmt = fmt := by
  induction fmt with
  | nil => rfl
  | cons c fmt ih =>
      obtain ⟨hc, hfmt⟩ := not_or.mp (List.mem_cons.not.mp h)
      cases fmt with
      | nil => rfl
      | cons d fmt =>
          rw [format.eq_def]
          dsimp only
          rw [if_pos (Ne.symm hc), ih hfmt]

/-- Every tilde gives way to `home`. -/
def substitute (home str : Str) : Str :=
  str.flatMap fun c => if c = '~' then home else [c]

theorem regexReplace_tilde (hhome : '$' ∉ home) (before rest : Str) :
    regexReplace ['~'] home 0 before rest = before ++ substitute home rest := by
  induction rest generalizing before with
  | nil => simp [regexReplace, substitute]
  | cons c rest ih =>
      by_cases hc : c = '~'
      · subst c
        have hmatch : ['~'].isPrefixOf ('~' :: rest) = true := by simp
        rw [regexReplace, if_pos hmatch, format_of_plain _ _ _ hhome]
        simp [ih, substitute]
      · have hmatch : ¬ ['~'].isPrefixOf (c :: rest) = true := by simp [Ne.symm hc]
        rw [regexReplace, if_neg hmatch, ih]
        simp [substitute, hc]

theorem length_substitute (home str : Str) :
    (substitute home str).length + str.count '~' = str.length + str.count '~' * home.length := by
  induction str with
  | nil => simp [substitute]
  | cons c str ih =>
      by_cases hc : c = '~'
      · subst c
        have hstep : substitute home ('~' :: str) = home ++ substitute home str := by
          simp [substitute]
        rw [hstep, List.count_cons_self, List.length_append, List.length_cons, Nat.add_mul]
        omega
      · have hstep : substitute home (c :: str) = c :: substitute home str := by
          simp [substitute, hc]
        rw [hstep, List.count_cons_of_ne hc, List.length_cons, List.length_cons]
        omega

theorem substitute_eq_self_iff (home str : Str) :
    substitute home str = str ↔ '~' ∉ str ∨ home = ['~'] := by
  constructor
  · intro h
    by_cases hmem : '~' ∈ str
    · right
      have hlength := length_substitute home str
      rw [h, Nat.add_left_cancel_iff] at hlength
      have hcount : 0 < str.count '~' := List.count_pos_iff.mpr hmem
      obtain ⟨x, rfl⟩ := List.length_eq_one_iff.mp (Nat.eq_of_mul_eq_mul_left hcount
        (hlength.symm.trans (Nat.mul_one _).symm))
      have hmap : str.map (fun c => if c = '~' then x else c) = str.map id := by
        rw [List.map_id]
        refine Eq.trans ?_ h
        rw [substitute, List.map_eq_flatMap]
        congr 1
        funext c
        split <;> rfl
      have htilde := List.map_inj_left.mp hmap '~' hmem
      rw [if_pos rfl] at htilde
      rw [htilde]
      rfl
    · exact .inl hmem
  · intro h
    have hletters : ∀ c ∈ str, (if c = '~' then home else [c]) = [c] := by
      intro c hc
      split
      case isTrue heq =>
          rcases h with hmem | rfl
          · exact absurd (heq ▸ hc) hmem
          · rw [heq]
      case isFalse => rfl
    rw [substitute, List.flatMap_congr hletters, List.flatMap_singleton']

end Replacement

/-- The home directory in place of a leading tilde. -/
def expanded (home path : Str) : Str :=
  if startWith path ['~'] then home ++ path.tail else path

theorem expandUser_iff (home path : Str) (hhome : '$' ∉ home) :
    expandUser (some home) path = .ok (expanded home path) ↔
      (path.head? = some '~' → '~' ∉ path.tail ∨ home = ['~']) := by
  rw [← List.singleton_prefix_iff_head?_eq_some, ← List.isPrefixOf_iff_prefix]
  by_cases htilde : ['~'].isPrefixOf path = true
  · obtain ⟨rest, rfl⟩ := List.isPrefixOf_iff_prefix.mp htilde
    have hreplace : replace (['~'] ++ rest) ['~'] home = home ++ substitute home rest := by
      rw [replace, regexReplace_tilde hhome]
      simp [substitute]
    simp only [expandUser, expanded, startWith, htilde, if_true, hreplace, forall_const]
    rw [List.singleton_append, List.tail_cons, ← substitute_eq_self_iff]
    constructor
    · intro h
      exact List.append_cancel_left (Except.ok.inj h)
    · intro h
      rw [h]
      rfl
  · simp [expandUser, expanded, startWith, htilde, pure, Except.pure]

theorem expandUser_src : expandUser (some "/home/u".toList) "~/src".toList =
    .ok "/home/u/src".toList :=
  (expandUser_iff "/home/u".toList "~/src".toList (by simp)).mpr fun _ => .inl (by simp)

/-- The copy that an editor keeps. -/
theorem expandUser_backup :
    ¬ ∀ home path : Str, '$' ∉ home → expandUser (some home) path = .ok (expanded home path) := by
  intro h
  have hbackup : expandUser (some "/h".toList) "~/a~".toList = .ok "/h/a/h".toList := by decide
  have hexpanded := h "/h".toList "~/a~".toList (by simp)
  rw [hbackup] at hexpanded
  exact absurd (congrArg List.length (Except.ok.inj hexpanded)) (by decide)

end SkUtils.Strings.ExpandUser
