import SkUtils.Strings.StringUtils

/-!
`format` and `colorful_format` of `printer.h` on the texts of their arguments. Every
argument replaces the first placeholder of the whole buffer, which is searched again
from its start, so a placeholder that an earlier argument brought in is taken first.
-/

namespace SkUtils.Strings.Formatter

open SkUtils.Strings.StringUtils

/-- `std::string::find`. -/
def find (pattern : Str) : Str → Option Nat
  | [] => if pattern.isEmpty then some 0 else none
  | c :: str =>
      if pattern.isPrefixOf (c :: str) then some 0 else (find pattern str).map (· + 1)

def placeholder : Str :=
  ['{', '}']

def ansiClear : Str :=
  ['\x1b', '[', '0', 'm']

def ansiTemplateColor : Str :=
  ['\x1b', '[', '0', 'm']

def ansiKeyColor : Str :=
  ['\x1b', '[', '0', 'm', '\x1b', '[', '3', 'm']

/-- `replace_next` of the two functions, on their buffer `fmtStr`. -/
def replace_next (fmtStr val : Str) : Str :=
  match find placeholder fmtStr with
  | some pos => fmtStr.take pos ++ val ++ fmtStr.drop (pos + placeholder.length)
  | none => fmtStr

def format (fmt : Str) (args : List Str) : Str :=
  args.foldl replace_next fmt

def colored (val : Str) : Str :=
  ansiKeyColor ++ val ++ ansiTemplateColor

def colorful_format (fmt : Str) (args : List Str) : Str :=
  ansiTemplateColor ++ args.foldl (fun fmtStr val => replace_next fmtStr (colored val)) fmt ++
    ansiClear

section Positional

/-- The pieces of a format string between its placeholders. -/
def cuts : Str → List Str
  | [] => [[]]
  | '{' :: '}' :: rest => [] :: cuts rest
  | c :: rest =>
      match cuts rest with
      | [] => [[c]]
      | piece :: pieces => (c :: piece) :: pieces

/-- The pieces with the arguments between them, and placeholders where there is no
argument left. -/
def fill : List Str → List Str → Str
  | [], _ => []
  | [piece], _ => piece
  | piece :: pieces, [] => piece ++ placeholder ++ fill pieces []
  | piece :: pieces, arg :: args => piece ++ arg ++ fill pieces args

/-- The text that positional substitution gives. -/
def positional (fmt : Str) (args : List Str) : Str :=
  fill (cuts fmt) args

/-- The part of it in front of the place of the next argument, or all of it. -/
def front : List Str → List Str → Str
  | [], _ => []
  | [piece], _ => piece
  | piece :: _, [] => piece
  | piece :: pieces, arg :: args => piece ++ arg ++ front pieces args

/-- No placeholder stands in front of the place of the next argument. -/
def Clean (fmt : Str) (args : List Str) : Prop :=
  ¬ placeholder <:+: front (cuts fmt) args

end Positional

section Search

theorem placeholder_prefix_cons {c : Char} {rest : Str} :
    placeholder <+: c :: rest ↔ c = '{' ∧ ∃ tail, rest = '}' :: tail := by
  rw [placeholder, List.cons_prefix_cons]
  constructor
  · rintro ⟨rfl, tail, rfl⟩
    exact ⟨rfl, tail, rfl⟩
  · rintro ⟨rfl, tail, rfl⟩
    exact ⟨rfl, tail, rfl⟩

theorem find_eq_none {str : Str} (h : ¬ placeholder <:+: str) :
    find placeholder str = none := by
  induction str with
  | nil => rfl
  | cons c str ih =>
      have hstart : ¬ placeholder <+: c :: str := fun hbegins => h hbegins.isInfix
      have hrest : ¬ placeholder <:+: str := fun hinside =>
        h (hinside.trans (List.suffix_cons c str).isInfix)
      rw [find, if_neg (by simpa using hstart), ih hrest, Option.map_none]

/-- A placeholder cannot begin before another one and overlap it. -/
theorem find_eq_some {before : Str} (after : Str) (h : ¬ placeholder <:+: before) :
    find placeholder (before ++ placeholder ++ after) = some before.length := by
  induction before with
  | nil => rfl
  | cons c before ih =>
      have hrest : ¬ placeholder <:+: before := fun hinside =>
        h (hinside.trans (List.suffix_cons c before).isInfix)
      have hstart : ¬ placeholder <+: c :: (before ++ placeholder ++ after) := by
        rw [placeholder_prefix_cons]
        rintro ⟨rfl, tail, htail⟩
        cases before with
        | nil => simp [placeholder] at htail
        | cons d before =>
            obtain ⟨rfl, -⟩ := List.cons.inj htail
            exact h ⟨[], before, rfl⟩
      rw [List.cons_append, List.cons_append, find, if_neg (by simpa using hstart), ih hrest]
      rfl

theorem first_placeholder {str : Str} (h : placeholder <:+: str) :
    ∃ before after, str = before ++ placeholder ++ after ∧ ¬ placeholder <:+: before := by
  induction str with
  | nil => simp [placeholder] at h
  | cons c str ih =>
      by_cases hstart : placeholder <+: c :: str
      · obtain ⟨after, hafter⟩ := hstart
        exact ⟨[], after, hafter.symm, by simp [placeholder]⟩
      · have hrest : placeholder <:+: str := by
          rcases List.infix_cons_iff.mp h with hbegins | hinside
          · exact absurd hbegins hstart
          · exact hinside
        obtain ⟨before, after, rfl, hbefore⟩ := ih hrest
        refine ⟨c :: before, after, rfl, fun hinside => ?_⟩
        rcases List.infix_cons_iff.mp hinside with hbegins | hinside
        · refine hstart (hbegins.trans ?_)
          rw [List.append_assoc, ← List.cons_append]
          exact List.prefix_append _ _
        · exact hbefore hinside

theorem replace_next_of_first {before : Str} (after val : Str)
    (h : ¬ placeholder <:+: before) :
    replace_next (before ++ placeholder ++ after) val = before ++ val ++ after := by
  rw [replace_next, find_eq_some after h]
  simp

theorem replace_next_of_none {str : Str} (val : Str) (h : ¬ placeholder <:+: str) :
    replace_next str val = str := by
  rw [replace_next, find_eq_none h]

end Search

section Sufficient

theorem cuts_ne_nil (fmt : Str) : cuts fmt ≠ [] := by
  fun_induction cuts fmt <;> simp

theorem fill_cons (c : Char) (piece : Str) (pieces args : List Str) :
    fill ((c :: piece) :: pieces) args = c :: fill (piece :: pieces) args := by
  cases pieces with
  | nil => rfl
  | cons next pieces => cases args <;> rfl

theorem fill_nil (piece next : Str) (pieces : List Str) :
    fill (piece :: next :: pieces) [] = piece ++ placeholder ++ fill (next :: pieces) [] := rfl

theorem fill_arg (piece next arg : Str) (pieces args : List Str) :
    fill (piece :: next :: pieces) (arg :: args) =
      piece ++ arg ++ fill (next :: pieces) args := rfl

theorem front_arg (piece next arg : Str) (pieces args : List Str) :
    front (piece :: next :: pieces) (arg :: args) =
      piece ++ arg ++ front (next :: pieces) args := rfl

/-- Without arguments the placeholders stay as they are. -/
theorem fill_cuts (fmt : Str) : fill (cuts fmt) [] = fmt := by
  fun_induction cuts fmt with
  | case1 => rfl
  | case2 rest ih =>
      cases hcuts : cuts rest with
      | nil => exact absurd hcuts (cuts_ne_nil rest)
      | cons piece pieces =>
          rw [hcuts] at ih
          rw [fill_nil, ih]
          rfl
  | case3 c rest _ hcuts _ => exact absurd hcuts (cuts_ne_nil rest)
  | case4 c rest _ piece pieces hcuts ih =>
      rw [hcuts] at ih
      rw [fill_cons, ih]

/-- As long as the first placeholder of the buffer is the next one of the format string,
the loop places its arguments one after the other. -/
theorem foldl_replace_next {pieces : List Str} (hpieces : pieces ≠ []) {placed : Str}
    {args : List Str} (last : Str) (h : ¬ placeholder <:+: placed ++ front pieces args) :
    (args ++ [last]).foldl replace_next (placed ++ fill pieces []) =
      placed ++ fill pieces (args ++ [last]) := by
  induction args generalizing pieces placed with
  | nil =>
      match pieces, hpieces with
      | [piece], _ => exact replace_next_of_none last h
      | piece :: next :: pieces, _ =>
          have hnext := replace_next_of_first (fill (next :: pieces) []) last h
          simpa [fill_nil, fill_arg, front, List.append_assoc] using hnext
  | cons arg args ih =>
      match pieces, hpieces with
      | [piece], _ =>
          have hsame : replace_next (placed ++ fill [piece] []) arg = placed ++ fill [piece] [] :=
            replace_next_of_none arg h
          rw [List.cons_append, List.foldl_cons, hsame, ih (by simp) h]
          rfl
      | piece :: next :: pieces, _ =>
          have hcut : placed ++ front (piece :: next :: pieces) (arg :: args) =
              placed ++ piece ++ arg ++ front (next :: pieces) args := by
            simp only [front_arg, List.append_assoc]
          rw [hcut] at h
          have hplaced : ¬ placeholder <:+: placed ++ piece := by
            intro hinside
            rw [List.append_assoc (placed ++ piece)] at h
            exact h (hinside.trans (List.prefix_append _ _).isInfix)
          have hnext := replace_next_of_first (fill (next :: pieces) []) arg hplaced
          rw [List.cons_append, List.foldl_cons, fill_nil, fill_arg, ← List.append_assoc,
            ← List.append_assoc, hnext, ih (by simp) h]
          simp only [List.append_assoc]

theorem format_eq_positional {fmt : Str} {args : List Str} (h : Clean fmt args) (last : Str) :
    format fmt (args ++ [last]) = positional fmt (args ++ [last]) := by
  have hplaces : (args ++ [last]).foldl replace_next ([] ++ fill (cuts fmt) []) =
      [] ++ fill (cuts fmt) (args ++ [last]) :=
    foldl_replace_next (cuts_ne_nil fmt) last h
  rwa [List.nil_append, List.nil_append, fill_cuts] at hplaces

end Sufficient

section Necessary

/-- What the last argument does to the positional text. -/
theorem fill_last (pieces args : List Str) :
    (∃ after, ∀ last, fill pieces (args ++ [last]) = front pieces args ++ last ++ after) ∨
      ∀ last, fill pieces (args ++ [last]) = front pieces args := by
  induction args generalizing pieces with
  | nil =>
      match pieces with
      | [] => exact .inr fun _ => rfl
      | [piece] => exact .inr fun _ => rfl
      | piece :: next :: pieces =>
          exact .inl ⟨fill (next :: pieces) [], fun last => fill_arg piece next last pieces []⟩
  | cons arg args ih =>
      match pieces with
      | [] => exact .inr fun _ => rfl
      | [piece] => exact .inr fun _ => rfl
      | piece :: next :: pieces =>
          rcases ih (next :: pieces) with ⟨after, hafter⟩ | hsame
          · refine .inl ⟨after, fun last => ?_⟩
            rw [List.cons_append, fill_arg, hafter, front_arg]
            simp only [List.append_assoc]
          · refine .inr fun last => ?_
            rw [List.cons_append, fill_arg, hsame, front_arg]

variable {before before' after after' : Str} (pre post : Str)

theorem le_of_splice_eq
    (h : ∀ c, before ++ (pre ++ [c] ++ post) ++ after = before' ++ (pre ++ [c] ++ post) ++ after') :
    before'.length ≤ before.length := by
  by_contra hlt
  have hat : ∀ c, (before' ++ pre)[before.length + pre.length]? = some c := by
    intro c
    have hleft : (before ++ (pre ++ [c] ++ post) ++ after)[before.length + pre.length]? =
        some c := by
      simp
    rw [h c] at hleft
    have hin : before.length + pre.length < (before' ++ pre).length := by
      simp only [List.length_append]
      omega
    rw [← hleft, show before' ++ (pre ++ [c] ++ post) ++ after' =
      (before' ++ pre) ++ ([c] ++ post ++ after') by simp, List.getElem?_append_left hin]
  have hboth := (hat 'a').symm.trans (hat 'b')
  simp at hboth

/-- A text inserted at two places gives the same result only if the places agree. -/
theorem splice_eq
    (h : ∀ val, before ++ (pre ++ val ++ post) ++ after =
      before' ++ (pre ++ val ++ post) ++ after') : before = before' := by
  have hlength : before.length = before'.length :=
    Nat.le_antisymm (le_of_splice_eq pre post fun c => (h [c]).symm)
      (le_of_splice_eq pre post fun c => h [c])
  have hempty := h []
  rw [List.append_assoc, List.append_assoc before'] at hempty
  exact List.append_inj_left hempty hlength

theorem clean_of_forall {fmt : Str} {args : List Str}
    (h : ∀ val, format fmt (args ++ [pre ++ val ++ post]) =
      positional fmt (args ++ [pre ++ val ++ post])) : Clean fmt args := by
  have hgrows : ∀ before after whole : Str,
      ¬ ∀ val, before ++ (pre ++ val ++ post) ++ after = whole := by
    intro before after whole hwhole
    have hempty := congrArg List.length (hwhole [])
    have hletter := congrArg List.length (hwhole ['a'])
    simp only [List.length_append, List.length_nil, List.length_singleton] at hempty hletter
    omega
  have hlast : ∀ val, format fmt (args ++ [val]) = replace_next (format fmt args) val := by
    simp [format]
  simp only [hlast, positional] at h
  intro hdirty
  by_cases hbuffer : placeholder <:+: format fmt args
  · obtain ⟨before, after, hcut, hbefore⟩ := first_placeholder hbuffer
    simp only [hcut, replace_next_of_first after _ hbefore] at h
    rcases fill_last (cuts fmt) args with ⟨after', hfill⟩ | hfill
    · simp only [hfill] at h
      rw [← splice_eq pre post h] at hdirty
      exact hbefore hdirty
    · simp only [hfill] at h
      exact hgrows before after _ h
  · simp only [replace_next_of_none _ hbuffer] at h
    rcases fill_last (cuts fmt) args with ⟨after', hfill⟩ | hfill
    · simp only [hfill] at h
      exact hgrows _ after' _ fun val => (h val).symm
    · simp only [hfill] at h
      rw [h []] at hbuffer
      exact hbuffer hdirty

end Necessary

section Colorful

/-- Positional substitution of the coloured arguments. -/
def colorful_positional (fmt : Str) (args : List Str) : Str :=
  ansiTemplateColor ++ positional fmt (args.map colored) ++ ansiClear

theorem colorful_format_eq (fmt : Str) (args : List Str) :
    colorful_format fmt args =
      ansiTemplateColor ++ format fmt (args.map colored) ++ ansiClear := by
  rw [colorful_format, format, List.foldl_map]

theorem colorful_format_eq_iff (fmt : Str) (args : List Str) :
    colorful_format fmt args = colorful_positional fmt args ↔
      format fmt (args.map colored) = positional fmt (args.map colored) := by
  rw [colorful_format_eq, colorful_positional, List.append_cancel_right_eq,
    List.append_cancel_left_eq]

end Colorful

/-- Whatever the last argument is, it is placed by position exactly when no placeholder
stands in front of its place: neither in an earlier argument nor formed by one together
with the text around it. -/
theorem format_positional_iff (fmt : Str) (args : List Str) :
    ((∀ last, format fmt (args ++ [last]) = positional fmt (args ++ [last])) ↔
      Clean fmt args) ∧
    ((∀ last, colorful_format fmt (args ++ [last]) =
        colorful_positional fmt (args ++ [last])) ↔ Clean fmt (args.map colored)) ∧
    format fmt [] = positional fmt [] ∧
    colorful_format fmt [] = colorful_positional fmt [] := by
  refine ⟨⟨fun h => ?_, format_eq_positional⟩, ⟨fun h => ?_, fun h last => ?_⟩, ?_, ?_⟩
  · exact clean_of_forall [] [] fun val => by simpa using h val
  · refine clean_of_forall ansiKeyColor ansiTemplateColor fun val => ?_
    have hval := (colorful_format_eq_iff fmt _).mp (h val)
    simpa [colored] using hval
  · rw [colorful_format_eq_iff, List.map_append]
    exact format_eq_positional h (colored last)
  · exact (fill_cuts fmt).symm
  · rw [colorful_format_eq_iff]
    exact (fill_cuts fmt).symm

/-- The first argument is a pair of braces, and the second one goes there. -/
theorem format_not_positional : ¬ ∀ fmt args, format fmt args = positional fmt args := by
  intro h
  have hbraces := h "\x7b\x7d \x7b\x7d".toList ["\x7b\x7d".toList, "x".toList]
  revert hbraces
  decide

end SkUtils.Strings.Formatter
