import SkUtils.Containers.GraphComponents
import SkUtils.Library.Brackets
import SkUtils.Library.ForestListing
import SkUtils.Library.LongestMatch
import SkUtils.Strings.Printer

/-!
`toString` of `UnionFindSet<int>`: a line for each root, in which the children of an
element follow it in parentheses.
-/

namespace SkUtils.Containers.UnionFindPrinting

open SkUtils.Library.Brackets
open SkUtils.Library.ForestListing
open SkUtils.Library.LongestMatch
open SkUtils.Library.ParentForest
open SkUtils.Library.UniqueReadability
open SkUtils.Containers.UnionFindSetInt
open SkUtils.Containers.UnionFindConnectivity
open SkUtils.Strings.Printer (decimal isDigit_of_mem toDigits_injective)
open SkUtils.Strings.StringUtils (Str)

variable {n : Nat}

/-- `ss << a`. -/
def number (a : Fin n) : Str :=
  decimal a.val

/-- The end of `toStringHelper`: a comma gives way to the closing parenthesis, and what has
no children loses `-(`. -/
def close (ret : Str) : Str :=
  if ret.getLast? = some ',' then ret.dropLast ++ [')'] else ret.dropLast.dropLast

/-- `toStringHelper`, cut off at a depth of `fuel` calls. -/
def toStringHelper (parent : Vector (Fin n) n) : Nat → Fin n → Option Str
  | 0, _ => none
  | fuel + 1, a => do
      let ss := number a ++ ['-', '(']
      let ret ← (List.finRange n).foldlM (fun ss i =>
        if parentFn parent i = a ∧ i ≠ a then do
          return ss ++ (← toStringHelper parent fuel i) ++ [',']
        else some ss) ss
      return close ret

def top (s : UnionFindSet n) : List (Fin n) :=
  (List.finRange n).filter fun i => parentFn s.parent i = i

def toString (s : UnionFindSet n) : Option Str :=
  (top s).foldlM (fun ss k => do return ss ++ (← toStringHelper s.parent n k) ++ ['\n']) []

/-- The sets that the constructors and the calls make. -/
inductive Reachable : {n : Nat} → UnionFindSet n → Prop
  | ofSize (n : Nat) : Reachable (ofSize n)
  | ofGraph (g : IntGraph.Graph) {s : UnionFindSet g.nodeNum}
      (made : GraphComponents.ofGraph g = some s) : Reachable s
  | apply {n : Nat} {s s' : UnionFindSet n} {op : Operation n} (reachable : Reachable s)
      (called : apply s op = some s') : Reachable s'

theorem Reachable.invariant {s : UnionFindSet n} (h : Reachable s) : ∃ rel, Invariant s rel := by
  induction h with
  | ofSize n => exact ⟨_, invariant_ofSize⟩
  | ofGraph g made =>
      obtain ⟨s', hmade, hinv⟩ := GraphComponents.ofGraph_spec g
      obtain rfl := Option.some.inj (hmade.symm.trans made)
      exact ⟨_, hinv⟩
  | @apply n s s' op _ called ih =>
      obtain ⟨rel, hinv⟩ := ih
      obtain ⟨s'', hcalled, hinv'⟩ := hinv.apply op
      obtain rfl := Option.some.inj (hcalled.symm.trans called)
      exact ⟨_, hinv'⟩

section Rendering

variable {parent : Vector (Fin n) n}

/-- The text of an element and of what is below it. -/
def render (parent : Vector (Fin n) n) : Nat → Fin n → Str
  | 0, _ => []
  | fuel + 1, a =>
      number a ++ if children (parentFn parent) (List.finRange n) a = [] then [] else
        '-' :: '(' :: listing [','] [')']
          ((children (parentFn parent) (List.finRange n) a).map (render parent fuel))

theorem foldlM_append {f : Fin n → Option Str} {g : Fin n → Str} (sep : Str)
    {is : List (Fin n)} (h : ∀ i ∈ is, f i = some (g i)) (ss : Str) :
    is.foldlM (fun ss i => do return ss ++ (← f i) ++ sep) ss =
      some (ss ++ (is.map g).flatMap fun word => word ++ sep) := by
  induction is generalizing ss with
  | nil => simp
  | cons i is ih =>
      obtain ⟨hi, his⟩ := List.forall_mem_cons.mp h
      rw [List.foldlM_cons, hi]
      refine (ih his (ss ++ g i ++ sep)).trans ?_
      simp

theorem foldlM_children {f : Fin n → Option Str} (a : Fin n) (is : List (Fin n)) (ss : Str) :
    is.foldlM (fun ss i =>
      if parentFn parent i = a ∧ i ≠ a then do return ss ++ (← f i) ++ [','] else some ss) ss =
      (children (parentFn parent) is a).foldlM (fun ss i => do
        return ss ++ (← f i) ++ [',']) ss := by
  rw [children, List.foldlM_filter]
  congr 1
  funext ss i
  exact if_congr (decide_eq_true_iff (p := parentFn parent i = a ∧ i ≠ a)).symm rfl rfl

theorem close_listing (before : Str) (words : List Str) :
    close (before ++ listing [','] [','] words) = before ++ listing [','] [')'] words := by
  have hcut : ∀ closing, before ++ listing [','] closing words =
      before ++ listing [','] [] words ++ closing := by
    intro closing
    rw [List.append_assoc, listing_append, List.nil_append]
  rw [hcut [','], hcut [')'], close, List.getLast?_concat, if_pos rfl, List.dropLast_concat]

theorem toStringHelper_eq {fuel : Nat} {a : Fin n} (h : Suffices (parentFn parent) fuel a n) :
    toStringHelper parent fuel a = some (render parent fuel a) := by
  induction fuel generalizing a with
  | zero => exact absurd h.fuel_pos (Nat.lt_irrefl 0)
  | succ fuel ih =>
      have hchildren : ∀ i ∈ children (parentFn parent) (List.finRange n) a,
          toStringHelper parent fuel i = some (render parent fuel i) := by
        intro i hi
        obtain ⟨-, hparent, hne⟩ := mem_children.mp hi
        exact ih (h.child hparent hne)
      rw [toStringHelper, render, foldlM_children, foldlM_append [','] hchildren,
        Option.bind_eq_bind, Option.bind_some]
      by_cases hleaf : children (parentFn parent) (List.finRange n) a = []
      · rw [if_pos hleaf, hleaf, List.append_nil]
        exact congrArg some (by simp [close])
      · rw [if_neg hleaf, ← listing_eq_flatMap (by simpa using hleaf), close_listing]
        simp

end Rendering

section Contents

variable {parent : Vector (Fin n) n}

def NotDigit (c : Char) : Prop :=
  c.isDigit = false

instance : DecidablePred NotDigit :=
  fun c => inferInstanceAs (Decidable (c.isDigit = false))

/-- The maximal runs of digits. -/
def numbers (text : Str) : List Str :=
  segments (marked NotDigit text)

def parenthesis (c : Char) : Bracket :=
  if c = '(' then .opening else if c = ')' then .closing else .plain

theorem isDigit_of_mem_number {a : Fin n} {c : Char} (h : c ∈ number a) : c.isDigit = true :=
  isDigit_of_mem h

theorem number_ne_nil (a : Fin n) : number a ≠ [] :=
  Nat.toDigits_ne_nil

theorem number_injective : Function.Injective (number : Fin n → Str) :=
  fun _ _ h => Fin.ext (toDigits_injective h)

theorem notDigit_hyphen : NotDigit '-' := rfl

theorem notDigit_comma : NotDigit ',' := rfl

theorem notDigit_opening : NotDigit '(' := rfl

theorem notDigit_closing : NotDigit ')' := rfl

theorem numbers_cons {c : Char} (hc : NotDigit c) (rest : Str) :
    numbers (c :: rest) = numbers rest :=
  segments_marked_append hc [] rest

theorem numbers_append {c : Char} (hc : NotDigit c) (word rest : Str) :
    numbers (word ++ c :: rest) = numbers word ++ numbers (c :: rest) := by
  rw [numbers_cons hc]
  exact segments_marked_append hc word rest

theorem numbers_number (a : Fin n) : numbers (number a) = [number a] := by
  have hdigits : ∀ c ∈ number a, ¬ NotDigit c := by
    intro c hc
    simp [NotDigit, isDigit_of_mem_number hc]
  rw [numbers, segments, segmentsFrom_letters [] hdigits, List.nil_append,
    closed_of_ne_nil (number_ne_nil a)]

theorem numbers_separated (words : List Str) :
    numbers (separated [','] [')'] words) = words.flatMap numbers := by
  induction words with
  | nil => exact numbers_cons notDigit_closing []
  | cons word words ih =>
      rw [separated, List.singleton_append, numbers_cons notDigit_comma, List.flatMap_cons, ← ih]
      cases words with
      | nil => exact numbers_append notDigit_closing _ _
      | cons next words => exact numbers_append notDigit_comma _ _

theorem numbers_listing {words : List Str} (hne : words ≠ []) :
    numbers (listing [','] [')'] words) = words.flatMap numbers := by
  cases words with
  | nil => exact absurd rfl hne
  | cons word words =>
      rw [listing, List.flatMap_cons, ← numbers_separated]
      cases words with
      | nil => exact numbers_append notDigit_closing _ _
      | cons next words => exact numbers_append notDigit_comma _ _

/-- The numbers of a rendering are the elements from the top, in the order of the scans. -/
theorem numbers_render (fuel : Nat) (a : Fin n) :
    numbers (render parent fuel a) =
      (descend (parentFn parent) (List.finRange n) fuel a).map number := by
  induction fuel generalizing a with
  | zero => rfl
  | succ fuel ih =>
      rw [render, descend]
      by_cases hleaf : children (parentFn parent) (List.finRange n) a = []
      · rw [if_pos hleaf, List.append_nil, hleaf, numbers_number]
        rfl
      · rw [if_neg hleaf, numbers_append notDigit_hyphen, numbers_number,
          numbers_cons notDigit_hyphen, numbers_cons notDigit_opening,
          numbers_listing (by simpa using hleaf), List.flatMap_map, List.map_cons,
          List.map_flatMap]
        exact congrArg _ (List.flatMap_congr fun c _ => ih c)

theorem parenthesis_eq_plain {c : Char} (h : c ≠ '(') (h' : c ≠ ')') :
    parenthesis c = .plain := by
  rw [parenthesis, if_neg h, if_neg h']

theorem balanced_number (a : Fin n) : Balanced parenthesis (number a) := by
  refine balanced_of_plain fun c hc => parenthesis_eq_plain ?_ ?_ <;>
  · rintro rfl
    exact absurd (isDigit_of_mem_number hc) (by decide)

theorem balanced_separated {words : List Str} (h : ∀ word ∈ words, Balanced parenthesis word) :
    Balanced parenthesis (separated [','] [] words) := by
  induction words with
  | nil => exact balanced_nil
  | cons word words ih =>
      obtain ⟨hword, hwords⟩ := List.forall_mem_cons.mp h
      exact (balanced_of_plain (by simp [parenthesis])).append (hword.append (ih hwords))

theorem balanced_listing {words : List Str} (h : ∀ word ∈ words, Balanced parenthesis word) :
    Balanced parenthesis (listing [','] [] words) := by
  cases words with
  | nil => exact balanced_nil
  | cons word words =>
      obtain ⟨hword, hwords⟩ := List.forall_mem_cons.mp h
      exact hword.append (balanced_separated hwords)

theorem balanced_render (fuel : Nat) (a : Fin n) :
    Balanced parenthesis (render parent fuel a) := by
  induction fuel generalizing a with
  | zero => exact balanced_nil
  | succ fuel ih =>
      rw [render]
      refine (balanced_number a).append ?_
      by_cases hleaf : children (parentFn parent) (List.finRange n) a = []
      · rw [if_pos hleaf]
        exact balanced_nil
      · have hwords : ∀ word ∈ (children (parentFn parent) (List.finRange n) a).map
            (render parent fuel), Balanced parenthesis word := by
          intro word hword
          obtain ⟨i, -, rfl⟩ := List.mem_map.mp hword
          exact ih i
        have hhyphen : Balanced parenthesis ['-'] := balanced_of_plain (by simp [parenthesis])
        rw [if_neg hleaf, ← List.nil_append [')'], ← listing_append]
        exact hhyphen.append ((balanced_listing hwords).enclose rfl rfl)

theorem notMem_number (a : Fin n) : '\n' ∉ number a :=
  fun hmem => absurd (isDigit_of_mem_number hmem) (by decide)

theorem notMem_render (fuel : Nat) (a : Fin n) : '\n' ∉ render parent fuel a := by
  induction fuel generalizing a with
  | zero => exact List.not_mem_nil
  | succ fuel ih =>
      intro hmem
      rw [render] at hmem
      rcases List.mem_append.mp hmem with hnumber | hrest
      · exact notMem_number a hnumber
      · split at hrest
        · cases hrest
        · rcases (List.mem_append (s := ['-', '('])).mp hrest with hopen | hlist
          · exact absurd hopen (by decide)
          · rcases mem_listing hlist with hcomma | hclose | ⟨word, hword, hmem⟩
            · exact absurd hcomma (by decide)
            · exact absurd hclose (by decide)
            · obtain ⟨i, -, rfl⟩ := List.mem_map.mp hword
              exact ih i hmem

end Contents

section Lines

variable {s : UnionFindSet n}

theorem mem_top {r : Fin n} : r ∈ top s ↔ IsRoot (parentFn s.parent) r := by
  simp [top, IsRoot]

theorem nodup_top : (top s).Nodup :=
  (List.nodup_finRange n).filter _

theorem suffices_top (hforest : Forest (parentFn s.parent)) {r : Fin n} (hr : r ∈ top s) :
    Suffices (parentFn s.parent) n r n where
  bounded := fun _ _ hd => (hd.lt_card hforest).trans_eq (Fintype.card_fin n)
  enough := fun d _ => Nat.le_add_right n d
  deep := ⟨0, .root (mem_top.mp hr)⟩

/-- The line of a root lists its tree. -/
theorem mem_line (hforest : Forest (parentFn s.parent)) {r : Fin n} (hr : r ∈ top s)
    (i : Fin n) : number i ∈ numbers (render s.parent n r) ↔ RootOf (parentFn s.parent) i r := by
  rw [numbers_render, List.mem_map_of_injective number_injective,
    mem_descend List.mem_finRange (suffices_top hforest hr), under_iff_rootOf (mem_top.mp hr)]

theorem lines_perm (hforest : Forest (parentFn s.parent)) :
    (((top s).map (render s.parent n)).flatMap numbers).Perm ((List.finRange n).map number) := by
  have hlines : ((top s).map (render s.parent n)).flatMap numbers =
      ((top s).flatMap (descend (parentFn s.parent) (List.finRange n) n)).map number := by
    rw [List.flatMap_map, List.map_flatMap]
    exact List.flatMap_congr fun r _ => numbers_render n r
  have hmem : ∀ r ∈ top s, ∀ i, i ∈ descend (parentFn s.parent) (List.finRange n) n r ↔
      RootOf (parentFn s.parent) i r := by
    intro r hr i
    rw [mem_descend List.mem_finRange (suffices_top hforest hr), under_iff_rootOf (mem_top.mp hr)]
  rw [hlines]
  apply List.Perm.map
  rw [List.perm_ext_iff_of_nodup ?_ (List.nodup_finRange n)]
  · intro i
    obtain ⟨r, hr⟩ := hforest i
    have htop : r ∈ top s := mem_top.mpr hr.isRoot
    simp only [List.mem_flatMap, List.mem_finRange, iff_true]
    exact ⟨r, htop, (hmem r htop i).mpr hr⟩
  · rw [List.nodup_flatMap]
    refine ⟨fun r hr => nodup_descend List.mem_finRange (List.nodup_finRange n)
      (suffices_top hforest hr), ?_⟩
    refine nodup_top.pairwise_of_forall_ne fun r hr r' hr' hne i hi hi' => hne ?_
    exact ((hmem r hr i).mp hi).unique ((hmem r' hr' i).mp hi')

theorem length_top (hcnt : s.cnt = Nat.card {r // IsRoot (parentFn s.parent) r}) :
    ((top s).length : Int) = s.cnt := by
  have hroots : ∀ r, r ∈ (top s).toFinset ↔ IsRoot (parentFn s.parent) r := by
    intro r
    rw [List.mem_toFinset, mem_top]
  rw [hcnt, Nat.subtype_card (top s).toFinset hroots, List.toFinset_card_of_nodup nodup_top]

end Lines

/-- The lines of the text of `s`: every index is once on the line of its root. -/
structure Lists (s : UnionFindSet n) (lines : List Str) : Prop where
  count : (lines.length : Int) = s.cnt
  plain : ∀ line ∈ lines, '\n' ∉ line
  balanced : ∀ line ∈ lines, Balanced parenthesis line
  once : (lines.flatMap numbers).Perm ((List.finRange n).map number)
  root : ∀ line ∈ lines, ∃ r, IsRoot (parentFn s.parent) r ∧
    ∀ i, number i ∈ numbers line ↔ RootOf (parentFn s.parent) i r

theorem toString_lists (s : UnionFindSet n) (h : Reachable s) :
    ∃ lines, toString s = some (lines.flatMap fun line => line ++ ['\n']) ∧ Lists s lines := by
  obtain ⟨rel, hinv⟩ := h.invariant
  have hforest := hinv.represents.forest
  refine ⟨(top s).map (render s.parent n), ?_, ?_⟩
  · have hlines : ∀ r ∈ top s, toStringHelper s.parent n r = some (render s.parent n r) :=
      fun r hr => toStringHelper_eq (suffices_top hforest hr)
    rw [toString, foldlM_append ['\n'] hlines, List.nil_append]
  · constructor
    · rw [List.length_map, length_top hinv.cnt]
    · intro line hline
      obtain ⟨r, -, rfl⟩ := List.mem_map.mp hline
      exact notMem_render n r
    · intro line hline
      obtain ⟨r, -, rfl⟩ := List.mem_map.mp hline
      exact balanced_render n r
    · exact lines_perm hforest
    · intro line hline
      obtain ⟨r, hr, rfl⟩ := List.mem_map.mp hline
      exact ⟨r, mem_top.mp hr, mem_line hforest hr⟩

def pairAndOne : UnionFindSet 3 where
  cnt := 2
  parent := #v[0, 0, 2]

/-- The text is `0-(1)` and `2`. -/
theorem toString_lists_pairAndOne :
    ∃ lines, toString pairAndOne = some (lines.flatMap fun line => line ++ ['\n']) ∧
      Lists pairAndOne lines :=
  toString_lists pairAndOne
    (@Reachable.apply 3 (ofSize 3) pairAndOne (.connect 0 1) (.ofSize 3) rfl)

end SkUtils.Containers.UnionFindPrinting
