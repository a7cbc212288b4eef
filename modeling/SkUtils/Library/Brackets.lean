import Mathlib.Data.List.Basic
import Mathlib.Data.List.Induction

/-!
Texts with brackets. In a balanced text no front closes more than it opens, and the whole
closes what it opens. A part of a balanced text is balanced when it splits no pair of
brackets that match.
-/

namespace SkUtils.Library.Brackets

variable {α : Type*}

inductive Bracket
  | opening
  | closing
  | plain
  deriving DecidableEq

def Bracket.weight : Bracket → Int
  | .opening => 1
  | .closing => -1
  | .plain => 0

/-- How many brackets are open behind a text. -/
def level (kind : α → Bracket) : List α → Int
  | [] => 0
  | a :: text => (kind a).weight + level kind text

structure Balanced (kind : α → Bracket) (text : List α) : Prop where
  nonneg : ∀ front, front <+: text → 0 ≤ level kind front
  level_eq : level kind text = 0

variable {kind : α → Bracket}

section Level

theorem level_append (text text' : List α) :
    level kind (text ++ text') = level kind text + level kind text' := by
  induction text with
  | nil => simp [level]
  | cons a text ih =>
      rw [List.cons_append, level, level, ih, Int.add_assoc]

theorem level_cons_opening {a : α} (ha : kind a = .opening) (text : List α) :
    level kind (a :: text) = 1 + level kind text := by
  rw [level, ha]
  rfl

theorem level_cons_closing {a : α} (ha : kind a = .closing) (text : List α) :
    level kind (a :: text) = -1 + level kind text := by
  rw [level, ha]
  rfl

theorem level_cons_plain {a : α} (ha : kind a = .plain) (text : List α) :
    level kind (a :: text) = level kind text := by
  rw [level, ha]
  exact Int.zero_add _

theorem level_of_plain {text : List α} (h : ∀ a ∈ text, kind a = .plain) :
    level kind text = 0 := by
  induction text with
  | nil => rfl
  | cons a text ih =>
      obtain ⟨ha, htext⟩ := List.forall_mem_cons.mp h
      rw [level_cons_plain ha, ih htext]

/-- Letters that are no brackets do not count. -/
theorem level_filter {p : α → Bool} (text : List α)
    (h : ∀ a ∈ text, p a = false → kind a = .plain) :
    level kind (text.filter p) = level kind text := by
  induction text with
  | nil => rfl
  | cons a text ih =>
      obtain ⟨ha, htext⟩ := List.forall_mem_cons.mp h
      cases hp : p a with
      | true => rw [List.filter_cons_of_pos hp, level, level, ih htext]
      | false =>
          rw [List.filter_cons_of_neg (by simp [hp]), level_cons_plain (ha hp), ih htext]

end Level

section Balance

variable {text text' : List α}

theorem balanced_of_plain (h : ∀ a ∈ text, kind a = .plain) : Balanced kind text := by
  constructor
  · intro front hfront
    exact Int.le_of_eq (level_of_plain fun a ha => h a (hfront.subset ha)).symm
  · exact level_of_plain h

theorem balanced_nil : Balanced kind [] :=
  balanced_of_plain (by simp)

theorem balanced_of_back_nonpos (hback : ∀ back, back <:+ text → level kind back ≤ 0)
    (hlevel : level kind text = 0) : Balanced kind text := by
  refine ⟨?_, hlevel⟩
  rintro front ⟨back, rfl⟩
  have hle := hback back (List.suffix_append _ _)
  rw [level_append] at hlevel
  omega

theorem prefix_append_cases {front text text' : List α} (h : front <+: text ++ text') :
    front <+: text ∨ ∃ front', front = text ++ front' ∧ front' <+: text' := by
  obtain ⟨back, heq⟩ := h
  rcases List.append_eq_append_iff.mp heq with ⟨mid, hfront, -⟩ | ⟨mid, hfront, hback⟩
  · exact .inl ⟨mid, hfront.symm⟩
  · exact .inr ⟨mid, hfront, back, hback.symm⟩

theorem Balanced.append (h : Balanced kind text) (h' : Balanced kind text') :
    Balanced kind (text ++ text') := by
  constructor
  · intro front hfront
    rcases prefix_append_cases hfront with hshort | ⟨front', rfl, hfront'⟩
    · exact h.nonneg front hshort
    · rw [level_append, h.level_eq, Int.zero_add]
      exact h'.nonneg front' hfront'
  · rw [level_append, h.level_eq, h'.level_eq]
    rfl

theorem balanced_flatten {texts : List (List α)} (h : ∀ text ∈ texts, Balanced kind text) :
    Balanced kind texts.flatten := by
  induction texts with
  | nil => exact balanced_nil
  | cons text texts ih =>
      obtain ⟨htext, htexts⟩ := List.forall_mem_cons.mp h
      exact htext.append (ih htexts)

theorem Balanced.enclose {a b : α} (h : Balanced kind text) (ha : kind a = .opening)
    (hb : kind b = .closing) : Balanced kind (a :: (text ++ [b])) := by
  have hend : level kind (a :: (text ++ [b])) = 0 := by
    rw [level_cons_opening ha, level_append, h.level_eq, level_cons_closing hb]
    rfl
  constructor
  · intro front hfront
    rcases List.prefix_cons_iff.mp hfront with rfl | ⟨front', rfl, hfront'⟩
    · exact Int.le_refl 0
    · rcases List.prefix_concat_iff.mp hfront' with rfl | hinner
      · exact Int.le_of_eq hend.symm
      · have hnonneg := h.nonneg front' hinner
        rw [level_cons_opening ha]
        omega
  · exact hend

theorem balanced_append_plain_left (hplain : ∀ a ∈ text, kind a = .plain) :
    Balanced kind (text ++ text') ↔ Balanced kind text' := by
  constructor
  · intro h
    constructor
    · intro front hfront
      have hnonneg := h.nonneg (text ++ front) ((List.prefix_append_right_inj text).mpr hfront)
      rwa [level_append, level_of_plain hplain, Int.zero_add] at hnonneg
    · have hlevel := h.level_eq
      rwa [level_append, level_of_plain hplain, Int.zero_add] at hlevel
  · exact (balanced_of_plain hplain).append

theorem balanced_append_plain_right (hplain : ∀ a ∈ text', kind a = .plain) :
    Balanced kind (text ++ text') ↔ Balanced kind text := by
  constructor
  · intro h
    constructor
    · intro front hfront
      exact h.nonneg front (hfront.trans (List.prefix_append _ _))
    · have hlevel := h.level_eq
      rwa [level_append, level_of_plain hplain, Int.add_zero] at hlevel
  · intro h
    exact h.append (balanced_of_plain hplain)

theorem balanced_filter {p : α → Bool} (hplain : ∀ a ∈ text, p a = false → kind a = .plain) :
    Balanced kind (text.filter p) ↔ Balanced kind text := by
  have hfilter : ∀ front, front <+: text → level kind (front.filter p) = level kind front := by
    intro front hfront
    exact level_filter front fun a ha => hplain a (hfront.subset ha)
  constructor
  · intro h
    constructor
    · intro front hfront
      rw [← hfilter front hfront]
      exact h.nonneg _ (hfront.filter p)
    · rw [← hfilter text (List.prefix_refl text)]
      exact h.level_eq
  · intro h
    constructor
    · intro front hfront
      obtain ⟨front', hfront', rfl⟩ := List.prefix_filter_iff.mp hfront
      rw [hfilter front' hfront']
      exact h.nonneg front' hfront'
    · rw [hfilter text (List.prefix_refl text)]
      exact h.level_eq

end Balance

section Matching

variable {text : List α}

/-- A front that closes too much ends with a bracket behind a balanced text. -/
theorem exists_closing (h : ∃ front, front <+: text ∧ level kind front < 0) :
    ∃ before a after, text = before ++ a :: after ∧ kind a = .closing ∧
      Balanced kind before := by
  induction text using List.reverseRecOn with
  | nil =>
      obtain ⟨front, hfront, hneg⟩ := h
      rw [List.prefix_nil.mp hfront] at hneg
      exact absurd hneg (Int.lt_irrefl 0)
  | append_singleton text a ih =>
      by_cases hshort : ∃ front, front <+: text ∧ level kind front < 0
      · obtain ⟨before, b, after, rfl, hb, hbefore⟩ := ih hshort
        exact ⟨before, b, after ++ [a], by simp, hb, hbefore⟩
      · have hnonneg : ∀ front, front <+: text → 0 ≤ level kind front := by
          intro front hfront
          by_contra hneg
          exact hshort ⟨front, hfront, Int.not_le.mp hneg⟩
        obtain ⟨front, hfront, hneg⟩ := h
        rcases List.prefix_concat_iff.mp hfront with rfl | hfront
        · have htext := hnonneg text (List.prefix_refl text)
          rw [level_append] at hneg
          cases ha : kind a with
          | opening =>
              rw [level_cons_opening ha, level] at hneg
              omega
          | closing =>
              rw [level_cons_closing ha, level] at hneg
              exact ⟨text, a, [], rfl, ha, hnonneg, by omega⟩
          | plain =>
              rw [level_cons_plain ha, level] at hneg
              omega
        · exact absurd hneg (Int.not_lt.mpr (hnonneg front hfront))

/-- A back that opens too much begins with a bracket in front of a balanced text. -/
theorem exists_opening (h : ∃ back, back <:+ text ∧ 0 < level kind back) :
    ∃ before a after, text = before ++ a :: after ∧ kind a = .opening ∧
      Balanced kind after := by
  induction text with
  | nil =>
      obtain ⟨back, hback, hpos⟩ := h
      rw [List.suffix_nil.mp hback] at hpos
      exact absurd hpos (Int.lt_irrefl 0)
  | cons a text ih =>
      by_cases hshort : ∃ back, back <:+ text ∧ 0 < level kind back
      · obtain ⟨before, b, after, rfl, hb, hafter⟩ := ih hshort
        exact ⟨a :: before, b, after, rfl, hb, hafter⟩
      · have hnonpos : ∀ back, back <:+ text → level kind back ≤ 0 := by
          intro back hback
          by_contra hpos
          exact hshort ⟨back, hback, Int.not_le.mp hpos⟩
        obtain ⟨back, hback, hpos⟩ := h
        rcases List.suffix_cons_iff.mp hback with rfl | hback
        · have htext := hnonpos text (List.suffix_refl text)
          cases ha : kind a with
          | opening =>
              rw [level_cons_opening ha] at hpos
              exact ⟨[], a, text, rfl, ha, balanced_of_back_nonpos hnonpos (by omega)⟩
          | closing =>
              rw [level_cons_closing ha] at hpos
              omega
          | plain =>
              rw [level_cons_plain ha] at hpos
              omega
        · exact absurd hpos (Int.not_lt.mpr (hnonpos back hback))

/-- The brackets at the positions `i` and `j` are a pair: the text between them is
balanced. -/
def Matched (kind : α → Bracket) (text : List α) (i j : Nat) : Prop :=
  ∃ before a between b after, text = before ++ a :: (between ++ b :: after) ∧
    kind a = .opening ∧ kind b = .closing ∧ Balanced kind between ∧
    i = before.length ∧ j = before.length + 1 + between.length

theorem Matched.lt_length {i j : Nat} (h : Matched kind text i j) :
    i < text.length ∧ j < text.length := by
  obtain ⟨before, a, between, b, after, rfl, -, -, -, rfl, rfl⟩ := h
  simp only [List.length_append, List.length_cons]
  omega

/-- No position in a balanced part is below its ends. -/
theorem Balanced.level_take {front part back : List α} (h : Balanced kind part) {k : Nat}
    (hfront : front.length ≤ k) (hpart : k ≤ front.length + part.length) :
    level kind front ≤ level kind ((front ++ (part ++ back)).take k) := by
  have htake : (front ++ (part ++ back)).take k = front ++ part.take (k - front.length) := by
    rw [List.take_append, List.take_of_length_le hfront, List.take_append_of_le_length (by omega)]
  have hnonneg := h.nonneg _ (List.take_prefix (k - front.length) part)
  rw [htake, level_append]
  omega

theorem Matched.level_take {i j : Nat} (h : Matched kind text i j) :
    i < j ∧ level kind (text.take (i + 1)) = level kind (text.take i) + 1 ∧
      level kind (text.take j) = level kind (text.take (i + 1)) ∧
      level kind (text.take (j + 1)) = level kind (text.take j) - 1 ∧
      ∀ k, i < k → k ≤ j → level kind (text.take (i + 1)) ≤ level kind (text.take k) := by
  obtain ⟨before, a, between, b, after, rfl, ha, hb, hbetween, rfl, rfl⟩ := h
  -- up to a position between the brackets
  have htake : ∀ m, m ≤ between.length →
      level kind ((before ++ a :: (between ++ b :: after)).take (before.length + 1 + m)) =
        level kind before + 1 + level kind (between.take m) := by
    intro m hm
    rw [Nat.add_assoc, List.take_length_add_append, Nat.add_comm 1 m, List.take_succ_cons,
      List.take_append_of_le_length hm, level_append, level_cons_opening ha, Int.add_assoc]
  have hopen := htake 0 (Nat.zero_le _)
  have hclose := htake between.length (Nat.le_refl _)
  have hbehind : level kind ((before ++ a :: (between ++ b :: after)).take
      (before.length + 1 + between.length + 1)) = level kind before := by
    rw [show before.length + 1 + between.length + 1 = before.length + (between.length + 1 + 1)
      by omega, List.take_length_add_append, List.take_succ_cons, List.take_length_add_append,
      level_append, level_cons_opening ha, level_append, hbetween.level_eq]
    simp only [List.take_succ_cons, List.take_zero]
    rw [level_cons_closing hb, level]
    omega
  rw [List.take_zero, level, Int.add_zero, Nat.add_zero] at hopen
  rw [List.take_length, hbetween.level_eq, Int.add_zero] at hclose
  refine ⟨by omega, ?_, ?_, ?_, ?_⟩
  · rw [hopen, List.take_left' rfl]
  · rw [hclose, hopen]
  · rw [hbehind, hclose]
    omega
  · intro k hik hkj
    obtain ⟨m, rfl⟩ := Nat.exists_eq_add_of_le (show before.length + 1 ≤ k by omega)
    have hnonneg := hbetween.nonneg _ (List.take_prefix m between)
    rw [htake m (by omega), hopen]
    omega

def InPart (front part : List α) (i : Nat) : Prop :=
  front.length ≤ i ∧ i < front.length + part.length

section Parts

variable {front part back : List α}

/-- No pair of brackets leaves a balanced part. -/
theorem Balanced.inPart_iff (hpart : Balanced kind part) {i j : Nat}
    (h : Matched kind (front ++ (part ++ back)) i j) :
    InPart front part i ↔ InPart front part j := by
  obtain ⟨hij, hopen, hsame, hclose, hbetween⟩ := h.level_take
  have hfloor := fun k => @Balanced.level_take α kind front part back hpart k
  have hend : level kind ((front ++ (part ++ back)).take (front.length + part.length)) =
      level kind front := by
    rw [List.take_length_add_append, List.take_left' rfl, level_append, hpart.level_eq,
      Int.add_zero]
  have hstart : level kind ((front ++ (part ++ back)).take front.length) = level kind front := by
    rw [List.take_left' rfl]
  constructor
  · rintro ⟨hfront, hback⟩
    refine ⟨by omega, ?_⟩
    by_contra hout
    have hover := hbetween (front.length + part.length) (by omega) (by omega)
    have hbelow := hfloor i hfront (Nat.le_of_lt hback)
    omega
  · rintro ⟨hfront, hback⟩
    refine ⟨?_, by omega⟩
    by_contra hout
    have hover := hbetween front.length (by omega) hfront
    have hbelow := hfloor (j + 1) (by omega) (by omega)
    omega

variable (hpairs : ∀ i j, Matched kind (front ++ (part ++ back)) i j →
  (InPart front part i ↔ InPart front part j))

include hpairs

/-- A bracket of the part that closed too much would match one in front of the part. -/
theorem nonneg_of_pairs (h : Balanced kind (front ++ (part ++ back))) {part' : List α}
    (hpart' : part' <+: part) : 0 ≤ level kind part' := by
  by_contra hneg
  obtain ⟨before, b, after, rfl, hb, hbefore⟩ :=
    exists_closing ⟨part', hpart', Int.not_le.mp hneg⟩
  have hclosed := h.nonneg (front ++ (before ++ [b])) ⟨after ++ back, by simp⟩
  rw [level_append, level_append, hbefore.level_eq, level_cons_closing hb, level] at hclosed
  have hopen : 0 < level kind front := by omega
  obtain ⟨front1, a, front2, rfl, ha, hfront2⟩ :=
    exists_opening ⟨front, List.suffix_refl front, hopen⟩
  have hsplit := hpairs front1.length (front1.length + 1 + (front2 ++ before).length)
    ⟨front1, a, front2 ++ before, b, after ++ back, by simp, ha, hb,
      hfront2.append hbefore, rfl, rfl⟩
  simp only [InPart, List.length_append, List.length_cons] at hsplit
  omega

/-- A bracket of the part that stayed open would match one behind the part. -/
theorem level_eq_of_pairs (h : Balanced kind (front ++ (part ++ back))) :
    level kind part = 0 := by
  by_contra hopen
  have hpos := nonneg_of_pairs hpairs h (List.prefix_refl part)
  have hfront := h.nonneg front (List.prefix_append _ _)
  have hlevel := h.level_eq
  rw [level_append, level_append] at hlevel
  have hexcess : 0 < level kind part := by omega
  have hmissing : level kind back < 0 := by omega
  obtain ⟨before, a, after, rfl, ha, hafter⟩ :=
    exists_opening ⟨part, List.suffix_refl part, hexcess⟩
  obtain ⟨back1, b, back2, rfl, hb, hback1⟩ :=
    exists_closing ⟨back, List.prefix_refl back, hmissing⟩
  have hsplit := hpairs (front ++ before).length
    ((front ++ before).length + 1 + (after ++ back1).length)
    ⟨front ++ before, a, after ++ back1, b, back2, by simp, ha, hb,
      hafter.append hback1, rfl, rfl⟩
  simp only [InPart, List.length_append, List.length_cons] at hsplit
  omega

omit hpairs

/-- A part of a balanced text is balanced when each pair of brackets is in it or outside. -/
theorem balanced_part_iff (h : Balanced kind (front ++ (part ++ back))) :
    Balanced kind part ↔ ∀ i j, Matched kind (front ++ (part ++ back)) i j →
      (InPart front part i ↔ InPart front part j) := by
  constructor
  · intro hpart i j hmatched
    exact hpart.inPart_iff hmatched
  · intro hpairs
    exact ⟨fun part' => nonneg_of_pairs hpairs h, level_eq_of_pairs hpairs h⟩

end Parts

end Matching

end SkUtils.Library.Brackets
