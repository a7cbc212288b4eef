import Mathlib.Data.List.Infix
import Mathlib.Data.List.Lex

/-!
Scanning a text for words, the longest word first. A scan goes from left to right and
takes at each position the longest word that starts there, or else one letter. The
words that start at one position are prefixes of each other, so the longest of them is
also the greatest in the lexicographic order.
-/

namespace SkUtils.Library.LongestMatch

variable {α : Type*}

structure IsLongest (words : List (List α)) (text word : List α) : Prop where
  mem : word ∈ words
  isPrefix : word <+: text
  longest : ∀ other ∈ words, other <+: text → other.length ≤ word.length

inductive Item (α : Type*)
  | letter (a : α)
  | word (w : List α)

/-- The way of a scan through a text. -/
inductive Scan (words : List (List α)) : List α → List (Item α) → Prop
  | done : Scan words [] []
  | word {w rest text : List α} {items : List (Item α)} (longest : IsLongest words text w)
      (cut : text = w ++ rest) (scan : Scan words rest items) :
      Scan words text (.word w :: items)
  | letter {a : α} {rest : List α} {items : List (Item α)}
      (noWord : ∀ w ∈ words, ¬ w <+: a :: rest) (scan : Scan words rest items) :
      Scan words (a :: rest) (.letter a :: items)

def NonemptyWords (words : List (List α)) : Prop :=
  ∀ w ∈ words, w ≠ []

/-- A text that is cut up, from left to right, into longest words that are not empty. -/
inductive Tiled (words : List (List α)) : List α → Prop
  | done : Tiled words []
  | word {w rest text : List α} (longest : IsLongest words text w) (nonempty : w ≠ [])
      (cut : text = w ++ rest) (tiled : Tiled words rest) : Tiled words text

theorem tiled_singleton_nil {text : List α} : Tiled [[]] text ↔ text = [] := by
  constructor
  · rintro (_ | ⟨longest, nonempty, _, _⟩)
    · rfl
    · exact absurd (List.mem_singleton.mp longest.mem) nonempty
  · rintro rfl
    exact .done

theorem IsLongest.unique {words : List (List α)} {text w w' : List α}
    (h : IsLongest words text w) (h' : IsLongest words text w') : w = w' := by
  have hlength : w.length = w'.length :=
    Nat.le_antisymm (h'.longest w h.mem h.isPrefix) (h.longest w' h'.mem h'.isPrefix)
  have hprefix : w <+: w' :=
    List.prefix_of_prefix_length_le h.isPrefix h'.isPrefix hlength.le
  exact hprefix.eq_of_length hlength

/-- In descending order the first word that matches is the longest one. -/
theorem isLongest_of_find? [LinearOrder α] {words : List (List α)} {text w : List α}
    (sorted : words.Pairwise fun v w => w ≤ v)
    (h : words.find? (fun v => v.isPrefixOf text) = some w) : IsLongest words text w := by
  obtain ⟨hw, before, after, rfl, hbefore⟩ := List.find?_eq_some_iff_append.mp h
  have hprefix : w <+: text := List.isPrefixOf_iff_prefix.mp hw
  refine ⟨by simp, hprefix, fun other hother hmatch => ?_⟩
  rcases List.mem_append.mp hother with hmem | hmem
  · have hnot := hbefore other hmem
    simp [List.isPrefixOf_iff_prefix.mpr hmatch] at hnot
  · rcases List.mem_cons.mp hmem with rfl | hmem
    · exact le_rfl
    · have hle : other ≤ w :=
        (List.pairwise_cons.mp (List.pairwise_append.mp sorted).2.1).1 other hmem
      rcases List.prefix_or_prefix_of_prefix hmatch hprefix with hshort | hlong
      · exact hshort.length_le
      · rw [le_antisymm hle (not_lt.mp hlong.le)]

theorem noWord_of_find? {words : List (List α)} [BEq α] [LawfulBEq α] {text : List α}
    (h : words.find? (fun v => v.isPrefixOf text) = none) :
    ∀ w ∈ words, ¬ w <+: text := by
  intro w hw hprefix
  have hnot := List.find?_eq_none.mp h w hw
  simp [List.isPrefixOf_iff_prefix.mpr hprefix] at hnot

theorem exists_isLongest {words : List (List α)} {text : List α}
    (h : ∃ w ∈ words, w <+: text) : ∃ w, IsLongest words text w := by
  induction words with
  | nil =>
      obtain ⟨w, hw, -⟩ := h
      cases hw
  | cons v words ih =>
      by_cases hwords : ∃ w ∈ words, w <+: text
      · obtain ⟨w, hw⟩ := ih hwords
        by_cases hv : v <+: text ∧ w.length ≤ v.length
        · refine ⟨v, by simp, hv.1, fun other hother hmatch => ?_⟩
          rcases List.mem_cons.mp hother with rfl | hmem
          · exact le_rfl
          · exact (hw.longest other hmem hmatch).trans hv.2
        · refine ⟨w, List.mem_cons_of_mem v hw.mem, hw.isPrefix, fun other hother hmatch => ?_⟩
          rcases List.mem_cons.mp hother with rfl | hmem
          · by_contra hlt
            exact hv ⟨hmatch, by omega⟩
          · exact hw.longest other hmem hmatch
      · obtain ⟨w, hw, hmatch⟩ := h
        rcases List.mem_cons.mp hw with rfl | hmem
        · refine ⟨w, by simp, hmatch, fun other hother hother' => ?_⟩
          rcases List.mem_cons.mp hother with rfl | hmem
          · exact le_rfl
          · exact absurd ⟨other, hmem, hother'⟩ hwords
        · exact absurd ⟨w, hmem, hmatch⟩ hwords

theorem exists_scan {words : List (List α)} (nonempty : NonemptyWords words) (text : List α) :
    ∃ items, Scan words text items := by
  induction hlength : text.length using Nat.strong_induction_on generalizing text with
  | h n ih =>
      by_cases hword : ∃ w ∈ words, w <+: text
      · obtain ⟨w, hw⟩ := exists_isLongest hword
        obtain ⟨rest, rfl⟩ := hw.isPrefix
        have hpos : 0 < w.length := List.length_pos_of_ne_nil (nonempty w hw.mem)
        simp only [List.length_append] at hlength
        obtain ⟨items, hitems⟩ := ih rest.length (by omega) rest rfl
        exact ⟨_, .word hw rfl hitems⟩
      · cases text with
        | nil => exact ⟨[], .done⟩
        | cons a rest =>
            simp only [List.length_cons] at hlength
            obtain ⟨items, hitems⟩ := ih rest.length (by omega) rest rfl
            exact ⟨_, .letter (fun w hw hmatch => hword ⟨w, hw, hmatch⟩) hitems⟩

theorem Scan.unique {words : List (List α)} (nonempty : NonemptyWords words) {text : List α}
    {items items' : List (Item α)} (h : Scan words text items) (h' : Scan words text items') :
    items = items' := by
  induction h generalizing items' with
  | done =>
      cases h' with
      | done => rfl
      | word longest _ _ =>
          exact absurd (List.prefix_nil.mp longest.isPrefix) (nonempty _ longest.mem)
  | @word w rest text items longest cut _ ih =>
      cases h' with
      | done => exact absurd (List.prefix_nil.mp longest.isPrefix) (nonempty _ longest.mem)
      | @word w' rest' _ items' longest' cut' scan' =>
          obtain rfl := longest.unique longest'
          obtain rfl : rest = rest' := List.append_cancel_left (cut.symm.trans cut')
          rw [ih scan']
      | letter noWord _ => exact absurd longest.isPrefix (noWord w longest.mem)
  | letter noWord _ ih =>
      cases h' with
      | word longest _ _ => exact absurd longest.isPrefix (noWord _ longest.mem)
      | letter _ scan' => rw [ih scan']

/-- A scan depends on the words only as a set. -/
theorem Scan.congr {words words' : List (List α)} (hmem : ∀ w, w ∈ words ↔ w ∈ words')
    {text : List α} {items : List (Item α)} (h : Scan words text items) :
    Scan words' text items := by
  induction h with
  | done => exact .done
  | word longest cut _ ih =>
      refine .word ⟨(hmem _).mp longest.mem, longest.isPrefix, fun other hother => ?_⟩ cut ih
      exact longest.longest other ((hmem other).mpr hother)
  | letter noWord _ ih => exact .letter (fun w hw => noWord w ((hmem w).mpr hw)) ih

section Segments

variable {words : List (List α)}

/-- The run of letters that ends here, unless it is empty. -/
def closed (run : List α) : List (List α) :=
  if run.isEmpty then [] else [run]

/-- The maximal runs of letters, when `run` is what has been read of the first one. -/
def segmentsFrom (run : List α) : List (Item α) → List (List α)
  | [] => closed run
  | .letter a :: items => segmentsFrom (run ++ [a]) items
  | .word _ :: items => closed run ++ segmentsFrom [] items

def segments (items : List (Item α)) : List (List α) :=
  segmentsFrom [] items

theorem mem_closed {run t : List α} : t ∈ closed run ↔ t = run ∧ run ≠ [] := by
  cases run <;> simp [closed]

theorem closed_of_ne_nil {run : List α} (h : run ≠ []) : closed run = [run] := by
  simpa [closed] using h

theorem ne_nil_of_mem_segmentsFrom {run : List α} {items : List (Item α)} {t : List α}
    (h : t ∈ segmentsFrom run items) : t ≠ [] := by
  induction items generalizing run with
  | nil =>
      obtain ⟨rfl, hne⟩ := mem_closed.mp h
      exact hne
  | cons item items ih =>
      cases item with
      | letter a => exact ih h
      | word w =>
          rcases List.mem_append.mp h with hrun | hrest
          · obtain ⟨rfl, hne⟩ := mem_closed.mp hrun
            exact hne
          · exact ih hrest

/-- No word starts inside `run` when `rest` follows it. -/
def NoWordIn (words : List (List α)) (run rest : List α) : Prop :=
  ∀ front back, run = front ++ back → back ≠ [] → ∀ w ∈ words, ¬ w <+: back ++ rest

theorem NoWordIn.extend {run rest : List α} {a : α} (h : NoWordIn words run (a :: rest))
    (noWord : ∀ w ∈ words, ¬ w <+: a :: rest) : NoWordIn words (run ++ [a]) rest := by
  intro front back hcut hne w hw
  obtain rfl | ⟨back, last, rfl⟩ := List.eq_nil_or_concat' back
  · exact absurd rfl hne
  · rw [← List.append_assoc] at hcut
    obtain ⟨hrun, hlast⟩ := List.append_inj' hcut rfl
    obtain rfl : a = last := by simpa using hlast
    rw [List.append_assoc, List.singleton_append]
    rcases eq_or_ne back [] with rfl | hback
    · exact noWord w hw
    · exact h front back hrun hback w hw

theorem NoWordIn.not_infix {run rest : List α} (h : NoWordIn words run rest)
    (nonempty : NonemptyWords words) {w : List α} (hw : w ∈ words) : ¬ w <:+: run := by
  rintro ⟨front, back, hcut⟩
  have hne : w ++ back ≠ [] := by simp [nonempty w hw]
  refine h front (w ++ back) (by rw [← hcut, List.append_assoc]) hne w hw ?_
  rw [List.append_assoc]
  exact List.prefix_append _ _

theorem Scan.not_infix (nonempty : NonemptyWords words) {rest : List α}
    {items : List (Item α)} (h : Scan words rest items) {run : List α}
    (hrun : NoWordIn words run rest) {t : List α} (ht : t ∈ segmentsFrom run items)
    {w : List α} (hw : w ∈ words) : ¬ w <:+: t := by
  have hempty : ∀ rest, NoWordIn words [] rest := by
    intro rest front back hcut hne
    simp_all
  induction h generalizing run with
  | done =>
      obtain ⟨rfl, -⟩ := mem_closed.mp ht
      exact hrun.not_infix nonempty hw
  | word _ _ _ ih =>
      rcases List.mem_append.mp ht with hclosed | hlater
      · obtain ⟨rfl, -⟩ := mem_closed.mp hclosed
        exact hrun.not_infix nonempty hw
      · exact ih (hempty _) hlater
  | letter noWord _ ih => exact ih (hrun.extend noWord) ht

/-- `text` is made of the tokens, runs of words before, between and after them. Between
two tokens there is at least one word. -/
def Interleaved (words tokens : List (List α)) (text : List α) : Prop :=
  ∃ (first : List (List α)) (runs : List (List (List α))),
    runs.length = tokens.length ∧ (∀ run ∈ first :: runs, ∀ w ∈ run, w ∈ words) ∧
    (∀ run ∈ runs.dropLast, run ≠ []) ∧
    text = first.flatten ++
      (List.zipWith (fun token run => token ++ run.flatten) tokens runs).flatten

theorem Scan.interleaved {rest : List α} {items : List (Item α)} (h : Scan words rest items)
    (run : List α) :
    ∃ (first : List (List α)) (runs : List (List (List α))),
      runs.length = (segmentsFrom run items).length ∧
      (∀ run ∈ first :: runs, ∀ w ∈ run, w ∈ words) ∧ (∀ run ∈ runs.dropLast, run ≠ []) ∧
      run ++ rest = first.flatten ++
        (List.zipWith (fun token run => token ++ run.flatten) (segmentsFrom run items)
          runs).flatten ∧
      (run ≠ [] → first = []) := by
  induction h generalizing run with
  | done =>
      rcases eq_or_ne run [] with rfl | hrun
      · exact ⟨[], [], by simp [segmentsFrom, closed]⟩
      · exact ⟨[], [[]], by simp [segmentsFrom, closed_of_ne_nil hrun]⟩
  | @word w rest text items longest cut _ ih =>
      obtain ⟨first, runs, hlength, hwords, hruns, htext, -⟩ := ih []
      rw [List.nil_append] at htext
      rcases eq_or_ne run [] with rfl | hrun
      · refine ⟨w :: first, runs, ?_, ?_, hruns, ?_, by simp⟩
        · simpa [segmentsFrom, closed] using hlength
        · intro r hr v hv
          rcases List.mem_cons.mp hr with rfl | hr
          · rcases List.mem_cons.mp hv with rfl | hv
            · exact longest.mem
            · exact hwords first (by simp) v hv
          · exact hwords r (List.mem_cons_of_mem _ hr) v hv
        · simp [segmentsFrom, closed, cut, htext]
      · refine ⟨[], (w :: first) :: runs, ?_, ?_, ?_, ?_, by simp⟩
        · simpa [segmentsFrom, closed_of_ne_nil hrun] using hlength
        · intro r hr v hv
          rcases List.mem_cons.mp hr with rfl | hr
          · cases hv
          · rcases List.mem_cons.mp hr with rfl | hr
            · rcases List.mem_cons.mp hv with rfl | hv
              · exact longest.mem
              · exact hwords first (by simp) v hv
            · exact hwords r (List.mem_cons_of_mem _ hr) v hv
        · cases runs with
          | nil => simp
          | cons r runs =>
              rw [List.dropLast_cons_cons]
              exact List.forall_mem_cons.mpr ⟨by simp, hruns⟩
        · simp [segmentsFrom, closed_of_ne_nil hrun, cut, htext]
  | @letter a rest items _ _ ih =>
      obtain ⟨first, runs, hlength, hwords, hruns, htext, hfirst⟩ := ih (run ++ [a])
      refine ⟨first, runs, hlength, hwords, hruns, ?_, fun _ => hfirst (by simp)⟩
      rw [segmentsFrom, ← htext, List.append_assoc, List.singleton_append]

theorem Scan.tokens_clean (nonempty : NonemptyWords words) {text : List α}
    {items : List (Item α)} (h : Scan words text items) :
    ∀ t ∈ segments items, t ≠ [] ∧ ∀ w ∈ words, ¬ w <:+: t := by
  intro t ht
  refine ⟨ne_nil_of_mem_segmentsFrom ht, fun w hw => h.not_infix nonempty ?_ ht hw⟩
  intro front back hcut hne
  simp_all

theorem Scan.interleaved_segments {text : List α} {items : List (Item α)}
    (h : Scan words text items) : Interleaved words (segments items) text := by
  obtain ⟨first, runs, hlength, hwords, hruns, htext, -⟩ := h.interleaved []
  exact ⟨first, runs, hlength, hwords, hruns, htext⟩

end Segments

section Letters

/-- A text in which the letters of `p` are words. -/
def marked (p : α → Prop) [DecidablePred p] (text : List α) : List (Item α) :=
  text.map fun a => if p a then .word [a] else .letter a

variable {p : α → Prop} [DecidablePred p]

theorem scan_marked {words : List (List α)} (hwords : ∀ w, w ∈ words ↔ ∃ a, p a ∧ w = [a])
    (text : List α) : Scan words text (marked p text) := by
  induction text with
  | nil => exact .done
  | cons a rest ih =>
      rw [marked, List.map_cons]
      split
      case isTrue ha =>
          refine .word ⟨(hwords _).mpr ⟨a, ha, rfl⟩, by simp, fun other hother _ => ?_⟩ rfl ih
          obtain ⟨b, -, rfl⟩ := (hwords other).mp hother
          exact le_rfl
      case isFalse ha =>
          refine .letter (fun w hw hmatch => ?_) ih
          obtain ⟨b, hb, rfl⟩ := (hwords w).mp hw
          obtain rfl : b = a := by simpa using hmatch
          exact ha hb

theorem segmentsFrom_append_word (run w : List α) (items items' : List (Item α)) :
    segmentsFrom run (items ++ .word w :: items') =
      segmentsFrom run items ++ segments items' := by
  induction items generalizing run with
  | nil => rfl
  | cons item items ih =>
      cases item with
      | letter a => exact ih (run ++ [a])
      | word v =>
          simp only [List.cons_append, segmentsFrom, List.append_assoc]
          rw [ih []]

theorem segments_marked_append {c : α} (hc : p c) (before after : List α) :
    segments (marked p (before ++ c :: after)) =
      segments (marked p before) ++ segments (marked p after) := by
  have hitems : marked p (before ++ c :: after) =
      marked p before ++ .word [c] :: marked p after := by
    simp [marked, hc]
  rw [hitems]
  exact segmentsFrom_append_word [] [c] _ _

theorem segmentsFrom_letters (run : List α) {text : List α} (h : ∀ a ∈ text, ¬ p a) :
    segmentsFrom run (marked p text) = closed (run ++ text) := by
  induction text generalizing run with
  | nil => simp [marked, segmentsFrom]
  | cons a text ih =>
      obtain ⟨ha, htext⟩ := List.forall_mem_cons.mp h
      have hrest := ih (run ++ [a]) htext
      rw [List.append_assoc, List.singleton_append] at hrest
      rw [marked, List.map_cons, if_neg ha]
      exact hrest

theorem segmentsFrom_marked_eq_nil {run text : List α} :
    segmentsFrom run (marked p text) = [] ↔ run = [] ∧ ∀ a ∈ text, p a := by
  induction text generalizing run with
  | nil => simp [marked, segmentsFrom, closed]
  | cons a text ih =>
      rw [marked, List.map_cons]
      split
      case isTrue ha =>
          have hrest : segmentsFrom [] (marked p text) = [] ↔ ∀ b ∈ text, p b := by simp [ih]
          rw [segmentsFrom, List.append_eq_nil_iff, List.forall_mem_cons]
          simp [closed, ha, ← hrest, marked]
      case isFalse ha =>
          have hrest := @ih (run ++ [a])
          rw [marked] at hrest
          simp [segmentsFrom, hrest, ha]

theorem segments_marked_ne_nil {text : List α} :
    segments (marked p text) ≠ [] ↔ ∃ a ∈ text, ¬ p a := by
  have hnil := @segmentsFrom_marked_eq_nil α p _ [] text
  rw [segments, Ne, hnil]
  simp

theorem exists_cut_behind_run {run text : List α} (hrun : run ≠ [])
    (h : 1 < (segmentsFrom run (marked p text)).length) :
    ∃ before c after, text = before ++ c :: after ∧ p c ∧ ∃ a ∈ after, ¬ p a := by
  induction text generalizing run with
  | nil => simp [marked, segmentsFrom, closed_of_ne_nil hrun] at h
  | cons c text ih =>
      rw [marked, List.map_cons] at h
      split at h
      case isTrue hc =>
          rw [segmentsFrom, closed_of_ne_nil hrun, List.length_append, List.length_singleton] at h
          have hne : segments (marked p text) ≠ [] := by
            apply List.ne_nil_of_length_pos
            exact Nat.lt_of_add_lt_add_left h
          exact ⟨[], c, text, rfl, hc, segments_marked_ne_nil.mp hne⟩
      case isFalse hc =>
          obtain ⟨before, d, after, rfl, hcut⟩ := @ih (run ++ [c]) (by simp) h
          exact ⟨c :: before, d, after, rfl, hcut⟩

theorem one_lt_length_segments {text : List α} :
    1 < (segments (marked p text)).length ↔
      ∃ before c after, text = before ++ c :: after ∧ p c ∧ (∃ a ∈ before, ¬ p a) ∧
        ∃ a ∈ after, ¬ p a := by
  constructor
  · intro h
    induction text with
    | nil => simp [segments, segmentsFrom, marked, closed] at h
    | cons c text ih =>
        rw [segments, marked, List.map_cons] at h
        split at h
        case isTrue hc =>
            obtain ⟨before, d, after, rfl, hd, ⟨a, ha, hna⟩, hafter⟩ := ih h
            exact ⟨c :: before, d, after, rfl, hd, ⟨a, List.mem_cons_of_mem c ha, hna⟩, hafter⟩
        case isFalse hc =>
            obtain ⟨before, d, after, rfl, hd, hafter⟩ := @exists_cut_behind_run α p _ [c] text
              (by simp) h
            exact ⟨c :: before, d, after, rfl, hd, ⟨c, List.mem_cons_self, hc⟩, hafter⟩
  · rintro ⟨before, c, after, rfl, hc, hbefore, hafter⟩
    have hleft := List.length_pos_of_ne_nil (segments_marked_ne_nil.mpr hbefore)
    have hright := List.length_pos_of_ne_nil (segments_marked_ne_nil.mpr hafter)
    rw [segments_marked_append hc, List.length_append]
    omega

end Letters

end SkUtils.Library.LongestMatch
