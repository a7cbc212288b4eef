import Mathlib.Data.List.Basic

/-!
Rows of words that are padded on the left to one width. A word that is not shorter than
the width is written as it is, and moves every word behind it.
-/

namespace SkUtils.Library.PaddedColumns

variable {α : Type*}

def pad (blank : α) (width : Nat) (word : List α) : List α :=
  List.replicate (width - word.length) blank ++ word

/-- Column `j` of the row, which starts at `offset + j * width`, holds at least one blank
and then the word. -/
def Aligned (blank : α) (offset width : Nat) (words : List (List α)) (row : List α) : Prop :=
  ∀ j (hj : j < words.length), ∃ k, 0 < k ∧
    (row.drop (offset + j * width)).take width = List.replicate k blank ++ words[j]

variable {blank : α} {offset width : Nat} {word : List α} {words : List (List α)}

theorem length_pad (h : word.length ≤ width) : (pad blank width word).length = width := by
  rw [pad, List.length_append, List.length_replicate]
  omega

theorem mem_pad {a : α} (h : a ∈ pad blank width word) : a = blank ∨ a ∈ word := by
  rcases List.mem_append.mp h with hblank | hword
  · exact .inl (List.eq_of_mem_replicate hblank)
  · exact .inr hword

theorem aligned_nil (blank : α) (offset width : Nat) (row : List α) :
    Aligned blank offset width [] row :=
  fun _ hj => absurd hj (Nat.not_lt_zero _)

/-- The first column, and the columns behind it. -/
theorem aligned_cons {row : List α} :
    Aligned blank offset width (word :: words) row ↔
      (∃ k, 0 < k ∧ (row.drop offset).take width = List.replicate k blank ++ word) ∧
        Aligned blank (offset + width) width words row := by
  have hoffset : ∀ j, offset + (j + 1) * width = offset + width + j * width := by
    intro j
    rw [Nat.succ_mul]
    omega
  constructor
  · intro h
    refine ⟨by simpa using h 0 (Nat.zero_lt_succ _), fun j hj => ?_⟩
    rw [← hoffset]
    exact h (j + 1) (Nat.succ_lt_succ hj)
  · rintro ⟨hfirst, hrest⟩ j hj
    cases j with
    | zero => simpa using hfirst
    | succ j =>
        rw [hoffset]
        exact hrest j (Nat.lt_of_succ_lt_succ hj)

theorem first_column_iff {before after : List α} (hbefore : before.length = offset) :
    (∃ k, 0 < k ∧ ((before ++ (pad blank width word ++ after)).drop offset).take width =
      List.replicate k blank ++ word) ↔ word.length < width := by
  rw [List.drop_left' hbefore]
  constructor
  · rintro ⟨k, hk, hcolumn⟩
    by_contra hlong
    have hlength := congrArg List.length hcolumn
    simp only [List.length_take, List.length_append, List.length_replicate] at hlength
    omega
  · intro hshort
    refine ⟨width - word.length, by omega, ?_⟩
    rw [List.take_left' (length_pad (Nat.le_of_lt hshort))]
    rfl

/-- The columns of a row are aligned when every word is shorter than the width. -/
theorem aligned_iff {before : List α} (hbefore : before.length = offset) :
    Aligned blank offset width words (before ++ (words.map (pad blank width)).flatten) ↔
      ∀ word ∈ words, word.length < width := by
  induction words generalizing before offset with
  | nil => simp [aligned_nil]
  | cons word words ih =>
      rw [aligned_cons, List.map_cons, List.flatten_cons, first_column_iff hbefore,
        List.forall_mem_cons]
      refine and_congr_right fun hshort => ?_
      rw [← List.append_assoc]
      apply ih
      rw [List.length_append, hbefore, length_pad (Nat.le_of_lt hshort)]

end SkUtils.Library.PaddedColumns
