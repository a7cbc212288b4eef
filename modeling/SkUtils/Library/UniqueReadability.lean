import Mathlib.Data.List.Basic
import Mathlib.Logic.Function.Basic

/-!
Renderings that can be read back off the front of a text, as long as the text goes on
with a letter that stops them, and the listings that separators and a closing bracket
make of them.
-/

namespace SkUtils.Library.UniqueReadability

variable {α β χ : Type*}

/-- The text is at its end or goes on with a letter in `stop`. -/
def Stops (stop : χ → Prop) (rest : List χ) : Prop :=
  ∀ c ∈ rest.head?, stop c

def Readable (stop : χ → Prop) (render : α → List χ) : Prop :=
  ∀ x y r s, Stops stop r → Stops stop s → render x ++ r = render y ++ s → x = y ∧ r = s

section Rules

variable {stop : χ → Prop} {f : α → List χ} {g : β → List χ}

theorem stops_nil : Stops stop [] := by
  simp [Stops]

theorem stops_append {c : χ} {word rest : List χ} (hc : stop c) :
    Stops stop (c :: word ++ rest) := by
  simpa [Stops] using hc

theorem Readable.injective (h : Readable stop f) : Function.Injective f := by
  intro x y hxy
  exact (h x y [] [] stops_nil stops_nil (by rw [hxy])).1

/-- What has no stopping letter in it ends where the first of them stands. -/
theorem Readable.of_injective (hinj : Function.Injective f) (hall : ∀ x, ∀ c ∈ f x, ¬ stop c) :
    Readable stop f := by
  classical
  have htake : ∀ x r, Stops stop r → (f x ++ r).takeWhile (fun c => ¬ stop c) = f x := by
    intro x r hr
    rw [List.takeWhile_append_of_pos (by simpa using hall x)]
    cases r with
    | nil => simp
    | cons c r =>
        have hc : stop c := hr c rfl
        simp [hc]
  intro x y r s hr hs heq
  have hxy : x = y := hinj (by rw [← htake x r hr, heq, htake y s hs])
  subst y
  exact ⟨rfl, List.append_cancel_left heq⟩

/-- Both components, with something between them that stops the first one. -/
theorem Readable.pair (hf : Readable stop f) (hg : Readable stop g) {c d : χ}
    {sep closing : List χ} (hc : stop c) (hd : stop d) {x x' : α} {y y' : β} {r s : List χ}
    (h : f x ++ (c :: sep ++ (g y ++ (d :: closing ++ r))) =
      f x' ++ (c :: sep ++ (g y' ++ (d :: closing ++ s)))) :
    (x, y) = (x', y') ∧ r = s := by
  obtain ⟨rfl, htail⟩ := hf _ _ _ _ (stops_append hc) (stops_append hc) h
  obtain ⟨rfl, hend⟩ := hg _ _ _ _ (stops_append hd) (stops_append hd)
    (List.append_cancel_left htail)
  exact ⟨rfl, List.append_cancel_left hend⟩

end Rules

section Listings

/-- Every word after a separator, and the closing at the end. -/
def separated (sep closing : List χ) : List (List χ) → List χ
  | [] => closing
  | word :: words => sep ++ (word ++ separated sep closing words)

/-- The words with separators between them, and the closing at the end. -/
def listing (sep closing : List χ) : List (List χ) → List χ
  | [] => closing
  | word :: words => word ++ separated sep closing words

theorem separated_append (sep closing more : List χ) (words : List (List χ)) :
    separated sep closing words ++ more = separated sep (closing ++ more) words := by
  induction words with
  | nil => rfl
  | cons word words ih => simp only [separated, List.append_assoc, ih]

theorem listing_append (sep closing more : List χ) (words : List (List χ)) :
    listing sep closing words ++ more = listing sep (closing ++ more) words := by
  cases words with
  | nil => rfl
  | cons word words => simp only [listing, List.append_assoc, separated_append]

theorem mem_separated {sep closing : List χ} {words : List (List χ)} {c : χ}
    (h : c ∈ separated sep closing words) :
    c ∈ sep ∨ c ∈ closing ∨ ∃ word ∈ words, c ∈ word := by
  induction words with
  | nil => exact .inr (.inl h)
  | cons word words ih =>
      rcases List.mem_append.mp h with hsep | hrest
      · exact .inl hsep
      · rcases List.mem_append.mp hrest with hword | hrest
        · exact .inr (.inr ⟨word, List.mem_cons_self, hword⟩)
        · rcases ih hrest with hsep | hclosing | ⟨other, hother, hmem⟩
          · exact .inl hsep
          · exact .inr (.inl hclosing)
          · exact .inr (.inr ⟨other, List.mem_cons_of_mem word hother, hmem⟩)

theorem mem_listing {sep closing : List χ} {words : List (List χ)} {c : χ}
    (h : c ∈ listing sep closing words) :
    c ∈ sep ∨ c ∈ closing ∨ ∃ word ∈ words, c ∈ word := by
  cases words with
  | nil => exact .inr (.inl h)
  | cons word words =>
      rcases List.mem_append.mp h with hword | hrest
      · exact .inr (.inr ⟨word, List.mem_cons_self, hword⟩)
      · rcases mem_separated hrest with hsep | hclosing | ⟨other, hother, hmem⟩
        · exact .inl hsep
        · exact .inr (.inl hclosing)
        · exact .inr (.inr ⟨other, List.mem_cons_of_mem word hother, hmem⟩)

/-- A separator after every word is a listing that is closed by one. -/
theorem listing_eq_flatMap {sep : List χ} {words : List (List χ)} (h : words ≠ []) :
    listing sep sep words = words.flatMap fun word => word ++ sep := by
  have hseparated : ∀ words : List (List χ),
      separated sep sep words = sep ++ words.flatMap fun word => word ++ sep := by
    intro words
    induction words with
    | nil => simp [separated]
    | cons word words ih => simp [separated, ih]
  cases words with
  | nil => exact absurd rfl h
  | cons word words => simp [listing, hseparated]

variable {stop : χ → Prop} {f : α → List χ} {c d : χ} {sep closing : List χ}

theorem stops_separated (hc : stop c) (hd : stop d) (words : List (List χ)) (rest : List χ) :
    Stops stop (separated (c :: sep) (d :: closing) words ++ rest) := by
  cases words with
  | nil => exact stops_append hd
  | cons word words => exact stops_append hc

theorem Readable.separated (hf : Readable stop f) (hc : stop c) (hd : stop d) (hcd : c ≠ d)
    {xs ys : List α} {r s : List χ}
    (h : separated (c :: sep) (d :: closing) (xs.map f) ++ r =
      separated (c :: sep) (d :: closing) (ys.map f) ++ s) : xs = ys ∧ r = s := by
  induction xs generalizing ys with
  | nil =>
      cases ys with
      | nil => exact ⟨rfl, List.append_cancel_left h⟩
      | cons y ys => exact absurd (List.cons.inj h).1 hcd.symm
  | cons x xs ih =>
      cases ys with
      | nil => exact absurd (List.cons.inj h).1 hcd
      | cons y ys =>
          simp only [List.map_cons, UniqueReadability.separated, List.append_assoc] at h
          obtain ⟨rfl, hrest⟩ := hf _ _ _ _ (stops_separated hc hd _ _)
            (stops_separated hc hd _ _) (List.append_cancel_left h)
          obtain ⟨rfl, hend⟩ := ih hrest
          exact ⟨rfl, hend⟩

/-- A listing of words none of which looks like its closing. -/
theorem Readable.listing (hf : Readable stop f) (hc : stop c) (hd : stop d) (hcd : c ≠ d)
    (hhead : ∀ x, ∃ e word, f x = e :: word ∧ e ≠ d) {xs ys : List α} {r s : List χ}
    (h : listing (c :: sep) (d :: closing) (xs.map f) ++ r =
      listing (c :: sep) (d :: closing) (ys.map f) ++ s) : xs = ys ∧ r = s := by
  cases xs with
  | nil =>
      cases ys with
      | nil => exact ⟨rfl, List.append_cancel_left h⟩
      | cons y ys =>
          obtain ⟨e, word, hy, hne⟩ := hhead y
          rw [List.map_cons, UniqueReadability.listing, hy] at h
          exact absurd (List.cons.inj h).1 hne.symm
  | cons x xs =>
      cases ys with
      | nil =>
          obtain ⟨e, word, hx, hne⟩ := hhead x
          rw [List.map_cons, UniqueReadability.listing, hx] at h
          exact absurd (List.cons.inj h).1 hne
      | cons y ys =>
          simp only [List.map_cons, UniqueReadability.listing, List.append_assoc] at h
          obtain ⟨rfl, hrest⟩ := hf _ _ _ _ (stops_separated hc hd _ _)
            (stops_separated hc hd _ _) h
          obtain ⟨rfl, hend⟩ := hf.separated hc hd hcd hrest
          exact ⟨rfl, hend⟩

end Listings

end SkUtils.Library.UniqueReadability
