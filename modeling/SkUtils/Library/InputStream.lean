import Mathlib.Data.List.TakeWhile

/-!
Input streams over a file: a position, `eofbit` and `failbit`. The contents of the file
are an argument of each operation, since they may change from one to the next.
-/

namespace SkUtils.Library.InputStream

structure Stream where
  position : Nat
  eofbit : Bool
  failbit : Bool
deriving DecidableEq

namespace Stream

def opened : Stream :=
  { position := 0, eofbit := false, failbit := false }

def good (s : Stream) : Bool :=
  !s.eofbit && !s.failbit

/-- `seekg` to a position of the file. It clears `eofbit` before it tests `failbit`. -/
def seekg (position : Nat) (s : Stream) : Stream :=
  if s.failbit then { s with eofbit := false }
  else { position := position, eofbit := false, failbit := false }

/-- `tellg`, with `none` for `-1`. -/
def tellg (s : Stream) : Option Nat × Stream :=
  if s.good then (some s.position, s) else (none, { s with failbit := true })

variable {α : Type*}

def read (contents : List α) (count : Nat) (s : Stream) : List α × Stream :=
  if s.good then
    let block := (contents.drop s.position).take count
    (block,
      { position := s.position + block.length
        eofbit := decide (block.length < count)
        failbit := decide (block.length < count) })
  else ([], { s with failbit := true })

variable [DecidableEq α]

/-- `std::getline`, which fails if it extracts nothing, not even the delimiter. -/
def getline (delim : α) (contents : List α) (s : Stream) : List α × Stream :=
  if s.good then
    let rest := contents.drop s.position
    let line := rest.takeWhile (· ≠ delim)
    if line.length < rest.length then
      (line, { s with position := s.position + line.length + 1 })
    else
      (line,
        { position := s.position + line.length, eofbit := true, failbit := line.isEmpty })
  else ([], { s with failbit := true })

end Stream

variable {α : Type*} [DecidableEq α]

/-- The lines of a text. A delimiter at its end does not begin another one. -/
def lines (delim : α) : List α → List (List α)
  | [] => []
  | c :: rest =>
      if c = delim then [] :: lines delim rest
      else
        match lines delim rest with
        | [] => [[c]]
        | line :: more => (c :: line) :: more

section Lines

variable {delim : α}

theorem lines_delimited {line : List α} (h : delim ∉ line) (rest : List α) :
    lines delim (line ++ delim :: rest) = line :: lines delim rest := by
  induction line with
  | nil => simp [lines]
  | cons c line ih =>
      rw [List.mem_cons, not_or] at h
      rw [List.cons_append, lines, if_neg (Ne.symm h.1), ih h.2]

theorem lines_last {line : List α} (h : delim ∉ line) (hne : line ≠ []) :
    lines delim line = [line] := by
  induction line with
  | nil => exact absurd rfl hne
  | cons c line ih =>
      rw [List.mem_cons, not_or] at h
      rw [lines, if_neg (Ne.symm h.1)]
      cases line with
      | nil => rfl
      | cons d line => rw [ih h.2 (List.cons_ne_nil _ _)]

/-- A text is empty, one line without its delimiter, or a line and the text behind it. -/
theorem text_cases (delim : α) (text : List α) :
    text = [] ∨ (text ≠ [] ∧ delim ∉ text) ∨
      ∃ line rest, text = line ++ delim :: rest ∧ delim ∉ line := by
  by_cases hmem : delim ∈ text
  · obtain ⟨line, rest, htext, hline⟩ := List.eq_append_cons_of_mem hmem
    exact .inr (.inr ⟨line, rest, htext, hline⟩)
  · by_cases hne : text = []
    · exact .inl hne
    · exact .inr (.inl ⟨hne, hmem⟩)

/-- The text with a delimiter behind its last line. -/
def terminated (delim : α) (text : List α) : List α :=
  (lines delim text).flatMap (· ++ [delim])

end Lines

section Getline

variable {delim : α} {contents : List α} {s : Stream}

/-- The stream is not failed and `pending` are the lines from its position on. -/
structure Pending (delim : α) (contents : List α) (s : Stream) (pending : List (List α)) :
    Prop where
  failbit : s.failbit = false
  lines : lines delim (contents.drop s.position) = pending
  atEnd : s.eofbit = true → pending = []

theorem pending_opened : Pending delim contents .opened (lines delim contents) where
  failbit := rfl
  lines := rfl
  atEnd := by rintro ⟨⟩

theorem getline_failed (h : s.good = false) :
    s.getline delim contents = ([], { s with failbit := true }) := by
  rw [Stream.getline, h]
  rfl

theorem getline_of_good (h : s.good = true) :
    s.getline delim contents =
      let rest := contents.drop s.position
      let line := rest.takeWhile (· ≠ delim)
      if line.length < rest.length then
        (line, { s with position := s.position + line.length + 1 })
      else
        (line,
          { position := s.position + line.length, eofbit := true, failbit := line.isEmpty }) := by
  rw [Stream.getline, if_pos h]

theorem takeWhile_delimited {line rest : List α} (h : delim ∉ line) :
    (line ++ delim :: rest).takeWhile (· ≠ delim) = line := by
  rw [List.takeWhile_append_of_pos fun c hc => by simpa using fun heq : c = delim => h (heq ▸ hc)]
  simp

theorem Pending.good {line : List α} {more : List (List α)}
    (h : Pending delim contents s (line :: more)) : s.good = true := by
  have hnotEnd : s.eofbit = false := by
    cases heof : s.eofbit with
    | false => rfl
    | true => cases h.atEnd heof
  rw [Stream.good, hnotEnd, h.failbit]
  rfl

theorem Pending.getline_cons {line : List α} {more : List (List α)}
    (h : Pending delim contents s (line :: more)) :
    ∃ s', s.getline delim contents = (line, s') ∧ Pending delim contents s' more := by
  have hlines := h.lines
  rw [getline_of_good h.good]
  rcases text_cases delim (contents.drop s.position) with
    hnil | ⟨hne, hmem⟩ | ⟨first, rest, htext, hfirst⟩
  · rw [hnil] at hlines
    cases hlines
  · rw [lines_last hmem hne] at hlines
    obtain ⟨hline, rfl⟩ := List.cons.inj hlines
    rw [hline] at hmem hne
    have htake : line.takeWhile (· ≠ delim) = line := by
      rw [List.takeWhile_eq_self_iff]
      exact fun c hc => by simpa using fun heq : c = delim => hmem (heq ▸ hc)
    simp only [hline, htake, Nat.lt_irrefl, if_false]
    refine ⟨_, rfl, ⟨?_, ?_, fun _ => rfl⟩⟩
    · simpa using hne
    · have hend : contents.drop (s.position + line.length) = [] := by
        rw [← List.drop_drop, hline, List.drop_length]
      rw [hend]
      rfl
  · rw [htext, lines_delimited hfirst] at hlines
    obtain ⟨rfl, hmore⟩ := List.cons.inj hlines
    have hlonger : first.length < (first ++ delim :: rest).length := by simp
    simp only [htext, takeWhile_delimited hfirst, if_pos hlonger]
    refine ⟨_, rfl, ⟨h.failbit, ?_, fun heof => ?_⟩⟩
    · have hrest : contents.drop (s.position + first.length + 1) = rest := by
        rw [Nat.add_assoc, ← List.drop_drop, htext, ← List.drop_drop, List.drop_left]
        rfl
      rw [hrest]
      exact hmore
    · cases h.atEnd heof

theorem Pending.getline_nil (h : Pending delim contents s []) :
    ∃ s', s.getline delim contents = ([], s') ∧ s'.failbit = true := by
  by_cases hgood : s.good = true
  · have hrest : contents.drop s.position = [] := by
      rcases text_cases delim (contents.drop s.position) with
        hnil | ⟨hne, hmem⟩ | ⟨first, rest, htext, hfirst⟩
      · exact hnil
      · have := h.lines
        rw [lines_last hmem hne] at this
        cases this
      · have := h.lines
        rw [htext, lines_delimited hfirst] at this
        cases this
    rw [getline_of_good hgood, hrest]
    exact ⟨_, rfl, rfl⟩
  · rw [getline_failed (by simpa using hgood)]
    exact ⟨_, rfl, rfl⟩

end Getline

end SkUtils.Library.InputStream
