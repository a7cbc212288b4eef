import SkUtils.Library.InputStream

/-!
`FileReader` of `file.h` on a file whose contents do not change while it is open.
-/

namespace SkUtils.Files.FileReader

open SkUtils.Library.InputStream

structure Reader where
  in_ : Stream
  valid_ : Bool

inductive Failure
  | lengthError
deriving DecidableEq

def newline : UInt8 :=
  10

/-- `ReadAll`. A `tellg` of `-1` is converted to the size of the string, which is then
above `max_size`, and `resize` throws. -/
def readAll (contents : List UInt8) (reader : Reader) :
    Except Failure (List UInt8) × Reader :=
  if reader.valid_ then
    let (size, told) := (reader.in_.seekg contents.length).tellg
    let start := told.seekg 0
    match size with
    | none => (.error .lengthError, { reader with in_ := start })
    | some size =>
        let (content, done) := start.read contents size
        (.ok (if done.failbit then [] else content), { reader with in_ := done })
  else (.ok [], reader)

def readLine (contents : List UInt8) (reader : Reader) : List UInt8 × Reader :=
  if reader.valid_ then
    let (line, rest) := reader.in_.getline newline contents
    (line, { reader with in_ := rest })
  else ([], reader)

inductive Call
  | readLine
  | readAll
deriving DecidableEq

inductive Result
  | line (line : List UInt8)
  | all (outcome : Except Failure (List UInt8))

def call (contents : List UInt8) (reader : Reader) : Call → Result × Reader
  | .readLine => let (line, next) := readLine contents reader; (.line line, next)
  | .readAll => let (outcome, next) := readAll contents reader; (.all outcome, next)

def results (contents : List UInt8) : Reader → List Call → List Result
  | _, [] => []
  | reader, c :: calls =>
      let (result, next) := call contents reader c
      result :: results contents next calls

def opened : Reader :=
  { in_ := .opened, valid_ := true }

section Calls

variable {contents : List UInt8} {s : Stream}

/-- The reader of an open file. -/
def reading (s : Stream) : Reader :=
  { in_ := s, valid_ := true }

theorem readAll_of_ok (h : s.failbit = false) :
    ∃ s', readAll contents (reading s) = (.ok contents, reading s') ∧
      Pending newline contents s' [] := by
  refine ⟨{ position := contents.length, eofbit := false, failbit := false }, ?_, ?_⟩
  · simp [readAll, reading, Stream.seekg, Stream.tellg, Stream.good, Stream.read, h]
  · constructor
    · rfl
    · simp [lines]
    · rintro ⟨⟩

theorem readAll_of_failed (h : s.failbit = true) :
    ∃ s', readAll contents (reading s) = (.error .lengthError, reading s') ∧
      s'.failbit = true := by
  refine ⟨{ position := s.position, eofbit := false, failbit := true }, ?_, rfl⟩
  simp [readAll, reading, Stream.seekg, Stream.tellg, Stream.good, h]

theorem readLine_of_getline {line : List UInt8} {s' : Stream}
    (h : s.getline newline contents = (line, s')) :
    readLine contents (reading s) = (line, reading s') := by
  simp [readLine, reading, h]

/-- Every `ReadAll` of the calls gives the contents. -/
def Whole (contents : List UInt8) (reader : Reader) (calls : List Call) : Prop :=
  ∀ outcome, .all outcome ∈ results contents reader calls → outcome = .ok contents

theorem whole_nil {reader : Reader} : Whole contents reader [] := by
  rintro outcome ⟨⟩

theorem whole_readLine {line : List UInt8} {s' : Stream} {calls : List Call}
    (h : s.getline newline contents = (line, s')) :
    Whole contents (reading s) (.readLine :: calls) ↔ Whole contents (reading s') calls := by
  simp [Whole, results, call, readLine_of_getline h]

theorem whole_readAll {calls : List Call} (h : s.failbit = false) :
    ∃ s', Pending newline contents s' [] ∧
      (Whole contents (reading s) (.readAll :: calls) ↔ Whole contents (reading s') calls) := by
  obtain ⟨s', hread, hpending⟩ := @readAll_of_ok contents s h
  refine ⟨s', hpending, ?_⟩
  simp [Whole, results, call, hread]

/-- The calls of `ReadLine` come first and are at most `k`, up to the last `ReadAll`. -/
def LinesFirst (k : Nat) (calls : List Call) : Prop :=
  ∀ before after, calls = before ++ .readAll :: after →
    ∃ n ≤ k, ∃ m, before = List.replicate n .readLine ++ List.replicate m .readAll

theorem linesFirst_nil (k : Nat) : LinesFirst k [] := by
  intro before after h
  simp at h

/-- Without a line left, no call of `ReadLine` comes first. -/
theorem readLine_cons_ne (before : List Call) (m : Nat) :
    .readLine :: before ≠ List.replicate 0 Call.readLine ++ List.replicate m .readAll := by
  intro h
  rw [List.replicate_zero, List.nil_append] at h
  have := List.eq_of_mem_replicate (h ▸ List.mem_cons_self)
  cases this

theorem linesFirst_readLine (k : Nat) (calls : List Call) :
    LinesFirst (k + 1) (.readLine :: calls) ↔ LinesFirst k calls := by
  constructor
  · intro h before after hcalls
    obtain ⟨n, hn, m, hbefore⟩ := h (.readLine :: before) after (by rw [hcalls]; rfl)
    cases n with
    | zero => exact absurd hbefore (readLine_cons_ne before m)
    | succ n =>
        rw [List.replicate_succ, List.cons_append] at hbefore
        exact ⟨n, Nat.le_of_succ_le_succ hn, m, (List.cons.inj hbefore).2⟩
  · intro h before after hcalls
    cases before with
    | nil => cases (List.cons.inj hcalls).1
    | cons c before =>
        obtain ⟨rfl, hrest⟩ := List.cons.inj hcalls
        obtain ⟨n, hn, m, rfl⟩ := h before after hrest
        exact ⟨n + 1, Nat.succ_le_succ hn, m, rfl⟩

/-- After a `ReadAll` the stream is at the end of the file, without a line left. -/
theorem linesFirst_readAll (k : Nat) (calls : List Call) :
    LinesFirst k (.readAll :: calls) ↔ LinesFirst 0 calls := by
  constructor
  · intro h before after hcalls
    obtain ⟨n, hn, m, hbefore⟩ := h (.readAll :: before) after (by rw [hcalls]; rfl)
    cases n with
    | zero =>
        rw [List.replicate_zero, List.nil_append] at hbefore
        refine ⟨0, Nat.le_refl 0, before.length, ?_⟩
        rw [List.replicate_zero, List.nil_append, List.eq_replicate_iff]
        exact ⟨rfl, fun c hc => List.eq_of_mem_replicate
          (hbefore ▸ List.mem_cons_of_mem _ hc)⟩
    | succ n =>
        rw [List.replicate_succ, List.cons_append] at hbefore
        cases (List.cons.inj hbefore).1
  · intro h before after hcalls
    cases before with
    | nil => exact ⟨0, Nat.zero_le k, 0, rfl⟩
    | cons c before =>
        obtain ⟨rfl, hrest⟩ := List.cons.inj hcalls
        obtain ⟨n, hn, m, rfl⟩ := h before after hrest
        obtain rfl := Nat.le_zero.mp hn
        exact ⟨0, Nat.zero_le k, m + 1, rfl⟩

theorem linesFirst_exhausted (calls : List Call) :
    LinesFirst 0 (.readLine :: calls) ↔ .readAll ∉ calls := by
  constructor
  · intro h hmem
    obtain ⟨before, after, hcalls⟩ := List.append_of_mem hmem
    obtain ⟨n, hn, m, hbefore⟩ := h (.readLine :: before) after (by rw [hcalls]; rfl)
    obtain rfl := Nat.le_zero.mp hn
    exact readLine_cons_ne before m hbefore
  · intro h before after hcalls
    cases before with
    | nil => cases (List.cons.inj hcalls).1
    | cons c before =>
        exact absurd ((List.cons.inj hcalls).2 ▸ List.mem_append_right before List.mem_cons_self) h

theorem whole_failed_iff {calls : List Call} (h : s.failbit = true) :
    Whole contents (reading s) calls ↔ .readAll ∉ calls := by
  induction calls generalizing s with
  | nil => exact iff_of_true whole_nil List.not_mem_nil
  | cons c calls ih =>
      cases c with
      | readLine =>
          have hgood : s.good = false := by simp [Stream.good, h]
          rw [whole_readLine (getline_failed hgood), ih rfl]
          simp
      | readAll =>
          obtain ⟨s', hread, -⟩ := @readAll_of_failed contents s h
          refine iff_of_false (fun hwhole => ?_) (by simp)
          have := hwhole (.error .lengthError) (by simp [results, call, hread])
          cases this

theorem whole_iff {pending : List (List UInt8)} {calls : List Call}
    (h : Pending newline contents s pending) :
    Whole contents (reading s) calls ↔ LinesFirst pending.length calls := by
  induction calls generalizing s pending with
  | nil => exact iff_of_true whole_nil (linesFirst_nil _)
  | cons c calls ih =>
      cases c with
      | readAll =>
          obtain ⟨s', hpending, hwhole⟩ := @whole_readAll contents s calls h.failbit
          rw [hwhole, ih hpending, linesFirst_readAll]
          rfl
      | readLine =>
          cases pending with
          | nil =>
              obtain ⟨s', hline, hfailed⟩ := h.getline_nil
              rw [whole_readLine hline, whole_failed_iff hfailed]
              exact (linesFirst_exhausted calls).symm
          | cons line pending =>
              obtain ⟨s', hline, hpending⟩ := h.getline_cons
              rw [whole_readLine hline, ih hpending]
              exact (linesFirst_readLine pending.length calls).symm

end Calls

theorem readAll_whole_iff (contents : List UInt8) (calls : List Call) :
    (∀ outcome, .all outcome ∈ results contents opened calls → outcome = .ok contents) ↔
      ∀ before after, calls = before ++ .readAll :: after →
        ∃ n ≤ (lines newline contents).length, ∃ m,
          before = List.replicate n .readLine ++ List.replicate m .readAll := by
  have hopened := @pending_opened UInt8 _ newline contents
  exact whole_iff hopened

/-- A line is read from the empty file, and `ReadAll` throws. -/
theorem readAll_throws :
    ¬ ∀ (contents : List UInt8) (calls : List Call) (outcome : Except Failure (List UInt8)),
      .all outcome ∈ results contents opened calls → outcome = .ok contents := by
  intro h
  have := h [] [.readLine, .readAll] (.error .lengthError) (by simp [results, call]; decide)
  cases this

end SkUtils.Files.FileReader
