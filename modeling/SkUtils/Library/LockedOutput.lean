import Mathlib.Algebra.GroupWithZero.Nat
import SkUtils.Library.LockTraces

/-!
What threads put out that share a lock. The words of a critical section stay together: the
output under the lock is a sequence of whole sections and the start of one more.
-/

namespace SkUtils.Library.LockedOutput

open SkUtils.Library.TransitionSystem
open SkUtils.Library.LockTraces

universe u

variable {α : Type u}

/-- A word that a thread puts out, and whether the thread has the lock then. -/
structure Word (α : Type u) where
  thread : Nat
  locked : Bool
  text : α

def written (s : State α) (i : Nat) : List (Word α) :=
  match s.traces[i]? with
  | some (.emit a :: _) => [⟨i, decide (s.owner = some i), a⟩]
  | _ => []

/-- The words of each section of a trace. `part` are the words that the section put out
before which the trace is in from its start. -/
def sections : Option (List α) → List (Event α) → List (List α)
  | _, [] => []
  | none, .emit _ :: trace => sections none trace
  | some part, .emit a :: trace => sections (some (part ++ [a])) trace
  | _, .lock :: trace => sections (some []) trace
  | none, .unlock :: trace => sections none trace
  | some part, .unlock :: trace => part :: sections none trace

/-- What a trace puts out without the lock. -/
def loose : Bool → List (Event α) → List α
  | _, [] => []
  | true, .emit _ :: trace => loose true trace
  | false, .emit a :: trace => a :: loose false trace
  | _, .lock :: trace => loose true trace
  | _, .unlock :: trace => loose false trace

def lockedTexts (words : List (Word α)) : List α :=
  (words.filter Word.locked).map Word.text

def looseTexts (i : Nat) (words : List (Word α)) : List α :=
  (words.filter fun word => word.thread == i && !word.locked).map Word.text

/-- What thread `i` has in an order of what the threads did. -/
def byThread (i : Nat) (order : List (Nat × List α)) : List (List α) :=
  (order.filter fun entry => entry.1 == i).map Prod.snd

section Texts

variable {words : List (Word α)} {order : List (Nat × List α)} {i j : Nat} {a : α}

theorem lockedTexts_concat (word : Word α) : lockedTexts (words ++ [word]) =
    lockedTexts words ++ if word.locked then [word.text] else [] := by
  cases hlocked : word.locked <;> simp [lockedTexts, hlocked]

theorem looseTexts_concat (word : Word α) : looseTexts i (words ++ [word]) =
    looseTexts i words ++ if word.thread = i ∧ word.locked = false then [word.text] else [] := by
  by_cases h : word.thread = i ∧ word.locked = false
  · simp [looseTexts, h]
  · have hnot : (word.thread == i && !word.locked) = false := by
      cases hlocked : word.locked <;> simp_all
    simp [looseTexts, h, hnot]

theorem byThread_concat (words : List α) : byThread j (order ++ [(i, words)]) =
    byThread j order ++ if i = j then [words] else [] := by
  by_cases h : i = j <;> simp [byThread, h]

theorem written_emit {s : State α} {rest : List (Event α)}
    (h : s.traces[i]? = some (.emit a :: rest)) :
    written s i = [⟨i, decide (s.owner = some i), a⟩] := by
  simp [written, h]

theorem written_lock {s : State α} {rest : List (Event α)}
    (h : s.traces[i]? = some (.lock :: rest)) : written s i = [] := by
  simp [written, h]

theorem written_unlock {s : State α} {rest : List (Event α)}
    (h : s.traces[i]? = some (.unlock :: rest)) : written s i = [] := by
  simp [written, h]

end Texts

section Serial

/-- The sections that are done, in the order in which they were left, and the words of the
one that is not. -/
structure Serial (traces : List (List (Event α))) (s : State α) (words : List (Word α))
    (order : List (Nat × List α)) (part : List α) : Prop where
  texts : lockedTexts words = order.flatMap Prod.snd ++ part
  free : s.owner = none → part = []
  owned : ∀ i, s.owner = some i → i < s.traces.length
  length : s.traces.length = traces.length
  done : ∀ i trace rest, traces[i]? = some trace → s.traces[i]? = some rest →
    sections none trace =
      byThread i order ++ sections (if s.owner = some i then some part else none) rest
  outside : ∀ i trace rest, traces[i]? = some trace → s.traces[i]? = some rest →
    loose false trace = looseTexts i words ++ loose (decide (s.owner = some i)) rest

variable {traces : List (List (Event α))} {s t : State α} {words : List (Word α)}
  {order : List (Nat × List α)} {part : List α} {i : Nat} {rest : List (Event α)}

theorem serial_start (traces : List (List (Event α))) :
    Serial traces (threads traces).init [] [] [] := by
  constructor
  case texts => rfl
  case free => exact fun _ => rfl
  case owned =>
    intro i howner
    cases howner
  case length => rfl
  case done =>
    intro i trace rest htrace hrest
    obtain rfl := Option.some.inj (htrace.symm.trans hrest)
    rfl
  case outside =>
    intro i trace rest htrace hrest
    obtain rfl := Option.some.inj (htrace.symm.trans hrest)
    rfl

theorem getElem?_set_cases {j : Nat} {left : List (Event α)}
    (h : (s.traces.set i rest)[j]? = some left) :
    (j = i ∧ left = rest) ∨ (j ≠ i ∧ s.traces[j]? = some left) := by
  rcases eq_or_ne j i with rfl | hij
  · obtain ⟨hj, hleft⟩ := List.getElem?_eq_some_iff.mp h
    rw [List.getElem_set_self] at hleft
    exact .inl ⟨rfl, hleft.symm⟩
  · rw [List.getElem?_set_ne hij.symm] at h
    exact .inr ⟨hij, h⟩

theorem Serial.lock (h : Serial traces s words order part)
    (hnext : s.traces[i]? = some (.lock :: rest)) (htraces : t.traces = s.traces.set i rest)
    (hfree : s.owner = none) (howner : t.owner = some i) :
    Serial traces t words order [] := by
  obtain rfl := h.free hfree
  obtain ⟨hi, -⟩ := List.getElem?_eq_some_iff.mp hnext
  constructor
  case texts => exact h.texts
  case free => exact fun _ => rfl
  case owned =>
    intro j hj
    obtain rfl := Option.some.inj (howner.symm.trans hj)
    rwa [htraces, List.length_set]
  case length => rw [htraces, List.length_set, h.length]
  case done =>
    intro j trace left htrace hleft
    rw [htraces] at hleft
    rcases getElem?_set_cases hleft with ⟨rfl, rfl⟩ | ⟨hij, hleft⟩
    · rw [h.done j trace _ htrace hnext, howner, hfree]
      simp [sections]
    · rw [h.done j trace left htrace hleft, howner, hfree]
      simp [hij.symm]
  case outside =>
    intro j trace left htrace hleft
    rw [htraces] at hleft
    rcases getElem?_set_cases hleft with ⟨rfl, rfl⟩ | ⟨hij, hleft⟩
    · rw [h.outside j trace _ htrace hnext, howner, hfree]
      simp [loose]
    · rw [h.outside j trace left htrace hleft, howner, hfree]
      simp [hij.symm]

theorem Serial.unlock (h : Serial traces s words order part)
    (hnext : s.traces[i]? = some (.unlock :: rest)) (htraces : t.traces = s.traces.set i rest)
    (hheld : s.owner = some i) (howner : t.owner = none) :
    Serial traces t words (order ++ [(i, part)]) [] := by
  constructor
  case texts => simp [h.texts]
  case free => exact fun _ => rfl
  case owned =>
    intro j hj
    cases howner.symm.trans hj
  case length => rw [htraces, List.length_set, h.length]
  case done =>
    intro j trace left htrace hleft
    rw [htraces] at hleft
    rw [byThread_concat, howner]
    rcases getElem?_set_cases hleft with ⟨rfl, rfl⟩ | ⟨hij, hleft⟩
    · rw [h.done j trace _ htrace hnext, hheld]
      simp [sections]
    · rw [h.done j trace left htrace hleft, hheld]
      simp [hij.symm]
  case outside =>
    intro j trace left htrace hleft
    rw [htraces] at hleft
    rcases getElem?_set_cases hleft with ⟨rfl, rfl⟩ | ⟨hij, hleft⟩
    · rw [h.outside j trace _ htrace hnext, howner, hheld]
      simp [loose]
    · rw [h.outside j trace left htrace hleft, howner, hheld]
      simp [hij.symm]

theorem Serial.emit_locked {a : α} (h : Serial traces s words order part)
    (hnext : s.traces[i]? = some (.emit a :: rest)) (htraces : t.traces = s.traces.set i rest)
    (hheld : s.owner = some i) (howner : t.owner = s.owner) :
    Serial traces t (words ++ [⟨i, true, a⟩]) order (part ++ [a]) := by
  rw [hheld] at howner
  constructor
  case texts => simp [lockedTexts_concat, h.texts]
  case free =>
    intro hfree
    cases howner.symm.trans hfree
  case owned =>
    intro j hj
    obtain rfl := Option.some.inj (howner.symm.trans hj)
    rw [htraces, List.length_set]
    exact h.owned _ hheld
  case length => rw [htraces, List.length_set, h.length]
  case done =>
    intro j trace left htrace hleft
    rw [htraces] at hleft
    rcases getElem?_set_cases hleft with ⟨rfl, rfl⟩ | ⟨hij, hleft⟩
    · rw [h.done j trace _ htrace hnext, howner, hheld]
      simp [sections]
    · rw [h.done j trace left htrace hleft, howner, hheld]
      simp [hij.symm]
  case outside =>
    intro j trace left htrace hleft
    rw [htraces] at hleft
    rw [looseTexts_concat]
    rcases getElem?_set_cases hleft with ⟨rfl, rfl⟩ | ⟨hij, hleft⟩
    · rw [h.outside j trace _ htrace hnext, howner, hheld]
      simp [loose]
    · rw [h.outside j trace left htrace hleft, howner, hheld]
      simp

theorem Serial.emit_loose {a : α} (h : Serial traces s words order part)
    (hnext : s.traces[i]? = some (.emit a :: rest)) (htraces : t.traces = s.traces.set i rest)
    (hheld : s.owner ≠ some i) (howner : t.owner = s.owner) :
    Serial traces t (words ++ [⟨i, false, a⟩]) order part := by
  constructor
  case texts => simp [lockedTexts_concat, h.texts]
  case free =>
    intro hfree
    exact h.free (howner.symm.trans hfree)
  case owned =>
    intro j hj
    rw [htraces, List.length_set]
    exact h.owned j (howner.symm.trans hj)
  case length => rw [htraces, List.length_set, h.length]
  case done =>
    intro j trace left htrace hleft
    rw [htraces] at hleft
    rw [howner]
    rcases getElem?_set_cases hleft with ⟨rfl, rfl⟩ | ⟨hij, hleft⟩
    · rw [h.done j trace _ htrace hnext]
      simp [hheld, sections]
    · exact h.done j trace left htrace hleft
  case outside =>
    intro j trace left htrace hleft
    rw [htraces] at hleft
    rw [howner, looseTexts_concat]
    rcases getElem?_set_cases hleft with ⟨rfl, rfl⟩ | ⟨hij, hleft⟩
    · rw [h.outside j trace _ htrace hnext]
      simp [hheld, loose]
    · rw [h.outside j trace left htrace hleft]
      simp [hij.symm]

theorem Serial.step (h : Serial traces s words order part) (hdisciplined : Disciplined s)
    (hstep : step s i = some t) :
    ∃ order part, Serial traces t (words ++ written s i) order part := by
  obtain ⟨event, rest, hnext, htraces, howner⟩ := step_cases hstep
  cases event with
  | lock =>
      rw [written_lock hnext, List.append_nil]
      exact ⟨_, _, h.lock hnext htraces howner.1 howner.2⟩
  | unlock =>
      have hheld : s.owner = some i := by
        by_contra hheld
        have hself := hdisciplined i _ hnext
        rw [decide_eq_false hheld] at hself
        cases hself
      rw [written_unlock hnext, List.append_nil]
      exact ⟨_, _, h.unlock hnext htraces hheld howner⟩
  | emit a =>
      rw [written_emit hnext]
      by_cases hheld : s.owner = some i
      · rw [decide_eq_true hheld]
        exact ⟨_, _, h.emit_locked hnext htraces hheld howner⟩
      · rw [decide_eq_false hheld]
        exact ⟨_, _, h.emit_loose hnext htraces hheld howner⟩

theorem disciplined_of_reachable (h : ∀ trace ∈ traces, follow false trace = .released)
    (hs : Reachable (threads traces) s) : Disciplined s := by
  refine hs.invariant Disciplined ?_ fun _ _ _ hstep hs => hs.step hstep
  intro i trace htrace
  exact h trace (List.mem_of_getElem? htrace)

theorem exists_serial {as : List Nat} (h : ∀ trace ∈ traces, follow false trace = .released)
    (run : Run (threads traces) Unrestricted as s) : ∃ order part,
    Serial traces s (outputs (threads traces) written (threads traces).init as) order part := by
  refine run.invariant (fun as s => ∃ order part, Serial traces s
    (outputs (threads traces) written (threads traces).init as) order part)
    ⟨[], [], serial_start traces⟩ ?_
  rintro as s i t run - hstep ⟨order, part, hserial⟩
  rw [run.outputs_extend]
  exact hserial.step (disciplined_of_reachable h run.reachable) hstep

end Serial

section Progress

def Finished (s : State α) : Prop :=
  ∀ rest ∈ s.traces, rest = []

def left (s : State α) : Nat :=
  (s.traces.map List.length).sum

variable {traces : List (List (Event α))} {s t : State α} {i : Nat}

theorem left_step (h : step s i = some t) : left t < left s := by
  obtain ⟨event, rest, hnext, htraces, -⟩ := step_cases h
  obtain ⟨hi, hevent⟩ := List.getElem?_eq_some_iff.mp hnext
  obtain ⟨before, after, hs, -, ht⟩ : ∃ before after, s.traces = before ++ s.traces[i] :: after ∧
      before.length = i ∧ s.traces.set i rest = before ++ rest :: after := List.exists_of_set hi
  rw [hevent] at hs
  rw [left, left, htraces, ht, hs]
  simp

/-- The thread with the lock can always go on, and without an owner every thread can. -/
theorem exists_step (h : Disciplined s) (howned : ∀ i, s.owner = some i → i < s.traces.length)
    (hleft : ¬Finished s) : ∃ i t, step s i = some t := by
  cases howner : s.owner with
  | some i =>
      have hi := howned i howner
      have hself := h i _ (List.getElem?_eq_getElem hi)
      rw [decide_eq_true howner] at hself
      cases htrace : s.traces[i] with
      | nil =>
          rw [htrace] at hself
          cases hself
      | cons event rest =>
          have hnext : s.traces[i]? = some (event :: rest) := by
            rw [List.getElem?_eq_getElem hi, htrace]
          rw [htrace] at hself
          cases event with
          | lock => cases hself
          | unlock => exact ⟨i, ⟨none, s.traces.set i rest⟩, by simp [step, hnext]⟩
          | emit a => exact ⟨i, ⟨s.owner, s.traces.set i rest⟩, by simp [step, hnext]⟩
  | none =>
      simp only [Finished, not_forall] at hleft
      obtain ⟨trace, hmem, hne⟩ := hleft
      obtain ⟨i, hi⟩ := List.getElem?_of_mem hmem
      cases trace with
      | nil => exact absurd rfl hne
      | cons event rest =>
          cases event with
          | lock => exact ⟨i, ⟨some i, s.traces.set i rest⟩, by simp [step, hi, howner]⟩
          | unlock => exact ⟨i, ⟨none, s.traces.set i rest⟩, by simp [step, hi]⟩
          | emit a => exact ⟨i, ⟨s.owner, s.traces.set i rest⟩, by simp [step, hi]⟩

theorem exists_exec_finished (h : ∀ trace ∈ traces, follow false trace = .released)
    {as : List Nat} (run : Run (threads traces) Unrestricted as s) :
    ∃ bs t, exec (threads traces) s bs = some t ∧ Finished t := by
  induction hn : left s using Nat.strongRecOn generalizing as s with
  | ind n ih =>
      subst hn
      by_cases hleft : Finished s
      · exact ⟨[], s, rfl, hleft⟩
      · obtain ⟨order, part, hserial⟩ := exists_serial h run
        obtain ⟨i, t, hstep⟩ :=
          exists_step (disciplined_of_reachable h run.reachable) hserial.owned hleft
        obtain ⟨bs, u, hexec, hend⟩ := ih _ (left_step hstep) (run.extend trivial hstep) rfl
        exact ⟨i :: bs, u, Option.bind_eq_some_iff.mpr ⟨t, hstep, hexec⟩, hend⟩

variable {words : List (Word α)} {order : List (Nat × List α)} {part : List α}

theorem Serial.exists_rest (h : Serial traces s words order part) {trace : List (Event α)}
    (htrace : traces[i]? = some trace) : ∃ rest, s.traces[i]? = some rest := by
  obtain ⟨hi, -⟩ := List.getElem?_eq_some_iff.mp htrace
  exact ⟨_, List.getElem?_eq_getElem (h.length ▸ hi)⟩

/-- At the end the output under the lock is all sections of all threads. -/
theorem Serial.finished (h : Serial traces s words order part) (hdisciplined : Disciplined s)
    (hend : Finished s) : part = [] ∧ ∀ i trace, traces[i]? = some trace →
      sections none trace = byThread i order ∧ loose false trace = looseTexts i words := by
  have hfree : s.owner = none := by
    cases howner : s.owner with
    | none => rfl
    | some i =>
        have hi := h.owned i howner
        have hself := hdisciplined i _ (List.getElem?_eq_getElem hi)
        rw [decide_eq_true howner, hend _ (List.getElem_mem hi)] at hself
        cases hself
  refine ⟨h.free hfree, fun i trace htrace => ?_⟩
  obtain ⟨rest, hrest⟩ := h.exists_rest htrace
  have hnil : s.traces[i]? = some [] := by
    rw [hrest, hend rest (List.mem_of_getElem? hrest)]
  have hsections := h.done i trace [] htrace hnil
  have hloose := h.outside i trace [] htrace hnil
  rw [hfree] at hsections
  simp only [sections, loose, List.append_nil] at hsections hloose
  exact ⟨hsections, hloose⟩

theorem Serial.done_isPrefix (h : Serial traces s words order part) {trace : List (Event α)}
    (htrace : traces[i]? = some trace) : byThread i order <+: sections none trace := by
  obtain ⟨rest, hrest⟩ := h.exists_rest htrace
  rw [h.done i trace rest htrace hrest]
  exact List.prefix_append _ _

theorem Serial.outside_isPrefix (h : Serial traces s words order part) {trace : List (Event α)}
    (htrace : traces[i]? = some trace) : looseTexts i words <+: loose false trace := by
  obtain ⟨rest, hrest⟩ := h.exists_rest htrace
  rw [h.outside i trace rest htrace hrest]
  exact List.prefix_append _ _

/-- A section that is left once has at its start what is out of it before. -/
theorem sections_some {trace : List (Event α)} (h : follow true trace = .released) :
    ∃ rest others, ∀ part, sections (some part) trace = (part ++ rest) :: others := by
  induction trace with
  | nil => cases h
  | cons event trace ih =>
      cases event with
      | lock => cases h
      | unlock => exact ⟨[], sections none trace, fun part => by simp [sections]⟩
      | emit a =>
          obtain ⟨rest, others, hrest⟩ := ih h
          exact ⟨a :: rest, others, fun part => by simp [sections, hrest]⟩

/-- What is out of the section that is not done is the start of the next one of its thread. -/
theorem Serial.part_isPrefix (h : Serial traces s words order part)
    (hdisciplined : Disciplined s) (howner : s.owner = some i) : ∃ trace next,
    traces[i]? = some trace ∧ byThread i order ++ [next] <+: sections none trace ∧
      part <+: next := by
  have hi := h.owned i howner
  have htrace := List.getElem?_eq_getElem (h.length ▸ hi)
  have hrest := List.getElem?_eq_getElem hi
  have hself := hdisciplined i _ hrest
  rw [decide_eq_true howner] at hself
  obtain ⟨rest, others, hsome⟩ := sections_some hself
  refine ⟨_, part ++ rest, htrace, ?_, List.prefix_append part rest⟩
  rw [h.done i _ _ htrace hrest, if_pos howner, hsome]
  exact ⟨others, by simp⟩

end Progress

end SkUtils.Library.LockedOutput
