import Mathlib.Data.List.Basic
import SkUtils.Coroutine.IoUring

/-!
The callbacks of an `IoUringContext`. Each is submitted, called and deleted once and in this
order, and a coroutine that waits has exactly one operation in the ring.
-/

namespace SkUtils.Coroutine.IoUringCallbacks

open SkUtils.Library.TransitionSystem
open SkUtils.Coroutine.IoUring

section Lives

variable {Op : Type}

def callbackOf : Event Op → Option Nat
  | .submitted k _ _ => some k
  | .refused _ _ => none
  | .resumed k _ _ => some k
  | .deleted k => some k

def about (k : Nat) (events : List (Event Op)) : List (Event Op) :=
  events.filter fun event => callbackOf event == some k

/-- All that happens to the callback `k` of the coroutine `c`. -/
def life (k c : Nat) (op : Op) (res : Int) : List (Event Op) :=
  [.submitted k c op, .resumed k c (completed res), .deleted k]

/-- The callback that is to resume a coroutine. -/
def waitsFor : Status Op → Option Nat
  | .submitting _ k => some k
  | .suspended k => some k
  | _ => none

def Calling (s : State Op) (k : Nat) : Prop :=
  ∃ loop cqe, s.pc = .calling loop cqe k

/-- How far the callback `k` of `c` is, and where its operation is. -/
inductive Stage (s : State Op) (k c : Nat) : Bool → List (Event Op) → Prop
  | prepared (op : Op) (status : s.status c = .submitting op k) (outside : k ∉ s.in_ring) :
      Stage s k c false []
  | submitted (op : Op) (status : s.status c = .suspended k) (inside : k ∈ s.in_ring) :
      Stage s k c false [.submitted k c op]
  | called (op : Op) (res : Int) (calling : Calling s k)
      (resumed : waitsFor (s.status c) ≠ some k) :
      Stage s k c false [.submitted k c op, .resumed k c (completed res)]
  | deleted (op : Op) (res : Int) (outside : k ∉ s.in_ring) :
      Stage s k c true (life k c op res)

structure Tracked (s : State Op) (events : List (Event Op)) : Prop where
  alive : s.crashed = false
  stage : ∀ k c deleted, s.callbacks[k]? = some ⟨c, deleted⟩ →
    Stage s k c deleted (about k events)
  unborn : ∀ k, s.callbacks.length ≤ k → about k events = [] ∧ k ∉ s.in_ring
  held : ∀ c k, waitsFor (s.status c) = some k → s.callbacks[k]? = some ⟨c, false⟩
  calling : ∀ loop cqe k, s.pc = .calling loop cqe k → cqe.entry = some k ∧
    ∃ c, s.callbacks[k]? = some ⟨c, false⟩ ∧ waitsFor (s.status c) ≠ some k

variable {programs : Nat → Program Op} {s t : State Op} {k c : Nat} {events : List (Event Op)}
  {deleted : Bool}

theorem about_concat (event : Event Op) : about k (events ++ [event]) =
    about k events ++ if callbackOf event = some k then [event] else [] := by
  by_cases h : callbackOf event = some k <;> simp [about, h]

theorem about_concat_self {event : Event Op} (hevent : callbackOf event = some k) :
    about k (events ++ [event]) = about k events ++ [event] := by
  rw [about_concat, if_pos hevent]

theorem about_concat_of_ne {event : Event Op} {k' : Nat} (hevent : callbackOf event = some k')
    (hk : k ≠ k') : about k (events ++ [event]) = about k events := by
  rw [about_concat, hevent, if_neg fun h => hk (Option.some.inj h).symm, List.append_nil]

/-- What a callback does not take part in does not change how far it is. -/
theorem Stage.frame (h : Stage s k c deleted events)
    (hkept : waitsFor (s.status c) = some k → t.status c = s.status c)
    (hnew : waitsFor (t.status c) = some k → waitsFor (s.status c) = some k)
    (hring : k ∈ t.in_ring ↔ k ∈ s.in_ring) (hcalling : Calling s k → Calling t k) :
    Stage t k c deleted events := by
  cases h with
  | prepared op status outside =>
      exact .prepared op ((hkept (by rw [status]; rfl)).trans status) (mt hring.mp outside)
  | submitted op status inside =>
      exact .submitted op ((hkept (by rw [status]; rfl)).trans status) (hring.mpr inside)
  | called op res calling resumed => exact .called op res (hcalling calling) (mt hnew resumed)
  | deleted op res outside => exact .deleted op res (mt hring.mp outside)

/-- A callback that its coroutine waits for has not been called. -/
theorem Tracked.stage_of_waits (h : Tracked s events) (hc : waitsFor (s.status c) = some k) :
    (∃ op, s.status c = .submitting op k ∧ k ∉ s.in_ring ∧ about k events = []) ∨
      ∃ op, s.status c = .suspended k ∧ k ∈ s.in_ring ∧
        about k events = [.submitted k c op] := by
  have hstage := h.stage k c false (h.held c k hc)
  generalize habout : about k events = life at hstage
  cases hstage with
  | prepared op status outside => exact .inl ⟨op, status, outside, rfl⟩
  | submitted op status inside => exact .inr ⟨op, status, inside, rfl⟩
  | called op res calling resumed => exact absurd hc resumed

/-- No other coroutine waits for the callback of `c`. -/
theorem Tracked.eq_of_waits (h : Tracked s events) (hk : s.callbacks[k]? = some ⟨c, deleted⟩)
    {c' : Nat} (hwaits : waitsFor (s.status c') = some k) : c' = c ∧ deleted = false := by
  obtain ⟨rfl, rfl⟩ := Callback.mk.inj (Option.some.inj (hk.symm.trans (h.held c' k hwaits)))
  exact ⟨rfl, rfl⟩

/-! One lemma for each thing that a step does. -/

/-- A step of a coroutine that has no callback, or of a thread that is in no callback. -/
theorem Tracked.frame {later : List (Event Op)} (h : Tracked s events) (halive : t.crashed = false)
    (hcallbacks : t.callbacks = s.callbacks) (hring : t.in_ring = s.in_ring)
    (hstatus : ∀ c, t.status c = s.status c ∨
      waitsFor (s.status c) = none ∧ waitsFor (t.status c) = none)
    (hpc : ∀ loop cqe k, t.pc = .calling loop cqe k ↔ s.pc = .calling loop cqe k)
    (hlater : ∀ k, about k later = about k events) : Tracked t later := by
  have hwaits : ∀ c, waitsFor (t.status c) = waitsFor (s.status c) := by
    intro c
    rcases hstatus c with hc | ⟨hs, ht⟩
    · rw [hc]
    · rw [hs, ht]
  have hcalling : ∀ k, Calling s k → Calling t k := by
    rintro k ⟨loop, cqe, hk⟩
    exact ⟨loop, cqe, (hpc loop cqe k).mpr hk⟩
  constructor
  case alive => exact halive
  case stage =>
    intro k c deleted hk
    rw [hcallbacks] at hk
    rw [hlater]
    refine (h.stage k c deleted hk).frame ?_ (fun ht => hwaits c ▸ ht) (by rw [hring])
      (hcalling k)
    intro hs
    rcases hstatus c with hc | ⟨hnone, -⟩
    · exact hc
    · rw [hnone] at hs
      cases hs
  case unborn =>
    intro k hk
    rw [hlater, hring]
    exact h.unborn k (hcallbacks ▸ hk)
  case held =>
    intro c k hk
    rw [hcallbacks]
    exact h.held c k (hwaits c ▸ hk)
  case calling =>
    intro loop cqe k hk
    obtain ⟨hentry, c, hc, hresumed⟩ := h.calling loop cqe k ((hpc loop cqe k).mp hk)
    exact ⟨hentry, c, hcallbacks ▸ hc, hwaits c ▸ hresumed⟩

theorem Tracked.status (h : Tracked s events) (hc : waitsFor (s.status c) = none)
    {status : Status Op} (hstatus : waitsFor status = none) (results : Nat → List IoResult)
    {later : List (Event Op)} (hlater : ∀ k, about k later = about k events) :
    Tracked { s with results, status := Function.update s.status c status } later := by
  refine Tracked.frame h h.alive rfl rfl ?_ (fun _ _ _ => Iff.rfl) hlater
  intro c'
  rcases eq_or_ne c' c with rfl | hne
  · exact .inr ⟨hc, by simpa using hstatus⟩
  · exact .inl (Function.update_of_ne hne ..)

theorem Tracked.pc (h : Tracked s events) (hpc : ∀ loop cqe k, s.pc ≠ .calling loop cqe k)
    {pc : Pc} (hpc' : ∀ loop cqe k, pc ≠ .calling loop cqe k) (running_ : Bool)
    (stopping : Stopping) : Tracked { s with running_, pc, stopping } events :=
  Tracked.frame (t := { s with running_, pc, stopping }) h h.alive rfl rfl (fun _ => .inl rfl)
    (fun loop cqe k => iff_of_false (hpc' loop cqe k) (hpc loop cqe k)) fun _ => rfl

/-- From `s` to `t` nothing happens to the callbacks other than `k`. -/
structure Aside (k : Nat) (s t : State Op) (events later : List (Event Op)) : Prop where
  callbacks : ∀ k', k' ≠ k → t.callbacks[k']? = s.callbacks[k']?
  in_ring : ∀ k', k' ≠ k → (k' ∈ t.in_ring ↔ k' ∈ s.in_ring)
  status : ∀ c k', k' ≠ k → t.status c = s.status c ∨
    waitsFor (s.status c) ≠ some k' ∧ waitsFor (t.status c) ≠ some k'
  pc : ∀ loop cqe k', k' ≠ k → (t.pc = .calling loop cqe k' ↔ s.pc = .calling loop cqe k')
  events : ∀ k', k' ≠ k → about k' later = about k' events

/-- The callback `k` of `c` comes to its next stage. -/
theorem Tracked.next {later : List (Event Op)} (h : Tracked s events)
    (haside : Aside k s t events later) (halive : t.crashed = false)
    (hk : t.callbacks[k]? = some ⟨c, deleted⟩) (hstage : Stage t k c deleted (about k later))
    (hheld : ∀ c', waitsFor (t.status c') = some k → c' = c ∧ deleted = false)
    (hcalling : ∀ loop cqe, t.pc = .calling loop cqe k →
      cqe.entry = some k ∧ deleted = false ∧ waitsFor (t.status c) ≠ some k) :
    Tracked t later := by
  constructor
  case alive => exact halive
  case stage =>
    intro k' c' deleted' hk'
    rcases eq_or_ne k' k with rfl | hne
    · obtain ⟨rfl, rfl⟩ := Callback.mk.inj (Option.some.inj (hk.symm.trans hk'))
      exact hstage
    · rw [haside.events k' hne]
      rw [haside.callbacks k' hne] at hk'
      refine (h.stage k' c' deleted' hk').frame ?_ ?_ (haside.in_ring k' hne) ?_
      · intro hwaits
        exact (haside.status c' k' hne).resolve_right fun hnot => hnot.1 hwaits
      · intro hwaits
        exact (haside.status c' k' hne).resolve_right (fun hnot => hnot.2 hwaits) ▸ hwaits
      · rintro ⟨loop, cqe, hpc⟩
        exact ⟨loop, cqe, (haside.pc loop cqe k' hne).mpr hpc⟩
  case unborn =>
    intro k' hk'
    have hne : k' ≠ k := by
      rintro rfl
      rw [List.getElem?_eq_none hk'] at hk
      cases hk
    have hlength : s.callbacks.length ≤ k' := by
      rw [← List.getElem?_eq_none_iff, ← haside.callbacks k' hne]
      exact List.getElem?_eq_none hk'
    rw [haside.events k' hne, haside.in_ring k' hne]
    exact h.unborn k' hlength
  case held =>
    intro c' k' hwaits
    rcases eq_or_ne k' k with rfl | hne
    · obtain ⟨rfl, rfl⟩ := hheld c' hwaits
      exact hk
    · have hstatus := (haside.status c' k' hne).resolve_right fun hnot => hnot.2 hwaits
      rw [haside.callbacks k' hne]
      exact h.held c' k' (hstatus ▸ hwaits)
  case calling =>
    intro loop cqe k' hpc
    rcases eq_or_ne k' k with rfl | hne
    · obtain ⟨hentry, rfl, hresumed⟩ := hcalling loop cqe hpc
      exact ⟨hentry, c, hk, hresumed⟩
    · obtain ⟨hentry, c', hc', hresumed⟩ :=
        h.calling loop cqe k' ((haside.pc loop cqe k' hne).mp hpc)
      refine ⟨hentry, c', (haside.callbacks k' hne).trans hc', ?_⟩
      rcases haside.status c' k' hne with hsame | hnot
      · rwa [hsame]
      · exact hnot.2

theorem Tracked.prepare (h : Tracked s events) {op : Op} (hc : s.status c = .preparing op) :
    Tracked (prepare s c op) events := by
  have hself : (IoUring.prepare s c op).status c = .submitting op s.callbacks.length :=
    Function.update_self ..
  have hother : ∀ c', c' ≠ c → (IoUring.prepare s c op).status c' = s.status c' :=
    fun c' hne => Function.update_of_ne hne ..
  have hlast : s.callbacks[s.callbacks.length]? = none := List.getElem?_eq_none (Nat.le_refl _)
  obtain ⟨habout, hring⟩ := h.unborn _ (Nat.le_refl _)
  refine h.next (k := s.callbacks.length) ?_ h.alive (List.getElem?_concat_length ..)
    (habout ▸ .prepared op hself hring) ?_ ?_
  · constructor
    case callbacks =>
      intro k' hne
      rcases Nat.lt_or_gt_of_ne hne with hlt | hgt
      · exact List.getElem?_append_left hlt
      · rw [List.getElem?_eq_none (Nat.le_of_lt hgt)]
        refine List.getElem?_eq_none ?_
        change (s.callbacks ++ [_]).length ≤ k'
        rwa [List.length_append, List.length_singleton]
    case in_ring => exact fun _ _ => Iff.rfl
    case status =>
      intro c' k' hne
      rcases eq_or_ne c' c with rfl | hc'
      · refine .inr ⟨?_, ?_⟩
        · rw [hc]
          exact nofun
        · rw [hself]
          exact fun hwaits => hne (Option.some.inj hwaits).symm
      · exact .inl (hother c' hc')
    case pc => exact fun _ _ _ _ => Iff.rfl
    case events => exact fun _ _ => rfl
  · intro c' hwaits
    rcases eq_or_ne c' c with rfl | hc'
    · exact ⟨rfl, rfl⟩
    · rw [hother c' hc'] at hwaits
      rw [h.held c' _ hwaits] at hlast
      cases hlast
  · intro loop cqe hpc
    obtain ⟨-, c', hc', -⟩ := h.calling loop cqe _ hpc
    rw [hc'] at hlast
    cases hlast

theorem Tracked.submit (h : Tracked s events) {op : Op} (hc : s.status c = .submitting op k) :
    Tracked (submit s c k) (events ++ [.submitted k c op]) := by
  have hself : (IoUring.submit s c k).status c = .suspended k := Function.update_self ..
  have hother : ∀ c', c' ≠ c → (IoUring.submit s c k).status c' = s.status c' :=
    fun c' hne => Function.update_of_ne hne ..
  have hwaits : waitsFor (s.status c) = some k := by rw [hc]; rfl
  have hk : s.callbacks[k]? = some ⟨c, false⟩ := h.held c k hwaits
  have hnone : about k events = [] := by
    rcases h.stage_of_waits hwaits with ⟨-, -, -, hnone⟩ | ⟨-, hsuspended, -, -⟩
    · exact hnone
    · cases hc.symm.trans hsuspended
  refine h.next ?_ h.alive hk ?_ ?_ ?_
  · constructor
    case callbacks => exact fun _ _ => rfl
    case in_ring => exact fun k' hne => by simp [IoUring.submit, hne]
    case status =>
      intro c' k' hne
      rcases eq_or_ne c' c with rfl | hc'
      · rw [hwaits, hself]
        have hnot : some k ≠ some k' := fun heq => hne (Option.some.inj heq).symm
        exact .inr ⟨hnot, hnot⟩
      · exact .inl (hother c' hc')
    case pc => exact fun _ _ _ _ => Iff.rfl
    case events => exact fun k' hne => about_concat_of_ne rfl hne
  · rw [about_concat_self rfl, hnone]
    exact .submitted op hself List.mem_concat_self
  · intro c' hwaits'
    rcases eq_or_ne c' c with rfl | hc'
    · exact ⟨rfl, rfl⟩
    · rw [hother c' hc'] at hwaits'
      exact h.eq_of_waits hk hwaits'
  · intro loop cqe hpc
    obtain ⟨-, c', hc', hresumed⟩ := h.calling loop cqe k hpc
    obtain ⟨rfl, -⟩ := Callback.mk.inj (Option.some.inj (hk.symm.trans hc'))
    exact absurd hwaits hresumed

/-- The callback of a completion is called, and resumes its coroutine. -/
theorem Tracked.call (h : Tracked s events) (hpc : ∀ loop cqe k, s.pc ≠ .calling loop cqe k)
    (hc : s.status c = .suspended k) {cqe : Cqe} (hentry : cqe.entry = some k) (loop : Loop) :
    Tracked { resume s c (completed cqe.res) with pc := .calling loop cqe k }
      (events ++ [.resumed k c (completed cqe.res)]) := by
  have hself : (resume s c (completed cqe.res)).status c = .running := Function.update_self ..
  have hother : ∀ c', c' ≠ c → (resume s c (completed cqe.res)).status c' = s.status c' :=
    fun c' hne => Function.update_of_ne hne ..
  have hwaits : waitsFor (s.status c) = some k := by rw [hc]; rfl
  have hresumed : ∀ k', waitsFor ((resume s c (completed cqe.res)).status c) ≠ some k' := by
    intro k'
    rw [hself]
    exact nofun
  have hk : s.callbacks[k]? = some ⟨c, false⟩ := h.held c k hwaits
  obtain ⟨op, hop⟩ : ∃ op, about k events = [.submitted k c op] := by
    rcases h.stage_of_waits hwaits with ⟨op, hsubmitting, -, -⟩ | ⟨op, -, -, hop⟩
    · cases hc.symm.trans hsubmitting
    · exact ⟨op, hop⟩
  refine h.next ?_ h.alive hk ?_ ?_ ?_
  · constructor
    case callbacks => exact fun _ _ => rfl
    case in_ring => exact fun _ _ => Iff.rfl
    case status =>
      intro c' k' hne
      rcases eq_or_ne c' c with rfl | hc'
      · rw [hwaits]
        exact .inr ⟨fun heq => hne (Option.some.inj heq).symm, hresumed k'⟩
      · exact .inl (hother c' hc')
    case pc =>
      intro loop' cqe' k' hne
      refine iff_of_false (fun heq => ?_) (hpc loop' cqe' k')
      exact hne (Pc.calling.inj heq).2.2.symm
    case events => exact fun k' hne => about_concat_of_ne rfl hne
  · rw [about_concat_self rfl, hop]
    exact .called op cqe.res ⟨loop, cqe, rfl⟩ (hresumed k)
  · intro c' hwaits'
    rcases eq_or_ne c' c with rfl | hc'
    · exact ⟨rfl, rfl⟩
    · have hsame := hother c' hc'
      exact h.eq_of_waits hk (hsame ▸ hwaits')
  · intro loop' cqe' heq
    obtain ⟨-, rfl, -⟩ := Pc.calling.inj heq
    exact ⟨hentry, rfl, hresumed k⟩

theorem Tracked.seen (h : Tracked s events) {loop : Loop} {cqe : Cqe}
    (hpc : s.pc = .calling loop cqe k) (hk : s.callbacks[k]? = some ⟨c, deleted⟩) :
    Tracked (seen s loop cqe k c) (events ++ [.deleted k]) := by
  obtain ⟨hentry, c', hc', hresumed⟩ := h.calling loop cqe k hpc
  obtain ⟨rfl, rfl⟩ := Callback.mk.inj (Option.some.inj (hk.symm.trans hc'))
  obtain ⟨hlt, -⟩ := List.getElem?_eq_some_iff.mp hk
  have hring : ∀ k', k' ∈ (IoUring.seen s loop cqe k c).in_ring ↔ k' ∈ s.in_ring ∧ k ≠ k' := by
    intro k'
    simp [IoUring.seen, hentry]
  obtain ⟨op, res, hcalled⟩ : ∃ op res,
      about k events = [.submitted k c op, .resumed k c (completed res)] := by
    have hstage := h.stage k c false hk
    generalize about k events = life at hstage
    cases hstage with
    | prepared op status _ => exact absurd (by rw [status]; rfl) hresumed
    | submitted op status _ => exact absurd (by rw [status]; rfl) hresumed
    | called op res _ _ => exact ⟨op, res, rfl⟩
  refine h.next ?_ h.alive (List.getElem?_set_self hlt) ?_ ?_ nofun
  · constructor
    case callbacks => exact fun k' hne => List.getElem?_set_ne hne.symm
    case in_ring => exact fun k' hne => (hring k').trans (and_iff_left hne.symm)
    case status => exact fun _ _ _ => .inl rfl
    case pc =>
      intro loop' cqe' k' hne
      refine iff_of_false nofun fun heq => ?_
      exact hne (Pc.calling.inj (hpc.symm.trans heq)).2.2.symm
    case events => exact fun k' hne => about_concat_of_ne rfl hne
  · rw [about_concat_self rfl, hcalled]
    exact .deleted op res fun hmem => ((hring k).mp hmem).2 rfl
  · intro c' hwaits
    obtain ⟨rfl, -⟩ := h.eq_of_waits hk hwaits
    exact absurd hwaits hresumed

/-- A NOP that has no callback. -/
theorem Tracked.drop (h : Tracked s events) (hpc : ∀ loop cqe k, s.pc ≠ .calling loop cqe k)
    {cqe : Cqe} (hentry : cqe.entry = none) (loop : Loop) :
    Tracked { s with in_ring := s.in_ring.filter (cqe.entry ≠ some ·), pc := .test loop }
      events := by
  refine Tracked.frame h h.alive rfl ?_ (fun _ => .inl rfl) ?_ fun _ => rfl
  · simp [hentry]
  · intro loop' cqe' k
    exact iff_of_false (by simp) (hpc loop' cqe' k)

end Lives

section Runs

variable {Op : Type} {programs : Nat → Program Op} {s t : State Op} {events : List (Event Op)}
  {as : List Action} {c k : Nat}

/-- What `Promised` and `Cleared` ask of a run. -/
def Kept (s : State Op) (a : Action) : Prop :=
  Promised s a ∧ Cleared a

theorem kept_completion (hk : k ∈ s.in_ring) (res : Int) :
    Kept s (.completion (some ⟨some k, some k, res⟩)) := by
  constructor
  · intro k' hk'
    obtain rfl := Option.some.inj hk'
    exact ⟨hk, rfl⟩
  · intro hnone
    cases hnone

/-- A coroutine waits for each operation in the ring, or has just been resumed with it. -/
theorem Tracked.of_in_ring (h : Tracked s events) (hk : k ∈ s.in_ring) :
    ∃ c, s.callbacks[k]? = some ⟨c, false⟩ ∧ (s.status c = .suspended k ∨ Calling s k) := by
  have hlt : k < s.callbacks.length := by
    by_contra hle
    exact (h.unborn k (Nat.le_of_not_lt hle)).2 hk
  obtain ⟨⟨c, deleted⟩, hc⟩ : ∃ callback, s.callbacks[k]? = some callback :=
    ⟨_, List.getElem?_eq_getElem hlt⟩
  have hstage := h.stage k c deleted hc
  generalize about k events = life at hstage
  cases hstage with
  | prepared op status outside => exact absurd hk outside
  | submitted op status inside => exact ⟨c, hc, .inl status⟩
  | called op res calling resumed => exact ⟨c, hc, .inr calling⟩
  | deleted op res outside => exact absurd hk outside

theorem Tracked.handle (h : Tracked s events) (hpc : ∀ loop cqe k, s.pc ≠ .calling loop cqe k)
    {cqe : Cqe} (hkept : Kept s (.completion (some cqe))) (loop : Loop) :
    Tracked (handle s loop cqe) (events ++ called s cqe) := by
  obtain ⟨hpromised, hcleared⟩ := hkept
  cases hentry : cqe.entry with
  | none =>
      have hdata : cqe.user_data = none := hcleared hentry
      simpa [IoUring.handle, called, hdata] using h.drop hpc hentry loop
  | some k =>
      obtain ⟨hk, hdata⟩ := hpromised k hentry
      obtain ⟨c, hc, hsuspended | ⟨loop', cqe', hcalling⟩⟩ := h.of_in_ring hk
      · simpa [IoUring.handle, called, hdata, hc, hsuspended] using
          h.call hpc hsuspended hentry loop
      · exact absurd hcalling (hpc loop' cqe' k)

theorem Tracked.move {a : Action} {later : List (Event Op)} (h : Tracked s events)
    (hkept : Kept s a) (hmove : Move programs s a later t) : Tracked t (events ++ later) := by
  cases hmove with
  | ended status =>
      rw [List.append_nil]
      exact h.status (by rw [status]; rfl) rfl s.results fun _ => rfl
  | got status =>
      rw [List.append_nil]
      exact h.status (by rw [status]; rfl) rfl s.results fun _ => rfl
  | refused status =>
      refine h.status (by rw [status]; rfl) rfl _ fun k => ?_
      rw [about_concat, if_neg (by simp [callbackOf]), List.append_nil]
  | prepared status =>
      rw [List.append_nil]
      exact h.prepare status
  | submitted status => exact h.submit status
  | started pc =>
      rw [List.append_nil]
      exact h.pc (by simp [pc]) (by simp) true s.stopping
  | polls pc =>
      rw [List.append_nil]
      exact h.pc (by simp [pc]) (by simp) s.running_ s.stopping
  | tested pc =>
      rw [List.append_nil]
      refine h.pc (by simp [pc]) ?_ s.running_ s.stopping
      intro loop cqe k
      split <;> simp
  | empty pc =>
      rw [List.append_nil]
      exact h.pc (by simp [pc]) (by simp) s.running_ s.stopping
  | interrupted pc =>
      rw [List.append_nil]
      exact h.pc (by simp [pc]) (by simp) s.running_ s.stopping
  | polled pc => exact h.handle (by simp [pc]) hkept .poll_completions
  | waited pc => exact h.handle (by simp [pc]) hkept .thread
  | seen pc callback => exact h.seen pc callback
  | stop =>
      rw [List.append_nil]
      exact Tracked.frame h h.alive rfl rfl (fun _ => .inl rfl) (fun _ _ _ => Iff.rfl)
        fun _ => rfl

theorem tracked_of_run (run : Run (context programs) Kept as s) :
    Tracked s (outputs (context programs) (happens programs) (context programs).init as) := by
  refine run.invariant (fun as s => Tracked s
    (outputs (context programs) (happens programs) (context programs).init as)) ?_ ?_
  · constructor <;> simp [context, outputs, about, waitsFor]
  · intro as s a t run hkept hstep hs
    rw [run.outputs_extend]
    exact hs.move hkept (move_of_step hstep)

end Runs

section Answers

variable {Op : Type} {programs : Nat → Program Op} {s t : State Op} {events : List (Event Op)}
  {as : List Action} {c : Nat}

/-- What an event tells the coroutine `c`. -/
def resultOf (c : Nat) : Event Op → Option IoResult
  | .refused c' _ => if c' = c then some refused else none
  | .resumed _ c' result => if c' = c then some result else none
  | _ => none

/-- What the coroutine `c` asks for in an event. -/
def opOf (c : Nat) : Event Op → Option Op
  | .submitted _ c' op => if c' = c then some op else none
  | .refused c' op => if c' = c then some op else none
  | _ => none

/-- The operation for which a coroutine has an entry that it has not submitted. -/
def underway : Status Op → Option Op
  | .preparing op => some op
  | .submitting op _ => some op
  | _ => none

/-- Each coroutine has found its results in the order of its operations, and has asked for
them as its program says. -/
structure Answered (programs : Nat → Program Op) (s : State Op) (events : List (Event Op)) :
    Prop where
  results : ∀ c, s.results c = events.filterMap (resultOf c)
  asked : ∀ before event after, events = before ++ event :: after → ∀ c op,
    opOf c event = some op → programs c (before.filterMap (resultOf c)) = some op
  asks : ∀ c op, underway (s.status c) = some op → programs c (s.results c) = some op

theorem Answered.concat (h : Answered programs s events) {event : Event Op}
    (hresults : ∀ c, t.results c = s.results c ++ (resultOf c event).toList)
    (hasked : ∀ c op, opOf c event = some op → programs c (s.results c) = some op)
    (hasks : ∀ c op, underway (t.status c) = some op → programs c (t.results c) = some op) :
    Answered programs t (events ++ [event]) := by
  constructor
  case results =>
    intro c
    rw [hresults, h.results, List.filterMap_append]
    cases hresult : resultOf c event <;> simp [hresult]
  case asked =>
    intro before event' after hevents c op hop
    rcases List.eq_nil_or_concat after with rfl | ⟨after', last, rfl⟩
    · obtain ⟨rfl, hlast⟩ := List.append_inj' hevents rfl
      obtain rfl : event = event' := by simpa using hlast
      rw [← h.results]
      exact hasked c op hop
    · rw [List.concat_eq_append, ← List.cons_append, ← List.append_assoc] at hevents
      obtain ⟨hbefore, -⟩ := List.append_inj' hevents rfl
      exact h.asked before event' after' hbefore c op hop
  case asks => exact hasks

theorem Answered.same (h : Answered programs s events) (hresults : t.results = s.results)
    (hstatus : ∀ c op, underway (t.status c) = some op →
      underway (s.status c) = some op ∨ programs c (s.results c) = some op) :
    Answered programs t events := by
  constructor
  case results => exact fun c => hresults ▸ h.results c
  case asked => exact h.asked
  case asks =>
    intro c op hop
    rw [hresults]
    exact (hstatus c op hop).elim (h.asks c op) id

theorem results_resume (s : State Op) (c c' : Nat) (result : IoResult) :
    (resume s c result).results c' =
      s.results c' ++ (if c = c' then some result else none).toList := by
  rcases eq_or_ne c c' with rfl | hne
  · simp [resume]
  · simp [resume, hne, Function.update_of_ne hne.symm]

/-- A step that no coroutine takes part in. -/
theorem Answered.silent (h : Answered programs s events) {silence : List (Event Op)}
    (hsilence : silence = []) (hresults : t.results = s.results)
    (hstatus : t.status = s.status) : Answered programs t (events ++ silence) := by
  rw [hsilence, List.append_nil]
  exact h.same hresults fun c op hop => .inl (hstatus ▸ hop)

/-- The coroutine `c` goes on, and the others stay as they are. -/
theorem Answered.resume (h : Answered programs s events) {result : IoResult} {event : Event Op}
    (hresult : ∀ c', resultOf c' event = if c = c' then some result else none)
    (hasked : ∀ c' op, opOf c' event = some op → programs c' (s.results c') = some op) :
    Answered programs (resume s c result) (events ++ [event]) := by
  refine h.concat (fun c' => ?_) hasked fun c' op hop => ?_
  · rw [results_resume, hresult]
  · rcases eq_or_ne c' c with rfl | hne
    · simp [IoUring.resume, underway] at hop
    · simp only [IoUring.resume, Function.update_of_ne hne] at hop ⊢
      exact h.asks c' op hop

/-- The coroutine `c` is at another place, and finds no result. -/
theorem Answered.status (h : Answered programs s events) {status : Status Op}
    (hstatus : ∀ op, underway status = some op → programs c (s.results c) = some op)
    (callbacks : List Callback) (in_ring : List Nat) :
    Answered programs
      { s with callbacks, in_ring, status := Function.update s.status c status } events := by
  refine h.same rfl fun c' op hop => ?_
  rcases eq_or_ne c' c with rfl | hne
  · exact .inr (hstatus op (by simpa using hop))
  · exact .inl (by simpa [Function.update_of_ne hne] using hop)

theorem Answered.handle (h : Answered programs s events) (loop : Loop) (cqe : Cqe) :
    Answered programs (IoUring.handle s loop cqe) (events ++ called s cqe) := by
  have hcases := handle_cases s loop cqe
  generalize IoUring.handle s loop cqe = t at hcases
  generalize called s cqe = later at hcases
  cases hcases with
  | dropped => exact h.silent rfl rfl rfl
  | @called k c _ _ callback status =>
      have hresumed : Answered programs (IoUring.resume s c (completed cqe.res))
          (events ++ [.resumed k c (completed cqe.res)]) :=
        h.resume (fun _ => rfl) nofun
      exact ⟨hresumed.results, hresumed.asked, hresumed.asks⟩
  | crashed => exact h.silent rfl rfl rfl

theorem Answered.move {a : Action} {later : List (Event Op)} (h : Answered programs s events)
    (hmove : Move programs s a later t) : Answered programs t (events ++ later) := by
  cases hmove with
  | ended =>
      rw [List.append_nil]
      exact h.status (fun op hop => by cases hop) _ _
  | got status program =>
      rw [List.append_nil]
      exact h.status (fun op' hop => hop ▸ program) _ _
  | @refused c op status program =>
      refine h.resume (fun _ => rfl) fun c' op' hop => ?_
      obtain ⟨rfl, rfl⟩ : c = c' ∧ op = op' := by simpa [opOf] using hop
      exact program
  | @prepared c op _ status =>
      rw [List.append_nil]
      exact h.status (fun op' hop => h.asks c op' (by rw [status]; exact hop)) _ _
  | @submitted c k op _ status =>
      have hop := h.asks c op (by rw [status]; rfl)
      have hsubmitted : Answered programs (submit s c k) events :=
        h.status (fun op' hop' => by cases hop') _ _
      refine hsubmitted.concat (fun c' => (List.append_nil _).symm) ?_ hsubmitted.asks
      intro c' op' hop'
      obtain ⟨rfl, rfl⟩ : c = c' ∧ op = op' := by simpa [opOf] using hop'
      exact hop
  | polled => exact h.handle .poll_completions _
  | waited => exact h.handle .thread _
  | seen => exact h.concat (fun _ => (List.append_nil _).symm) nofun h.asks
  | _ => exact h.silent rfl rfl rfl

theorem answered_of_run {P : State Op → Action → Prop} (run : Run (context programs) P as s) :
    Answered programs s
      (outputs (context programs) (happens programs) (context programs).init as) := by
  refine run.invariant (fun as s => Answered programs s
    (outputs (context programs) (happens programs) (context programs).init as)) ?_ ?_
  · constructor
    case results => exact fun _ => rfl
    case asked =>
      intro before event after hevents
      simp [outputs] at hevents
    case asks =>
      intro c op hop
      cases hop
  · intro as s a t run _ hstep hs
    rw [run.outputs_extend]
    exact hs.move (move_of_step hstep)

/-- What the run has done to its callbacks and coroutines. -/
structure Accounted (programs : Nat → Program Op) (s : State Op) (events : List (Event Op)) :
    Prop extends Answered programs s events where
  alive : s.crashed = false
  once : ∀ k c deleted, s.callbacks[k]? = some ⟨c, deleted⟩ → ∃ op res,
    about k events <+: life k c op res ∧ (deleted = true ↔ about k events = life k c op res)
  waits : ∀ c k, s.status c = .suspended k →
    k ∈ s.in_ring ∧ ∃ op, about k events = [.submitted k c op]
  in_ring : ∀ k ∈ s.in_ring, ∃ c, s.callbacks[k]? = some ⟨c, false⟩ ∧
    (s.status c = .suspended k ∨ Calling s k)

theorem Stage.isPrefix {k : Nat} {deleted : Bool} (h : Stage s k c deleted events) :
    ∃ op res, events <+: life k c op res ∧ (deleted = true ↔ events = life k c op res) := by
  cases h with
  | prepared op _ _ => exact ⟨op, 0, List.nil_prefix, by simp [life]⟩
  | submitted op _ _ => exact ⟨op, 0, ⟨_, rfl⟩, by simp [life]⟩
  | called op res _ _ => exact ⟨op, res, ⟨_, rfl⟩, by simp [life]⟩
  | deleted op res _ => exact ⟨op, res, List.prefix_refl _, by simp⟩

/-- One coroutine that reads once. -/
def readOnce : Nat → Program Unit :=
  fun c results => if c = 0 ∧ results = [] then some () else none

def awaitRead : List Action :=
  [.start, .turn, .advance 0 true, .advance 0 true, .advance 0 true]

/-- It has read `5` bytes and ends in the callback. The thread waits again when the context is
stopped, and the NOP wakes it up. -/
def readAndStop : List Action :=
  [.advance 0 true, .turn, .turn, .stop true, .stop true, .stop true,
    .completion (some ⟨none, none, 0⟩), .turn, .stop true]

end Answers

end SkUtils.Coroutine.IoUringCallbacks
