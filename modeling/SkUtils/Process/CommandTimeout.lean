import SkUtils.Process.ProcessExecutor

/-!
The timeout of `ExecuteCommandPosix`. The end time is computed and tested with `time(NULL)`,
which is the clock rounded down to whole seconds.
-/

namespace SkUtils.Process.ProcessExecutor

open SkUtils.Library.TransitionSystem

theorem currentTime_mono {now later : Nat} (h : now ≤ later) :
    currentTime now ≤ currentTime later := by
  unfold currentTime
  omega

theorem late_iff {timeoutMs : Int} {s : State} :
    s.late timeoutMs = true ↔ 0 < timeoutMs ∧ s.endTime ≤ currentTime s.now := by
  simp [State.late]

/-- What a step does to the clock and to `timedOut`. -/
theorem Step.clock {timeoutMs : Int} {s t : State} {a : Action} (h : Step timeoutMs s a t) :
    t.endTime = s.endTime ∧ s.now ≤ t.now ∧
      (t.timedOut = s.timedOut ∨ s.late timeoutMs = true ∧ t.timedOut = some s.now) := by
  cases h with
  | elapse => exact ⟨rfl, Nat.le_add_right _ _, .inl rfl⟩
  | timeOut _ _ hlate => exact ⟨rfl, Nat.le_add_right _ _, .inr ⟨hlate, rfl⟩⟩
  | @read _ _ result _ _ _ => cases result <;> exact ⟨rfl, Nat.le_refl _, .inl rfl⟩
  | _ => exact ⟨rfl, Nat.le_refl _, .inl rfl⟩

structure Clocked (start : Nat) (timeoutMs : Int) (s : State) : Prop where
  endTime : s.endTime = endTime start timeoutMs
  started : start ≤ s.now
  timedOut : ∀ instant, s.timedOut = some instant →
    0 < timeoutMs ∧ s.endTime ≤ currentTime instant

theorem Clocked.step {start : Nat} {timeoutMs : Int} {s t : State} {a : Action}
    (hs : Clocked start timeoutMs s) (h : Step timeoutMs s a t) : Clocked start timeoutMs t := by
  obtain ⟨hend, hnow, htimed⟩ := h.clock
  refine ⟨hend.trans hs.endTime, Nat.le_trans hs.started hnow, fun instant hinstant => ?_⟩
  rcases htimed with hsame | ⟨hlate, hnew⟩
  · rw [hend]
    exact hs.timedOut instant (hsame ▸ hinstant)
  · obtain rfl : s.now = instant := Option.some.inj (hnew.symm.trans hinstant)
    rw [hend]
    exact late_iff.mp hlate

theorem clocked_of_reachable {start : Nat} {timeoutMs : Int} {s : State}
    (h : Reachable (executeCommandPosix start timeoutMs) s) : Clocked start timeoutMs s := by
  refine h.invariant (Clocked start timeoutMs) ⟨rfl, Nat.le_refl _, ?_⟩ fun s a t hstep hs => ?_
  · intro instant hinstant
    cases hinstant
  · exact hs.step (step_cases hstep)

/-- `static_cast<int>(endTime - currentTime)` does not change the value. -/
theorem remaining_bounds {start : Nat} {timeoutMs : Int} {s : State}
    (h : Reachable (executeCommandPosix start timeoutMs) s) (positive : 0 < timeoutMs)
    (inTime : s.late timeoutMs = false) :
    0 < s.endTime - currentTime s.now ∧ s.endTime - currentTime s.now ≤ timeoutMs := by
  have hclocked := clocked_of_reachable h
  have hend : s.endTime = currentTime start + timeoutMs := by
    rw [hclocked.endTime, endTime, if_pos positive]
  have hmono := currentTime_mono hclocked.started
  have hearly : ¬ s.endTime ≤ currentTime s.now := fun hle => by
    rw [late_iff.mpr ⟨positive, hle⟩] at inTime
    cases inTime
  omega

/-- The first whole second at or after the end time. -/
def firstTick (start : Nat) (timeoutMs : Int) : Nat :=
  (currentTime start + timeoutMs + (-timeoutMs) % 1000).toNat

theorem firstTick_eq (start : Nat) {timeoutMs : Int} (positive : 0 < timeoutMs) :
    (firstTick start timeoutMs : Int) = currentTime start + timeoutMs + (-timeoutMs) % 1000 := by
  unfold firstTick currentTime
  omega

theorem currentTime_firstTick (start : Nat) {timeoutMs : Int} (positive : 0 < timeoutMs) :
    currentTime (firstTick start timeoutMs) = firstTick start timeoutMs := by
  have h := firstTick_eq start positive
  unfold currentTime at *
  omega

theorem start_le_firstTick (start : Nat) {timeoutMs : Int} (positive : 0 < timeoutMs) :
    start ≤ firstTick start timeoutMs := by
  have h := firstTick_eq start positive
  unfold currentTime at h
  omega

theorem firstTick_le {start : Nat} {timeoutMs : Int} (positive : 0 < timeoutMs) {instant : Nat}
    (h : currentTime start + timeoutMs ≤ currentTime instant) :
    firstTick start timeoutMs ≤ instant := by
  have htick := firstTick_eq start positive
  unfold currentTime at *
  omega

/-- A signal that arrives while the parent is in `poll` makes it test the clock. -/
def interruptAt (start instant : Nat) : List Action :=
  [.test, .elapse (instant - start), .poll .interrupted, .test]

theorem exec_interruptAt (start instant : Nat) {timeoutMs : Int} (positive : 0 < timeoutMs)
    (h : start ≤ instant) (ends : currentTime start + timeoutMs ≤ currentTime instant) :
    ∃ s, exec (executeCommandPosix start timeoutMs) (executeCommandPosix start timeoutMs).init
      (interruptAt start instant) = some s ∧ s.timedOut = some instant := by
  have hfirst : ¬ currentTime start + timeoutMs ≤ currentTime start := by omega
  have hinstant : start + (instant - start) = instant := Nat.add_sub_cancel' h
  simp [interruptAt, exec, executeCommandPosix, step, test, State.reading, State.late, endTime,
    callPoll, poll, timeOut, positive, hfirst, hinstant, ends]

theorem timedOut_firstTick (start : Nat) {timeoutMs : Int} (positive : 0 < timeoutMs) :
    ∃ s, Reachable (executeCommandPosix start timeoutMs) s ∧
      s.timedOut = some (firstTick start timeoutMs) := by
  have hends : currentTime start + timeoutMs ≤ currentTime (firstTick start timeoutMs) := by
    rw [currentTime_firstTick start positive, firstTick_eq start positive]
    omega
  obtain ⟨s, hexec, htimed⟩ :=
    exec_interruptAt start _ positive (start_le_firstTick start positive) hends
  exact ⟨s, reachable_of_exec hexec, htimed⟩

theorem timeout_not_early_iff (start : Nat) (timeoutMs : Int) (positive : 0 < timeoutMs) :
    (∀ s, Reachable (executeCommandPosix start timeoutMs) s →
      ∀ instant : Nat, s.timedOut = some instant → (start : Int) + timeoutMs ≤ instant) ↔
        (start : Int) % 1000 ≤ (-timeoutMs) % 1000 := by
  have htick := firstTick_eq start positive
  have hrounded : currentTime start = start - (start : Int) % 1000 := by
    unfold currentTime
    omega
  constructor
  · intro h
    obtain ⟨s, hreach, htimed⟩ := timedOut_firstTick start positive
    have := h s hreach _ htimed
    omega
  · intro h s hreach instant htimed
    have hclocked := clocked_of_reachable hreach
    have hlate := (hclocked.timedOut instant htimed).2
    rw [hclocked.endTime, endTime, if_pos positive] at hlate
    have := firstTick_le positive hlate
    omega

theorem timeout_not_early_iff_at_zero :
    (0 : Int) < 1000 ∧
      ((∀ s, Reachable (executeCommandPosix 0 1000) s →
        ∀ instant : Nat, s.timedOut = some instant → ((0 : Nat) : Int) + 1000 ≤ instant) ↔
          ((0 : Nat) : Int) % 1000 ≤ (-1000) % 1000) :=
  ⟨by decide, timeout_not_early_iff 0 1000 (by decide)⟩

/-- One millisecond after a start at 999 ms the timeout of a second has passed. -/
theorem timeout_early :
    ¬ ∀ (start : Nat) (timeoutMs : Int), 0 < timeoutMs →
      ∀ s, Reachable (executeCommandPosix start timeoutMs) s →
        ∀ instant : Nat, s.timedOut = some instant → (start : Int) + timeoutMs ≤ instant := by
  intro h
  obtain ⟨s, hexec, htimed⟩ :=
    exec_interruptAt 999 1000 (by decide : 0 < (1000 : Int)) (by decide) (by decide)
  have := h 999 1000 (by decide) s (reachable_of_exec hexec) 1000 htimed
  omega

end SkUtils.Process.ProcessExecutor
