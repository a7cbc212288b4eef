import SkUtils.Coroutine.EventLoop

/-!
`stop` of an `EventLoop` against one call of `run`. The store of `running_` with which
`run` begins may come after the store of a `stop` that was made in the meantime.
-/

namespace SkUtils.Coroutine.EventLoopStop

open SkUtils.Library.TransitionSystem
open SkUtils.Coroutine.EventLoop

variable {τ : Type}

/-- One call of `run`, and `stop` only once it has been made. -/
def OneRun (s : State τ) : Action τ → Prop
  | .run => s.loop = .notCalled
  | .stop => s.loop ≠ .notCalled
  | _ => True

/-- A `stop` has returned and `run` is blocked in its wait as if there had been none. -/
def LostStop (s : State τ) : Prop :=
  0 < s.stopped ∧ s.loop = .blocked ∧ s.running = true

/-- `run` has made its first store when `stop` makes its own. -/
def StoredBeforeStop (s : State τ) : Action τ → Prop
  | .stop => s.loop ≠ .storeRunning
  | _ => True

section Heard

def BeforeLoop (pc : LoopPc) : Prop :=
  pc = .notCalled ∨ pc = .storeRunning

/-- From its store on, a `stop` keeps `running_` false, and once it has notified `run`
is not blocked. -/
structure StopHeard (s : State τ) : Prop where
  cleared : 0 < s.stopping + s.stopped → s.running = false ∧ ¬ BeforeLoop s.loop
  awake : 0 < s.stopped → s.loop ≠ .blocked

theorem notifyOne_loop (s : State τ) :
    (s.loop = .blocked ∧ (notifyOne s).loop = .woken) ∨
      (s.loop ≠ .blocked ∧ (notifyOne s).loop = s.loop) := by
  by_cases hpc : s.loop = .blocked
  · exact .inl ⟨hpc, by simp [notifyOne, hpc]⟩
  · exact .inr ⟨hpc, by simp [notifyOne, hpc]⟩

/-- A step of the thread in `run` that has left its first store behind and does not block
keeps what has been heard. -/
theorem StopHeard.goto {s t : State τ} (h : StopHeard s)
    (hcounts : t.stopping = s.stopping ∧ t.stopped = s.stopped)
    (hrunning : s.running = false → t.running = false)
    (hpc : ¬ BeforeLoop t.loop ∧ t.loop ≠ .blocked) : StopHeard t := by
  refine ⟨fun hstop => ⟨hrunning ?_, hpc.1⟩, fun _ => hpc.2⟩
  rw [hcounts.1, hcounts.2] at hstop
  exact (h.cleared hstop).1

theorem StopHeard.loop {s t : State τ} (h : StopHeard s) (loop : RunLoop s t) :
    StopHeard t := by
  cases loop with
  | storeRunning pc =>
      have hnone : ¬ 0 < s.stopping + s.stopped :=
        fun hstop => (h.cleared hstop).2 (.inr pc)
      exact ⟨fun hstop => absurd hstop hnone, fun _ => by simp⟩
  | block _ _ running =>
      have hnone : ¬ 0 < s.stopping + s.stopped := by
        intro hstop
        simp [(h.cleared hstop).1] at running
      refine ⟨fun hstop => absurd hstop hnone, fun hstopped => ?_⟩
      exact absurd (Nat.add_pos_right _ hstopped) hnone
  | _ => exact h.goto ⟨rfl, rfl⟩ id (by simp [BeforeLoop])

theorem StopHeard.notifyOne {s : State τ} (h : StopHeard s) :
    StopHeard (EventLoop.notifyOne s) := by
  rcases notifyOne_loop s with ⟨-, hwoken⟩ | ⟨-, hsame⟩
  · exact h.goto ⟨rfl, rfl⟩ id (by simp [hwoken, BeforeLoop])
  · exact ⟨fun hstop => ⟨(h.cleared hstop).1, hsame ▸ (h.cleared hstop).2⟩,
      fun hstopped => hsame ▸ h.awake hstopped⟩

theorem StopHeard.transition {s t : State τ} {a : Action τ} (h : StopHeard s)
    (hone : OneRun s a) (hstored : StoredBeforeStop s a) (htransition : Transition s a t) :
    StopHeard t := by
  cases htransition with
  | run _ =>
      have hnone : ¬ 0 < s.stopping + s.stopped :=
        fun hstop => (h.cleared hstop).2 (.inl hone)
      exact ⟨fun hstop => absurd hstop hnone, fun _ => by simp⟩
  | loop loop => exact h.loop loop
  | taskPost _ => exact h.goto ⟨rfl, rfl⟩ id (by simp [BeforeLoop])
  | taskStop _ => exact h.goto ⟨rfl, rfl⟩ (fun _ => rfl) (by simp [BeforeLoop])
  | taskNotify _ => exact h.goto ⟨rfl, rfl⟩ id (by simp [BeforeLoop])
  | post => exact ⟨h.cleared, h.awake⟩
  | postNotify _ => exact ⟨h.notifyOne.cleared, h.notifyOne.awake⟩
  | stop =>
      refine ⟨fun _ => ⟨rfl, ?_⟩, h.awake⟩
      rintro (hpc | hpc)
      · exact hone hpc
      · exact hstored hpc
  | stopNotify pending =>
      have hstop : 0 < s.stopping + s.stopped := Nat.add_pos_left pending _
      refine ⟨fun _ => h.notifyOne.cleared hstop, fun _ => ?_⟩
      rcases notifyOne_loop s with ⟨-, hwoken⟩ | ⟨hpc, hsame⟩
      · simp [hwoken]
      · simpa [hsame] using hpc
  | spurious _ => exact h.goto ⟨rfl, rfl⟩ id (by simp [BeforeLoop])

theorem stopHeard_of_storedBeforeStop {s : State τ}
    (h : ReachableUnder (eventLoop τ) (fun s a => OneRun s a ∧ StoredBeforeStop s a) s) :
    StopHeard s :=
  h.invariant StopHeard ⟨by simp [eventLoop], by simp [eventLoop]⟩
    fun _ _ _ hallowed hstep hs => hs.transition hallowed.1 hallowed.2 (step_cases hstep)

end Heard

section Lost

/-- The thread in `run` reaches `t` from `s` on its own. -/
def LoopsTo (s t : State τ) : Prop :=
  ∃ n, exec (eventLoop τ) s (List.replicate n Action.loop) = some t

theorem LoopsTo.trans {s t u : State τ} (hst : LoopsTo s t) (htu : LoopsTo t u) :
    LoopsTo s u := by
  obtain ⟨n, hn⟩ := hst
  obtain ⟨k, hk⟩ := htu
  exact ⟨n + k, by rw [List.replicate_add]; exact exec_append hn hk⟩

theorem LoopsTo.step {s t : State τ} (h : runLoop s = some t) : LoopsTo s t :=
  ⟨1, exec_singleton (a := Action.loop) h⟩

theorem drains {s : State τ} (pc : s.loop = .testLocal) :
    LoopsTo s { s with batch := [], loop := .testRunning } := by
  obtain ⟨queue, running, batch, loop, posting, stopping, stopped⟩ := s
  obtain rfl : loop = .testLocal := pc
  induction batch with
  | nil => exact .step rfl
  | cons task rest ih =>
      have hpopped : LoopsTo (τ := τ)
          ⟨queue, running, task :: rest, .popLocal, posting, stopping, stopped⟩
          ⟨queue, running, rest, .testLocal, posting, stopping, stopped⟩ := .step rfl
      refine LoopsTo.trans ?_ (hpopped.trans ih)
      cases task with
      | none => exact .step rfl
      | some task =>
          exact LoopsTo.trans (t := ⟨queue, running, some task :: rest, .inTask, posting,
            stopping, stopped⟩) (.step rfl) (.step rfl)

/-- Left alone with `running_` true, `run` drains its queue and blocks. -/
theorem blocks {s : State τ} (pc : s.loop = .testRunning) (running : s.running = true) :
    LoopsTo s { s with batch := [], queue := [], loop := .blocked } := by
  obtain ⟨queue, _, batch, loop, posting, stopping, stopped⟩ := s
  obtain rfl : loop = .testRunning := pc
  obtain rfl : _ = true := running
  have hblocks : LoopsTo (τ := τ)
      ⟨[], true, [], .testRunning, posting, stopping, stopped⟩
      ⟨[], true, [], .blocked, posting, stopping, stopped⟩ :=
    LoopsTo.trans (t := ⟨[], true, [], .wait, posting, stopping, stopped⟩)
      (.step rfl) (.step rfl)
  have henter : LoopsTo (τ := τ)
      ⟨queue, true, batch, .testRunning, posting, stopping, stopped⟩
      ⟨queue, true, [], .wait, posting, stopping, stopped⟩ := .step rfl
  cases queue with
  | nil => exact henter.trans (.step rfl)
  | cons task rest =>
      have hswap : LoopsTo (τ := τ)
          ⟨task :: rest, true, [], .wait, posting, stopping, stopped⟩
          ⟨[], true, task :: rest, .testLocal, posting, stopping, stopped⟩ := .step rfl
      exact henter.trans (hswap.trans ((drains rfl).trans hblocks))

theorem lostStop_of_stop {s t : State τ} (pc : s.loop = .storeRunning)
    (hstep : (eventLoop τ).step s .stop = some t) :
    ∃ n u, exec (eventLoop τ) t (.stopNotify :: List.replicate n Action.loop) = some u ∧
      LostStop u := by
  obtain ⟨queue, running, batch, loop, posting, stopping, stopped⟩ := s
  obtain rfl : loop = .storeRunning := pc
  obtain rfl := Option.some.inj hstep
  have hstored : LoopsTo (τ := τ)
      ⟨queue, false, batch, .storeRunning, posting, stopping, stopped + 1⟩
      ⟨queue, true, batch, .testRunning, posting, stopping, stopped + 1⟩ := .step rfl
  obtain ⟨n, hn⟩ := hstored.trans (blocks rfl rfl)
  exact ⟨n, _, Option.bind_eq_some_iff.mpr ⟨_, rfl, hn⟩, Nat.succ_pos _, rfl, rfl⟩

/-- Past its first store with `running_` true, `run` is left by a new `stop` only. -/
def KeepsRunning (s : State τ) : Prop :=
  s.running = true ∧ s.loop ≠ .notCalled ∧ s.loop ≠ .returned

theorem KeepsRunning.transition {s t : State τ} {a : Action τ} (h : KeepsRunning s)
    (ha : a ≠ .stop ∧ a ≠ .taskStop) (htransition : Transition s a t) : KeepsRunning t := by
  have hnotified : KeepsRunning (notifyOne s) := by
    rcases notifyOne_loop s with ⟨-, hwoken⟩ | ⟨-, hsame⟩
    · exact ⟨h.1, by simp [hwoken], by simp [hwoken]⟩
    · exact ⟨h.1, by simpa [hsame] using h.2.1, by simpa [hsame] using h.2.2⟩
  cases htransition with
  | run pc => exact (pc.elim h.2.1 h.2.2).elim
  | loop loop =>
      cases loop with
      | storeRunning _ => exact ⟨rfl, by simp, by simp⟩
      | leave _ stopped => simp [h.1] at stopped
      | _ => exact ⟨h.1, by simp, by simp⟩
  | taskPost _ => exact ⟨h.1, by simp, by simp⟩
  | taskStop _ => exact absurd rfl ha.2
  | taskNotify _ => exact ⟨h.1, by simp, by simp⟩
  | post => exact h
  | postNotify _ => exact hnotified
  | stop => exact absurd rfl ha.1
  | stopNotify _ => exact hnotified
  | spurious _ => exact ⟨h.1, by simp, by simp⟩

theorem not_returned_of_lostStop {s t : State τ} {as : List (Action τ)} (h : LostStop s)
    (hexec : exec (eventLoop τ) s as = some t) (noStop : ∀ a ∈ as, a ≠ .stop ∧ a ≠ .taskStop) :
    t.loop ≠ .returned := by
  have hkeeps : KeepsRunning s := ⟨h.2.2, by simp [h.2.1], by simp [h.2.1]⟩
  exact (exec_invariant KeepsRunning (fun a => a ≠ .stop ∧ a ≠ .taskStop) (fun _ => True)
    (fun _ _ _ ha hstep hs => ⟨hs.transition ha (step_cases hstep), trivial⟩) hexec noStop
    hkeeps).1.2.2

end Lost

/-- No `stop` is lost in a run that makes its first store before it. A `stop` made before
that store can be lost by the threads simply going on, and then `run` does not return
unless there is another `stop`. -/
theorem lostStop_free_of_storedBeforeStop (τ : Type) :
    (∀ s : State τ,
      ReachableUnder (eventLoop τ) (fun s a => OneRun s a ∧ StoredBeforeStop s a) s →
        ¬ LostStop s) ∧
    (∀ (s t : State τ) a, OneRun s a → ¬ StoredBeforeStop s a →
      (eventLoop τ).step s a = some t →
        ∃ n u, exec (eventLoop τ) t (.stopNotify :: List.replicate n Action.loop) = some u ∧
          LostStop u ∧ ∀ as v, exec (eventLoop τ) u as = some v →
            (∀ a ∈ as, a ≠ .stop ∧ a ≠ .taskStop) → v.loop ≠ .returned) := by
  refine ⟨fun s hs => ?_, fun s t a _ hstored hstep => ?_⟩
  · rintro ⟨hstopped, hblocked, -⟩
    exact (stopHeard_of_storedBeforeStop hs).awake hstopped hblocked
  · cases a with
    | stop =>
        have pc : s.loop = .storeRunning := not_not.mp hstored
        obtain ⟨n, u, hexec, hlost⟩ := lostStop_of_stop pc hstep
        exact ⟨n, u, hexec, hlost, fun as v => not_returned_of_lostStop hlost⟩
    | _ => exact absurd trivial hstored

/-- `run` is called, `stop` runs to its end, and `run` begins. -/
def lostSchedule : List (Action Nat) :=
  [.run, .stop, .stopNotify, .loop, .loop, .loop]

theorem lostStop_reachable : ∃ s, ReachableUnder (eventLoop Nat) OneRun s ∧ LostStop s := by
  have hstop : Run (eventLoop Nat) OneRun [.run, .stop] _ :=
    (Run.start.extend (a := Action.run) rfl rfl).extend (a := Action.stop) (by simp [OneRun]) rfl
  have hlost : Run (eventLoop Nat) OneRun lostSchedule _ :=
    (((hstop.extend (a := Action.stopNotify) trivial rfl).extend
      (a := Action.loop) trivial rfl).extend
      (a := Action.loop) trivial rfl).extend (a := Action.loop) trivial rfl
  exact ⟨_, ⟨_, hlost⟩, Nat.one_pos, rfl, rfl⟩

end SkUtils.Coroutine.EventLoopStop
