import SkUtils.Coroutine.IoUringCallbacks

/-!
`stop` of an `IoUringContext`, whatever liburing returns: the thread calls one callback at most
before it ends, and the other coroutines that wait for an operation do so for ever.
-/

namespace SkUtils.Coroutine.IoUringStop

open SkUtils.Library.TransitionSystem
open SkUtils.Coroutine.IoUring
open SkUtils.Coroutine.IoUringCallbacks

variable {Op : Type} {programs : Nat → Program Op} {s t : State Op} {c k : Nat}

def isCall : Event Op → Bool
  | .resumed _ _ _ => true
  | _ => false

/-- `stop` has been called, and nobody is in `poll_completions`. -/
structure Stopped (s : State Op) : Prop where
  running_ : s.running_ = false
  test : s.pc ≠ .test .poll_completions
  calling : ∀ cqe k, s.pc ≠ .calling .poll_completions cqe k

/-- Only a thread that is in `io_uring_wait_cqe` can still call a callback. -/
def callsLeft (s : State Op) : Nat :=
  if s.pc = .waiting then 1 else 0

def Restarts : Action → Prop
  | .start | .poll_completions => True
  | _ => False

/-- What a step that does not move the thread leaves of its calls. -/
theorem Stopped.other (h : Stopped s) (hrunning : t.running_ = false) (hpc : t.pc = s.pc)
    {events : List (Event Op)} (hevents : events.countP isCall = 0) :
    Stopped t ∧ events.countP isCall + callsLeft t ≤ callsLeft s := by
  have hleft : callsLeft t = callsLeft s := by rw [callsLeft, callsLeft, hpc]
  exact ⟨⟨hrunning, hpc ▸ h.test, hpc ▸ h.calling⟩, by omega⟩

theorem Stopped.handle (h : Stopped s) (hpc : s.pc = .waiting) (cqe : Cqe) :
    Stopped (handle s .thread cqe) ∧
      (called s cqe).countP isCall + callsLeft (handle s .thread cqe) ≤ callsLeft s := by
  have hcases := handle_cases s .thread cqe
  generalize IoUring.handle s .thread cqe = t at hcases
  generalize called s cqe = later at hcases
  cases hcases with
  | dropped => exact ⟨⟨h.running_, by simp, by simp⟩, by simp [callsLeft]⟩
  | called => exact ⟨⟨h.running_, by simp, by simp⟩, by simp [isCall, callsLeft, hpc]⟩
  | crashed =>
      apply h.other
      · exact h.running_
      · rfl
      · exact List.countP_nil

theorem Stopped.move (h : Stopped s) {a : Action} (ha : ¬Restarts a) {later : List (Event Op)}
    (hmove : Move programs s a later t) :
    Stopped t ∧ later.countP isCall + callsLeft t ≤ callsLeft s := by
  cases hmove with
  | started => exact absurd trivial ha
  | polls => exact absurd trivial ha
  | tested pc =>
      refine ⟨⟨h.running_, ?_, ?_⟩, ?_⟩
      all_goals simp [callsLeft, h.running_]
  | empty pc => exact absurd pc h.test
  | interrupted => exact ⟨⟨h.running_, by simp, by simp⟩, by simp [callsLeft]⟩
  | polled pc => exact absurd pc h.test
  | waited pc => exact h.handle pc _
  | @seen loop cqe k c deleted pc callback =>
      cases loop with
      | poll_completions => exact absurd pc (h.calling cqe k)
      | thread =>
          exact ⟨⟨h.running_, by simp [seen], by simp [seen]⟩,
            by simp [isCall, callsLeft, seen]⟩
  | @stop _ running_ _ flag =>
      have hfalse : running_ = false := Bool.eq_false_iff.mpr fun htrue =>
        Bool.false_ne_true (h.running_.symm.trans (flag htrue))
      apply h.other
      · exact hfalse
      · rfl
      · exact List.countP_nil
  | _ =>
      apply h.other
      · exact h.running_
      · rfl
      · rfl

theorem Stopped.exec (h : Stopped s) {as : List Action} (has : ∀ a ∈ as, ¬Restarts a)
    (hexec : exec (context programs) s as = some t) :
    Stopped t ∧ (outputs (context programs) (happens programs) s as).countP isCall +
      callsLeft t ≤ callsLeft s := by
  induction as generalizing s with
  | nil =>
      obtain rfl := Option.some.inj hexec
      exact ⟨h, by simp [outputs]⟩
  | cons a as ih =>
      obtain ⟨u, hstep, hrest⟩ := Option.bind_eq_some_iff.mp hexec
      obtain ⟨ha, has⟩ := List.forall_mem_cons.mp has
      obtain ⟨hu, hfirst⟩ := h.move ha (move_of_step hstep)
      obtain ⟨ht, hlater⟩ := ih hu has hrest
      refine ⟨ht, ?_⟩
      simp only [outputs, hstep, Option.elim_some, List.countP_append]
      omega

theorem suspended_handle (loop : Loop) (cqe : Cqe) (hc : s.status c = .suspended k) :
    (handle s loop cqe).status c = .suspended k ∨
      ∃ k' result, .resumed k' c result ∈ called s cqe := by
  have hcases := handle_cases s loop cqe
  generalize handle s loop cqe = t at hcases ⊢
  generalize called s cqe = later at hcases ⊢
  cases hcases with
  | dropped => exact .inl hc
  | @called k' c' =>
      rcases eq_or_ne c c' with rfl | hne
      · exact .inr ⟨k', completed cqe.res, List.mem_singleton_self _⟩
      · exact .inl ((Function.update_of_ne hne ..).trans hc)
  | crashed => exact .inl hc

/-- A coroutine that waits goes on only when its callback is called. -/
theorem suspended_move {a : Action} {later : List (Event Op)} (hc : s.status c = .suspended k)
    (hmove : Move programs s a later t) : t.status c = .suspended k ∨
      ∃ k' result, .resumed k' c result ∈ later := by
  have hother : ∀ {c' : Nat} {status : Status Op}, s.status c' ≠ .suspended k →
      Function.update s.status c' status c = .suspended k := by
    intro c' status hc'
    have hne : c ≠ c' := by
      rintro rfl
      exact hc' hc
    exact (Function.update_of_ne hne ..).trans hc
  cases hmove with
  | ended status => exact .inl (hother (status ▸ nofun))
  | got status => exact .inl (hother (status ▸ nofun))
  | refused status => exact .inl (hother (status ▸ nofun))
  | prepared status => exact .inl (hother (status ▸ nofun))
  | submitted status => exact .inl (hother (status ▸ nofun))
  | polled => exact suspended_handle .poll_completions _ hc
  | waited => exact suspended_handle .thread _ hc
  | _ => exact .inl hc

theorem suspended_exec {as : List Action} (hc : s.status c = .suspended k)
    (hexec : exec (context programs) s as = some t) : t.status c = .suspended k ∨
      ∃ k' result, .resumed k' c result ∈
        outputs (context programs) (happens programs) s as := by
  induction as generalizing s with
  | nil =>
      obtain rfl := Option.some.inj hexec
      exact .inl hc
  | cons a as ih =>
      obtain ⟨u, hstep, hrest⟩ := Option.bind_eq_some_iff.mp hexec
      simp only [outputs, hstep, Option.elim_some, List.mem_append]
      rcases suspended_move hc (move_of_step hstep) with hu | ⟨k', result, hmem⟩
      · rcases ih hu hrest with ht | ⟨k', result, hmem⟩
        · exact .inl ht
        · exact .inr ⟨k', result, .inr hmem⟩
      · exact .inr ⟨k', result, .inl hmem⟩

/-- The thread waits for the first completion when the context is stopped. -/
def stopAndRead : List Action :=
  [.stop true, .stop true, .completion (some ⟨some 0, some 0, 5⟩), .advance 0 true, .turn,
    .turn, .stop true]

end SkUtils.Coroutine.IoUringStop
