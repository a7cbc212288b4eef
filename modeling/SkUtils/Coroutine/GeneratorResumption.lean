import Mathlib.Data.List.Induction
import SkUtils.Coroutine.Generators
import SkUtils.Library.TransitionSystem

/-!
The calls of `begin` and `++` on one generator, in any order: a generator may be looped
over again, also after an exception, and an iterator may be copied.
-/

namespace SkUtils.Coroutine.GeneratorResumption

open SkUtils.Library.TransitionSystem
open SkUtils.Coroutine.Generators

section Code

variable {σ T E F : Type}

inductive Call
  | begin
  | copy (i : Nat)
  | increment (i : Nat)

/-- A generator and the iterators that its caller holds. -/
structure State (σ T E : Type) where
  generator : Generator σ T E
  iterators : List Iterator

/-- An exception leaves the iterators as they were. -/
def step (body : Body σ T E F) (s : State σ T E) : Call → Option (State σ T E)
  | .begin => do
      let call ← s.generator.begin body
      let generator := { s.generator with frame := call.frame }
      match call.result with
      | .ok it => return { generator, iterators := s.iterators ++ [it] }
      | .error _ => return { s with generator }
  | .copy i => do
      let it ← s.iterators[i]?
      return { s with iterators := s.iterators ++ [it] }
  | .increment i => do
      let it ← s.iterators[i]?
      let call ← it.increment body s.generator.frame
      let generator := { s.generator with frame := call.frame }
      match call.result with
      | .ok it => return { generator, iterators := s.iterators.set i it }
      | .error _ => return { s with generator }

def system (body : Body σ T E F) (generator : Generator σ T E) :
    System (State σ T E) Call where
  init := { generator, iterators := [] }
  step := step body

/-- `++` is called on iterators that compare unequal to `end()`. -/
def State.Permits (s : State σ T E) : Call → Prop
  | .begin => True
  | .copy i => i < s.iterators.length
  | .increment i => ∃ it, s.iterators[i]? = some it ∧ it ≠ endIterator

/-- The call evaluates `handle_.resume()`. -/
def State.Resumes (s : State σ T E) : Call → Prop
  | .begin => s.generator.handle_ ≠ .null
  | .copy _ => False
  | .increment _ => True

/-- The calls of a caller that keeps to the iterators that are not at the end. -/
def Permitted (body : Body σ T E F) (generator : Generator σ T E) (calls : List Call) : Prop :=
  ∀ before call after s, calls = before ++ call :: after →
    exec (system body generator) (system body generator).init before = some s → s.Permits call

/-- `resume` is called on a coroutine that is not done, if it is called. -/
def NeverResumesDone (body : Body σ T E F) (generator : Generator σ T E) (calls : List Call) :
    Prop :=
  ∀ before call after s, calls = before ++ call :: after →
    exec (system body generator) (system body generator).init before = some s →
      s.Resumes call → s.generator.frame.done = false

end Code

section Counting

def Call.moves : Call → Bool
  | .begin => true
  | .copy _ => false
  | .increment _ => true

/-- The calls of `begin` and of `++`. -/
def moves (calls : List Call) : Nat :=
  calls.countP Call.moves

theorem moves_concat (calls : List Call) (call : Call) :
    moves (calls ++ [call]) = moves calls + if call.moves then 1 else 0 := by
  rw [moves, List.countP_append, List.countP_singleton]
  rfl

end Counting

section Bodies

variable {σ T E F : Type} {body : Body σ T E F} {state : σ}

/-- The body has yielded the values and is suspended in `state`. -/
inductive Reaches (body : Body σ T E F) : List (List F × T) → σ → Prop
  | start : Reaches body [] body.start
  | yields {items : List (List F × T)} {state next : σ} {effects : List F} {value : T}
      (before : Reaches body items state)
      (segment : body.segment state = some (effects, .coYield value next)) :
      Reaches body (items ++ [(effects, value)]) next

theorem produces_of_yields {next : σ} {effects last : List F} {value : T}
    {items : List (List F × T)} {ending : Except E Unit}
    (hsegment : body.segment state = some (effects, .coYield value next))
    (h : Produces body state items last ending) :
    ∃ more, items = (effects, value) :: more ∧ Produces body next more last ending := by
  cases h with
  | returns segment => cases hsegment.symm.trans segment
  | throws segment => cases hsegment.symm.trans segment
  | yields segment rest =>
      cases hsegment.symm.trans segment
      exact ⟨_, rfl, rest⟩

/-- Where the body comes to an end, it has come past every suspension. -/
theorem Reaches.produces_iff {before : List (List F × T)} (h : Reaches body before state)
    {items : List (List F × T)} {last : List F} {ending : Except E Unit} :
    Produces body body.start items last ending ↔
      ∃ more, items = before ++ more ∧ Produces body state more last ending := by
  induction h generalizing items with
  | start => simp
  | @yields before state next effects value _ segment ih =>
      rw [ih]
      constructor
      · rintro ⟨more, rfl, hmore⟩
        obtain ⟨more', rfl, hrest⟩ := produces_of_yields segment hmore
        exact ⟨more', by simp, hrest⟩
      · rintro ⟨more, rfl, hrest⟩
        exact ⟨(effects, value) :: more, by simp, .yields segment hrest⟩

theorem nil_of_produces_nil {items : List (List F × T)} {last last' : List F}
    {ending ending' : Except E Unit} (h : Produces body state [] last ending)
    (h' : Produces body state items last' ending') : items = [] := by
  cases h' with
  | returns _ => rfl
  | throws _ => rfl
  | yields segment _ =>
      obtain ⟨more, hmore, -⟩ := produces_of_yields segment h
      cases hmore

theorem exists_segment {items : List (List F × T)} {last : List F} {ending : Except E Unit}
    (h : Produces body state items last ending) : ∃ next, body.segment state = some next := by
  cases h with
  | returns segment => exact ⟨_, segment⟩
  | throws segment => exact ⟨_, segment⟩
  | yields segment _ => exact ⟨_, segment⟩

theorem advance_cases {frame : Frame σ T E} {call : Called σ T E F} (h : Suspended frame state)
    (hcall : advance body frame = some call) :
    (∃ effects value next, body.segment state = some (effects, .coYield value next) ∧
      Suspended call.frame next) ∨
    call.frame.done ∧ ∃ last ending, Produces body state [] last ending := by
  cases hsegment : body.segment state with
  | none => simp [advance, Frame.resume, h.point, hsegment] at hcall
  | some segment =>
      obtain ⟨effects, outcome⟩ := segment
      cases outcome with
      | coYield value next =>
          obtain rfl := Option.some.inj ((h.advance_yields hsegment).symm.trans hcall)
          exact .inl ⟨effects, value, next, rfl, h.yield_value value next⟩
      | coReturn =>
          obtain rfl := Option.some.inj ((h.advance_returns hsegment).symm.trans hcall)
          exact .inr ⟨rfl, effects, .ok (), .returns hsegment⟩
      | throw e =>
          obtain rfl := Option.some.inj ((h.advance_throws hsegment).symm.trans hcall)
          exact .inr ⟨rfl, effects, .error e, .throws hsegment⟩

theorem exists_advance {frame : Frame σ T E} (h : Suspended frame state)
    {next : List F × Outcome σ T E} (hsegment : body.segment state = some next) :
    ∃ call, advance body frame = some call := by
  obtain ⟨effects, outcome⟩ := next
  cases outcome with
  | coYield value next => exact ⟨_, h.advance_yields hsegment⟩
  | coReturn => exact ⟨_, h.advance_returns hsegment⟩
  | throw e => exact ⟨_, h.advance_throws hsegment⟩

theorem advance_done {frame : Frame σ T E} (h : frame.done) : advance body frame = none := by
  have hfinal : frame.resume body = none := by
    rw [Frame.done] at h
    rw [Frame.resume]
    split at h
    · cases h
    · rename_i hpoint
      rw [hpoint]
  rw [advance, hfinal]
  rfl

theorem Suspended.not_done {frame : Frame σ T E} (h : Suspended frame state) :
    frame.done = false := by
  rw [Frame.done, h.point]

end Bodies

section Steps

variable {σ T E F : Type} {body : Body σ T E F} {s t : State σ T E} {call : Call}

/-- What a call does to the generator. -/
theorem step_cases (hstep : step body s call = some t) (hhandle : s.generator.handle_ = .frame) :
    call.moves = false ∧ t.generator = s.generator ∨
    call.moves = true ∧ ∃ called, advance body s.generator.frame = some called ∧
      t.generator = { s.generator with frame := called.frame } := by
  obtain ⟨⟨handle, frame⟩, iterators⟩ := s
  obtain rfl : handle = .frame := hhandle
  cases call with
  | begin =>
      obtain ⟨called, hcalled, hrest⟩ := Option.bind_eq_some_iff.mp hstep
      refine .inr ⟨rfl, called, hcalled, ?_⟩
      dsimp only at hrest
      split at hrest <;> obtain rfl := Option.some.inj hrest <;> rfl
  | copy i =>
      obtain ⟨it, -, hrest⟩ := Option.bind_eq_some_iff.mp hstep
      obtain rfl := Option.some.inj hrest
      exact .inl ⟨rfl, rfl⟩
  | increment i =>
      obtain ⟨⟨handle⟩, -, hit⟩ := Option.bind_eq_some_iff.mp hstep
      obtain ⟨called, hcalled, hrest⟩ := Option.bind_eq_some_iff.mp hit
      cases handle with
      | null => cases hcalled
      | frame =>
          refine .inr ⟨rfl, called, hcalled, ?_⟩
          dsimp only at hrest
          split at hrest <;> obtain rfl := Option.some.inj hrest <;> rfl

theorem exists_step (hpermits : s.Permits call) (hhandle : s.generator.handle_ = .frame)
    (hadvance : call.moves → ∃ called, advance body s.generator.frame = some called) :
    ∃ t, step body s call = some t := by
  obtain ⟨⟨handle, frame⟩, iterators⟩ := s
  obtain rfl : handle = .frame := hhandle
  cases call with
  | begin =>
      obtain ⟨⟨result, frame', effects⟩, hcalled⟩ := hadvance rfl
      rw [step, begin_eq, hcalled]
      cases result <;> exact ⟨_, rfl⟩
  | copy i =>
      have hit : iterators[i]? = some iterators[i] := List.getElem?_eq_getElem hpermits
      exact ⟨_, by rw [step, hit]; rfl⟩
  | increment i =>
      obtain ⟨⟨handle⟩, hit, hne⟩ := hpermits
      obtain ⟨⟨result, frame', effects⟩, hcalled⟩ := hadvance rfl
      cases handle with
      | null => exact absurd rfl hne
      | frame =>
          rw [step, hit]
          simp only [Option.bind_eq_bind, Option.bind_some, increment_eq, hcalled]
          cases result <;> exact ⟨_, rfl⟩

/-- Behind `n` calls of `begin` and `++` the body has yielded `n` values, or has ended in
the last of them. -/
structure Moved (body : Body σ T E F) (n : Nat) (s : State σ T E) : Prop where
  handle_ : s.generator.handle_ = .frame
  frame : (∃ items state, Reaches body items state ∧ items.length = n ∧
      Suspended s.generator.frame state) ∨
    s.generator.frame.done ∧ ∃ items state last ending, Reaches body items state ∧
      Produces body state [] last ending ∧ n = items.length + 1

theorem Moved.step {n : Nat} (h : Moved body n s)
    (hstep : GeneratorResumption.step body s call = some t) :
    Moved body (n + if call.moves then 1 else 0) t := by
  rcases step_cases hstep h.handle_ with ⟨hmoves, hkept⟩ | ⟨hmoves, called, hcalled, hgenerator⟩
  · rw [hmoves]
    exact ⟨hkept ▸ h.handle_, hkept ▸ h.frame⟩
  · rw [hmoves, if_pos rfl]
    refine ⟨hgenerator ▸ h.handle_, ?_⟩
    rw [hgenerator]
    rcases h.frame with ⟨items, state, hreaches, rfl, hsuspended⟩ | ⟨hdone, -⟩
    · rcases advance_cases hsuspended hcalled with
        ⟨effects, value, next, hsegment, hnext⟩ | ⟨hdone, last, ending, hproduces⟩
      · exact .inl ⟨_, next, hreaches.yields hsegment, by simp, hnext⟩
      · exact .inr ⟨hdone, items, state, last, ending, hreaches, hproduces, rfl⟩
    · rw [advance_done hdone] at hcalled
      cases hcalled

theorem moved_of_exec {calls : List Call}
    (h : exec (system body body.call) (system body body.call).init calls = some s) :
    Moved body (moves calls) s := by
  refine (run_of_exec h).invariant (fun calls s => Moved body (moves calls) s) ?_ ?_
  · exact ⟨rfl, .inl ⟨[], body.start, .start, rfl, suspended_call body⟩⟩
  · intro calls s call t _ _ hstep hs
    rw [moves_concat]
    exact hs.step hstep

theorem Permitted.of_append {generator : Generator σ T E} {before after : List Call}
    (h : Permitted body generator (before ++ after)) : Permitted body generator before := by
  rintro first call rest s rfl hexec
  exact h first call (rest ++ after) s (by simp) hexec

theorem Permitted.concat {generator : Generator σ T E} {calls : List Call}
    (h : Permitted body generator calls)
    (hcall : ∀ s, exec (system body generator) (system body generator).init calls = some s →
      s.Permits call) : Permitted body generator (calls ++ [call]) := by
  intro before call' after s hcalls hexec
  rcases List.eq_nil_or_concat' after with rfl | ⟨after, last, rfl⟩
  · obtain ⟨rfl, rfl⟩ := List.append_singleton_inj.mp hcalls
    exact hcall s hexec
  · rw [← List.cons_append, ← List.append_assoc] at hcalls
    obtain ⟨rfl, -⟩ := List.append_singleton_inj.mp hcalls
    exact h before call' after s rfl hexec

theorem NeverResumesDone.of_append {generator : Generator σ T E} {before after : List Call}
    (h : NeverResumesDone body generator (before ++ after)) :
    NeverResumesDone body generator before := by
  rintro first call rest s rfl hexec
  exact h first call (rest ++ after) s (by simp) hexec

/-- A body that comes to an end comes to every suspension before it, so that no call is
left without a result. -/
theorem exists_exec {items : List (List F × T)} {last : List F} {ending : Except E Unit}
    (hproduces : Produces body body.start items last ending) {calls : List Call}
    (hpermitted : Permitted body body.call calls)
    (hnever : NeverResumesDone body body.call calls) :
    ∃ s, exec (system body body.call) (system body body.call).init calls = some s := by
  induction calls using List.reverseRecOn with
  | nil => exact ⟨_, rfl⟩
  | append_singleton calls call ih =>
      obtain ⟨s, hexec⟩ := ih hpermitted.of_append hnever.of_append
      have hmoved := moved_of_exec hexec
      have hpermits := hpermitted calls call [] s rfl hexec
      obtain ⟨t, hstep⟩ : ∃ t, step body s call = some t := by
        refine exists_step hpermits hmoved.handle_ fun hmoves => ?_
        have hresumes : s.Resumes call := by
          cases call with
          | begin =>
              intro hnull
              cases hmoved.handle_.symm.trans hnull
          | copy i => cases hmoves
          | increment i => trivial
        have hdone := hnever calls call [] s rfl hexec hresumes
        rcases hmoved.frame with ⟨before, state, hreaches, -, hsuspended⟩ | ⟨hdone', -⟩
        · obtain ⟨more, -, hmore⟩ := hreaches.produces_iff.mp hproduces
          obtain ⟨next, hsegment⟩ := exists_segment hmore
          exact exists_advance hsuspended hsegment
        · rw [hdone] at hdone'
          cases hdone'
      exact ⟨t, exec_append hexec (exec_singleton hstep)⟩

theorem moves_le_of_neverResumesDone {items : List (List F × T)} {last : List F}
    {ending : Except E Unit} (hproduces : Produces body body.start items last ending)
    {calls : List Call} (hpermitted : Permitted body body.call calls)
    (hnever : NeverResumesDone body body.call calls) : moves calls ≤ items.length + 1 := by
  obtain ⟨s, hexec⟩ := exists_exec hproduces hpermitted hnever
  rcases (moved_of_exec hexec).frame with ⟨before, state, hreaches, hlength, -⟩ |
    ⟨-, before, state, last', ending', hreaches, hend, hmoves⟩
  · obtain ⟨more, rfl, -⟩ := hreaches.produces_iff.mp hproduces
    rw [List.length_append]
    omega
  · obtain ⟨more, rfl, hmore⟩ := hreaches.produces_iff.mp hproduces
    obtain rfl := nil_of_produces_nil hend hmore
    have hlength : (before ++ []).length = before.length := by rw [List.append_nil]
    omega

theorem neverResumesDone_of_moves_le {calls : List Call}
    (hmoves : ∀ items last ending, Produces body body.start items last ending →
      moves calls ≤ items.length + 1) : NeverResumesDone body body.call calls := by
  rintro before call after s rfl hexec hresumes
  rcases (moved_of_exec hexec).frame with ⟨_, state, -, -, hsuspended⟩ |
    ⟨hdone, items, state, last, ending, hreaches, hend, hcount⟩
  · exact Suspended.not_done hsuspended
  · -- the call would be one too many
    have hproduces : Produces body body.start (items ++ []) last ending :=
      hreaches.produces_iff.mpr ⟨[], rfl, hend⟩
    have hle := hmoves _ _ _ hproduces
    have hcall : call.moves = true := by
      cases call with
      | begin => rfl
      | copy i => exact hresumes.elim
      | increment i => rfl
    rw [moves, List.countP_append, List.countP_cons_of_pos hcall, List.append_nil] at hle
    rw [moves] at hcount
    omega

/-- A null generator has only iterators that are at the end. -/
theorem neverResumesDone_null {generator : Generator σ T E} (hnull : generator.handle_ = .null)
    {calls : List Call} (hpermitted : Permitted body generator calls) :
    NeverResumesDone body generator calls := by
  intro before call after s hcalls hexec hresumes
  have hinvariant : s.generator.handle_ = .null ∧ ∀ it ∈ s.iterators, it = endIterator := by
    refine (reachable_of_exec hexec).invariant
      (fun s => s.generator.handle_ = .null ∧ ∀ it ∈ s.iterators, it = endIterator)
      ⟨hnull, by simp [system]⟩ ?_
    rintro ⟨⟨handle, frame⟩, iterators⟩ call t hstep ⟨hhandle, hends⟩
    obtain rfl : handle = .null := hhandle
    cases call with
    | begin =>
        obtain rfl := Option.some.inj hstep
        exact ⟨rfl, List.forall_mem_append.mpr ⟨hends, by simp [endIterator]⟩⟩
    | copy i =>
        obtain ⟨it, hit, hrest⟩ := Option.bind_eq_some_iff.mp hstep
        obtain rfl := Option.some.inj hrest
        have hmem := List.mem_of_getElem? hit
        exact ⟨rfl, List.forall_mem_append.mpr ⟨hends, by simp [hends it hmem]⟩⟩
    | increment i =>
        obtain ⟨it, hit, hrest⟩ := Option.bind_eq_some_iff.mp hstep
        obtain rfl := hends it (List.mem_of_getElem? hit)
        cases hrest
  obtain ⟨hhandle, hends⟩ := hinvariant
  cases call with
  | begin => exact absurd hhandle hresumes
  | copy i => exact hresumes.elim
  | increment i =>
      obtain ⟨it, hit, hne⟩ := hpermitted before (.increment i) after s hcalls hexec
      exact absurd (hends it (List.mem_of_getElem? hit)) hne

/-- The coroutine of a new generator is resumed behind its end where `begin` and `++` are
called once more than it takes to come there. -/
theorem never_resumes_done_iff (body : Body σ T E F) {generator : Generator σ T E}
    (hgenerator : generator = body.call ∨ generator.handle_ = .null) {calls : List Call}
    (hpermitted : Permitted body generator calls) :
    NeverResumesDone body generator calls ↔
      generator.handle_ = .null ∨ ∀ items last ending,
        Produces body body.start items last ending → moves calls ≤ items.length + 1 := by
  rcases hgenerator with rfl | hnull
  · constructor
    · intro hnever
      exact .inr fun items last ending hproduces =>
        moves_le_of_neverResumesDone hproduces hpermitted hnever
    · rintro (hnull | hmoves)
      · cases hnull
      · exact neverResumesDone_of_moves_le hmoves
  · exact iff_of_true (neverResumesDone_null hnull hpermitted) (.inl hnull)

end Steps

section Demo

/-- One loop over `words`. -/
def oneLoop : List Call :=
  [.begin, .increment 0, .increment 0, .increment 0]

theorem permitted_oneLoop : Permitted words words.call oneLoop := by
  have hstart : Permitted words words.call [] := by
    intro before call after s hcalls
    simp at hcalls
  have hbegin : Permitted words words.call [.begin] := hstart.concat fun s _ => trivial
  have hfirst : Permitted words words.call [.begin, .increment 0] :=
    hbegin.concat (by rintro s ⟨⟩; exact ⟨_, rfl, nofun⟩)
  have hsecond : Permitted words words.call [.begin, .increment 0, .increment 0] :=
    hfirst.concat (by rintro s ⟨⟩; exact ⟨_, rfl, nofun⟩)
  exact hsecond.concat (by rintro s ⟨⟩; exact ⟨_, rfl, nofun⟩)

theorem never_resumes_done_oneLoop : NeverResumesDone words words.call oneLoop := by
  refine (never_resumes_done_iff words (.inl rfl) permitted_oneLoop).mpr (.inr ?_)
  intro items last ending hproduces
  obtain ⟨_, rfl, hworld⟩ := produces_of_yields rfl hproduces
  obtain ⟨_, rfl, hcoroutine⟩ := produces_of_yields rfl hworld
  obtain ⟨items, rfl, -⟩ := produces_of_yields rfl hcoroutine
  exact Nat.le_add_left 4 items.length

/-- A second loop over the same generator resumes a coroutine that is done. -/
theorem resumes_done_second_loop :
    Permitted words words.call (oneLoop ++ [.begin]) ∧
      ¬NeverResumesDone words words.call (oneLoop ++ [.begin]) := by
  refine ⟨permitted_oneLoop.concat fun s _ => trivial, fun hnever => ?_⟩
  have hdone := hnever oneLoop .begin [] _ rfl rfl nofun
  cases hdone

end Demo

end SkUtils.Coroutine.GeneratorResumption
