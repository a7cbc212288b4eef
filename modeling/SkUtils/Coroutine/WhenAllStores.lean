import SkUtils.Coroutine.WhenAllPair

/-!
The writes of the wrappers of `when_all`, which no lock guards. To store a value a wrapper
reads the memory word that holds its slot and writes it back; the slots of a
`std::vector<bool>` share words. To store an exception it assigns to the one
`std::exception_ptr`, which two threads must not do at a time. While such writes stay
apart they are as good as the atomic ones of `WhenAll` and `WhenAllPair`.
-/

namespace SkUtils.Coroutine.WhenAllStores

open SkUtils.Library.Processes
open SkUtils.Library.TransitionSystem
open SkUtils.Coroutine.WhenAll (Action WrapperPc CoroutinePc launchWrapper)
open SkUtils.Coroutine.WhenAllPair (PairAction ReturnsPair)
open SkUtils.Coroutine.WhenAllResults (HasCompleted Returns)

def throws {T E : Type*} : Except E T → Bool
  | .ok _ => false
  | .error _ => true

section Vector

variable {n : Nat} {T E : Type*}

/-- `storing i` is the contents of the slots that the wrapper `i` has read, while its write is
under way. `undefined` says that two writes of `exception` have met. -/
structure State (n : Nat) (T E : Type*) where
  shared : WhenAll.State n T E
  storing : Fin n → Option (Fin n → T)
  undefined : Bool

variable (word : Fin n → Nat) (outcomes : Fin n → Except E T)

/-- Another wrapper is in the middle of its write of `exception`. -/
def exceptionBusy (s : State n T E) (i : Fin n) : Bool :=
  throws (outcomes i) && decide (∃ j, j ≠ i ∧ (s.storing j).isSome ∧ throws (outcomes j))

def beginStore (s : State n T E) (i : Fin n) : State n T E :=
  { s with
    storing := Function.update s.storing i (some s.shared.results)
    undefined := s.undefined || exceptionBusy outcomes s i }

/-- `results` once the wrapper `i` has written its word back. -/
def writeBack (results read : Fin n → T) (i : Fin n) (value : T) : Fin n → T :=
  fun j => if j = i then value else if word j = word i then read j else results j

def endStore (s : State n T E) (i : Fin n) (read : Fin n → T) : State n T E :=
  { s with
    shared := match outcomes i with
      | .ok value =>
          { s.shared.goto i .fetchSub with
            results := writeBack word s.shared.results read i value }
      | .error e => { s.shared.goto i .fetchSub with exception := some e }
    storing := Function.update s.storing i none }

/-- The steps of `launch_wrapper`. -/
def launch_wrapper (s : State n T E) (i : Fin n) : Option (State n T E) :=
  if s.shared.wrappers i = .awaiting then
    match s.storing i with
    | none => some (beginStore outcomes s i)
    | some read => some (endStore word outcomes s i read)
  else (launchWrapper outcomes s.shared i).map fun shared => { s with shared }

def step (s : State n T E) : Action n → Option (State n T E)
  | .wrapper i => launch_wrapper word outcomes s i
  | .suspendTask i =>
      if (s.storing i).isNone then
        (WhenAll.step outcomes s.shared (.suspendTask i)).map fun shared => { s with shared }
      else none
  | a => (WhenAll.step outcomes s.shared a).map fun shared => { s with shared }

/-- `when_all(std::vector<Task<T>>)`, where `word i` is the word of the slot `i`: `i / 64` for
`T = bool`, and for any other `T` no two slots share one. -/
def system [Inhabited T] : System (State n T E) (Action n) where
  init :=
    { shared := (WhenAll.system outcomes).init
      storing := fun _ => none
      undefined := false }
  step := step word outcomes

/-- The two wrappers write to the same place. -/
def Conflict (i j : Fin n) : Prop :=
  (throws (outcomes i) ∧ throws (outcomes j)) ∨
    (¬ throws (outcomes i) ∧ ¬ throws (outcomes j) ∧ word i = word j)

/-- No wrapper begins a write while another one writes to the same place. -/
def Apart (s : State n T E) : Action n → Prop
  | .wrapper i => s.shared.wrappers i = .awaiting → s.storing i = none →
      ∀ j, j ≠ i → (s.storing j).isSome → ¬ Conflict word outcomes i j
  | _ => True

/-- The writes under way do not meet, and the words they have read are those in memory. -/
structure Settled (s : State n T E) : Prop where
  defined : s.undefined = false
  awaiting : ∀ i, (s.storing i).isSome → s.shared.wrappers i = .awaiting
  apart : ∀ i j, i ≠ j → (s.storing i).isSome → (s.storing j).isSome →
    ¬ Conflict word outcomes i j
  current : ∀ i read, s.storing i = some read → ¬ throws (outcomes i) →
    ∀ j, word j = word i → read j = s.shared.results j

variable {word : Fin n → Nat} {outcomes : Fin n → Except E T} {s t : State n T E} {a : Action n}

theorem Settled.move {shared : WhenAll.State n T E} (h : Settled word outcomes s)
    (hresults : shared.results = s.shared.results)
    (hawaiting : ∀ i, s.shared.wrappers i = .awaiting → shared.wrappers i = .awaiting) :
    Settled word outcomes { s with shared } := by
  refine ⟨h.defined, fun i hi => hawaiting i (h.awaiting i hi), h.apart, ?_⟩
  rw [hresults]
  exact h.current

/-- Off the writes the protocol leaves the results and the awaiting wrappers alone. -/
theorem kept_of_transition {s t : WhenAll.State n T E}
    (h : WhenAll.Transition outcomes s a t)
    (hwrites : ∀ i, a = .wrapper i → s.wrappers i ≠ .awaiting) :
    t.results = s.results ∧ ∀ i, s.wrappers i = .awaiting → t.wrappers i = .awaiting := by
  have hgoto : ∀ {i : Fin n} {pc : WrapperPc}, s.wrappers i ≠ .awaiting → ∀ j,
      s.wrappers j = .awaiting → (s.goto i pc).wrappers j = .awaiting :=
    fun hi j hj => update_eq_of_ne hj hi
  cases h with
  | store pc => exact absurd pc (hwrites _ rfl)
  | fetchLast pc _ => exact ⟨rfl, hgoto (by simp [pc])⟩
  | fetchOther pc _ => exact ⟨rfl, hgoto (by simp [pc])⟩
  | load pc _ => exact ⟨rfl, hgoto (by simp [pc])⟩
  | loadNull pc _ => exact ⟨rfl, hgoto (by simp [pc])⟩
  | spawn pc => exact ⟨rfl, hgoto (by simp [pc])⟩
  | leave pc => exact ⟨rfl, hgoto (by simp [pc])⟩
  | resumeWrapper _ created => exact ⟨rfl, hgoto (by simp [created])⟩
  | _ => exact ⟨rfl, fun _ => id⟩

theorem Settled.base {shared : WhenAll.State n T E} (h : Settled word outcomes s)
    (hwrites : ∀ i, a = .wrapper i → s.shared.wrappers i ≠ .awaiting)
    (hstep : WhenAll.step outcomes s.shared a = some shared) :
    Settled word outcomes { s with shared } := by
  obtain ⟨hresults, hawaiting⟩ := kept_of_transition (WhenAll.step_cases hstep) hwrites
  exact h.move hresults hawaiting

theorem conflict_symm {i j : Fin n} (h : Conflict word outcomes i j) :
    Conflict word outcomes j i := by
  rcases h with ⟨hi, hj⟩ | ⟨hi, hj, hword⟩
  · exact .inl ⟨hj, hi⟩
  · exact .inr ⟨hj, hi, hword.symm⟩

theorem Settled.begin {i : Fin n} (h : Settled word outcomes s)
    (pc : s.shared.wrappers i = .awaiting)
    (hapart : ∀ j, j ≠ i → (s.storing j).isSome → ¬ Conflict word outcomes i j) :
    Settled word outcomes (beginStore outcomes s i) := by
  have hothers : ∀ {j}, j ≠ i → (beginStore outcomes s i).storing j = s.storing j :=
    fun hji => Function.update_of_ne hji _ _
  have hself : (beginStore outcomes s i).storing i = some s.shared.results :=
    Function.update_self _ _ _
  constructor
  case defined =>
    rw [beginStore, h.defined, Bool.false_or, exceptionBusy]
    by_contra hbusy
    simp only [Bool.and_eq_false_imp, decide_eq_false_iff_not, Classical.not_imp,
      not_not] at hbusy
    obtain ⟨hthrows, j, hji, hj, hthrows'⟩ := hbusy
    exact hapart j hji hj (.inl ⟨hthrows, hthrows'⟩)
  case awaiting =>
    intro j hj
    rcases eq_or_ne j i with rfl | hji
    · exact pc
    · exact h.awaiting j (by rwa [hothers hji] at hj)
  case apart =>
    intro j k hjk hj hk
    rcases eq_or_ne j i with rfl | hji
    · rw [hothers (Ne.symm hjk)] at hk
      exact hapart k (Ne.symm hjk) hk
    · rw [hothers hji] at hj
      rcases eq_or_ne k i with rfl | hki
      · exact fun hconflict => hapart j hji hj (conflict_symm hconflict)
      · rw [hothers hki] at hk
        exact h.apart j k hjk hj hk
  case current =>
    intro j read hj
    rcases eq_or_ne j i with rfl | hji
    · rw [hself] at hj
      obtain rfl := Option.some.inj hj
      exact fun _ _ _ => rfl
    · rw [hothers hji] at hj
      exact h.current j read hj

/-- A word that nobody else has written in between takes the new value as one write would. -/
theorem endStore_eq {i : Fin n} {read : Fin n → T} (h : Settled word outcomes s)
    (hread : s.storing i = some read) :
    (endStore word outcomes s i read).shared =
      (s.shared.store i (outcomes i)).goto i .fetchSub := by
  cases hi : outcomes i with
  | error e => simp only [endStore, hi, WhenAll.State.store, WhenAll.State.goto]
  | ok value =>
      have hresults : writeBack word s.shared.results read i value =
          Function.update s.shared.results i value := by
        funext j
        rw [writeBack, Function.update_apply]
        split
        · rfl
        · split
          · next hword => exact h.current i read hread (by simp [throws, hi]) j hword
          · rfl
      simp only [endStore, hi, hresults, WhenAll.State.store, WhenAll.State.goto]

theorem Settled.end {i : Fin n} {read : Fin n → T} (h : Settled word outcomes s)
    (hread : s.storing i = some read) :
    Settled word outcomes (endStore word outcomes s i read) := by
  have hothers : ∀ {j}, j ≠ i → (endStore word outcomes s i read).storing j = s.storing j :=
    fun hji => Function.update_of_ne hji _ _
  have hstoring : ∀ {j}, ((endStore word outcomes s i read).storing j).isSome →
      j ≠ i ∧ (s.storing j).isSome := by
    intro j hj
    rcases eq_or_ne j i with rfl | hji
    · simp [endStore] at hj
    · exact ⟨hji, by rwa [hothers hji] at hj⟩
  have hshared := endStore_eq h hread
  constructor
  case defined => exact h.defined
  case awaiting =>
    intro j hj
    obtain ⟨hji, hj⟩ := hstoring hj
    rw [hshared, WhenAll.State.goto_wrappers, WhenAll.State.store_wrappers,
      Function.update_of_ne hji]
    exact h.awaiting j hj
  case apart =>
    intro j k hjk hj hk
    exact h.apart j k hjk (hstoring hj).2 (hstoring hk).2
  case current =>
    intro j read' hj hthrows k hword
    obtain ⟨hji, hsome⟩ := hstoring (by rw [hj]; rfl)
    have hread' : s.storing j = some read' := by rwa [hothers hji] at hj
    rw [h.current j read' hread' hthrows k hword, hshared]
    cases hi : outcomes i with
    | error e => rfl
    | ok value =>
        have hki : k ≠ i := by
          rintro rfl
          refine h.apart j k hji hsome (by rw [hread]; rfl) (.inr ⟨hthrows, ?_, hword.symm⟩)
          simp [throws, hi]
        simp [WhenAll.State.store, WhenAll.State.goto, Function.update_of_ne hki]

theorem Settled.step (h : Settled word outcomes s) (hapart : Apart word outcomes s a)
    (hstep : step word outcomes s a = some t) : Settled word outcomes t := by
  cases a with
  | coroutine =>
      obtain ⟨shared, hbase, rfl⟩ := Option.map_eq_some_iff.mp hstep
      exact h.base (a := .coroutine) (fun _ heq => by cases heq) hbase
  | resume =>
      obtain ⟨shared, hbase, rfl⟩ := Option.map_eq_some_iff.mp hstep
      exact h.base (a := .resume) (fun _ heq => by cases heq) hbase
  | suspendTask i =>
      obtain ⟨-, hstep⟩ := Option.ite_none_right_eq_some.mp hstep
      obtain ⟨shared, hbase, rfl⟩ := Option.map_eq_some_iff.mp hstep
      exact h.base (a := .suspendTask i) (fun _ heq => by cases heq) hbase
  | wrapper i =>
      have hwrapper : launch_wrapper word outcomes s i = some t := hstep
      unfold launch_wrapper at hwrapper
      split at hwrapper
      case isTrue pc =>
          split at hwrapper
          case h_1 hnone =>
              obtain rfl := Option.some.inj hwrapper
              exact h.begin pc (hapart pc hnone)
          case h_2 read hread =>
              obtain rfl := Option.some.inj hwrapper
              exact h.end hread
      case isFalse pc =>
          obtain ⟨shared, hbase, rfl⟩ := Option.map_eq_some_iff.mp hwrapper
          refine h.base (a := .wrapper i) (fun j heq => ?_) hbase
          obtain rfl := Action.wrapper.inj heq
          exact pc

/-- A write that is over is the one step of the protocol, and one that has begun is none. -/
theorem simulated [Inhabited T] (h : Settled word outcomes s)
    (hstep : step word outcomes s a = some t) :
    ∃ bs, exec (WhenAll.system outcomes) s.shared bs = some t.shared := by
  have hone : ∀ {b : Action n} {shared}, WhenAll.step outcomes s.shared b = some shared →
      ∃ bs, exec (WhenAll.system outcomes) s.shared bs = some shared :=
    fun hbase => ⟨[_], exec_singleton hbase⟩
  cases a with
  | coroutine =>
      obtain ⟨shared, hbase, rfl⟩ := Option.map_eq_some_iff.mp hstep
      exact hone hbase
  | resume =>
      obtain ⟨shared, hbase, rfl⟩ := Option.map_eq_some_iff.mp hstep
      exact hone hbase
  | suspendTask i =>
      obtain ⟨-, hstep⟩ := Option.ite_none_right_eq_some.mp hstep
      obtain ⟨shared, hbase, rfl⟩ := Option.map_eq_some_iff.mp hstep
      exact hone hbase
  | wrapper i =>
      have hwrapper : launch_wrapper word outcomes s i = some t := hstep
      unfold launch_wrapper at hwrapper
      split at hwrapper
      case isTrue pc =>
          split at hwrapper
          case h_1 hnone =>
              obtain rfl := Option.some.inj hwrapper
              exact ⟨[], rfl⟩
          case h_2 read hread =>
              obtain rfl := Option.some.inj hwrapper
              refine hone (b := .wrapper i) ?_
              rw [endStore_eq h hread, WhenAll.step, launchWrapper, pc]
      case isFalse pc =>
          obtain ⟨shared, hbase, rfl⟩ := Option.map_eq_some_iff.mp hwrapper
          exact hone (b := .wrapper i) hbase

theorem settled_init [Inhabited T] : Settled word outcomes (system word outcomes).init := by
  constructor
  · rfl
  · exact fun i hi => by cases hi
  · exact fun i j _ hi => by cases hi
  · exact fun i read hi => by cases hi

theorem settled_of_reachable [Inhabited T]
    (h : ReachableUnder (system word outcomes) (Apart word outcomes) s) :
    Settled word outcomes s ∧ Reachable (WhenAll.system outcomes) s.shared := by
  refine h.invariant (fun s => Settled word outcomes s ∧
    Reachable (WhenAll.system outcomes) s.shared) ⟨settled_init, ⟨[], .start⟩⟩ ?_
  rintro s a t hapart hstep ⟨hs, hreachable⟩
  obtain ⟨bs, hexec⟩ := simulated hs hstep
  exact ⟨hs.step hapart hstep, hreachable.exec hexec⟩

end Vector

section Pair

variable {T1 T2 E : Type*}

/-- The members of the tuple share no word, so that only writes of `exception` can meet. -/
structure PairState (T1 T2 E : Type*) where
  shared : WhenAllPair.PairState T1 T2 E
  storing1 : Bool
  storing2 : Bool
  undefined : Bool

variable (first : Except E T1) (second : Except E T2)

def launch1 (s : PairState T1 T2 E) : Option (PairState T1 T2 E) :=
  if s.shared.w1 = .awaiting ∧ s.storing1 = false then
    some { s with
      storing1 := true
      undefined := s.undefined || (throws first && throws second && s.storing2) }
  else (WhenAllPair.launch1 first s.shared).map fun shared => { s with shared, storing1 := false }

def launch2 (s : PairState T1 T2 E) : Option (PairState T1 T2 E) :=
  if s.shared.w2 = .awaiting ∧ s.storing2 = false then
    some { s with
      storing2 := true
      undefined := s.undefined || (throws first && throws second && s.storing1) }
  else (WhenAllPair.launch2 second s.shared).map fun shared => { s with shared, storing2 := false }

def pairStep (s : PairState T1 T2 E) (a : PairAction) : Option (PairState T1 T2 E) :=
  let base := (WhenAllPair.pairStep first second s.shared a).map fun shared => { s with shared }
  match a with
  | .launch1 => launch1 first second s
  | .launch2 => launch2 first second s
  | .suspendTask1 => if s.storing1 then none else base
  | .suspendTask2 => if s.storing2 then none else base
  | _ => base

/-- `when_all(Task<T1>, Task<T2>)`. -/
def pairSystem [Inhabited T1] [Inhabited T2] : System (PairState T1 T2 E) PairAction where
  init :=
    { shared := (WhenAllPair.pairSystem first second).init
      storing1 := false
      storing2 := false
      undefined := false }
  step := pairStep first second

def PairApart (s : PairState T1 T2 E) : PairAction → Prop
  | .launch1 => s.shared.w1 = .awaiting → s.storing1 = false →
      ¬ (throws first ∧ throws second ∧ s.storing2 = true)
  | .launch2 => s.shared.w2 = .awaiting → s.storing2 = false →
      ¬ (throws first ∧ throws second ∧ s.storing1 = true)
  | _ => True

variable {first : Except E T1} {second : Except E T2} {s t : PairState T1 T2 E} {a : PairAction}

theorem pair_simulated [Inhabited T1] [Inhabited T2] (hstep : pairStep first second s a = some t) :
    ∃ bs, exec (WhenAllPair.pairSystem first second) s.shared bs = some t.shared := by
  have hbase : ∀ {b : PairAction} {f : WhenAllPair.PairState T1 T2 E → PairState T1 T2 E},
      (WhenAllPair.pairStep first second s.shared b).map f = some t →
      (∀ shared, (f shared).shared = shared) →
      ∃ bs, exec (WhenAllPair.pairSystem first second) s.shared bs = some t.shared := by
    intro b f hmap hf
    obtain ⟨shared, hshared, rfl⟩ := Option.map_eq_some_iff.mp hmap
    rw [hf]
    exact ⟨[b], exec_singleton hshared⟩
  cases a with
  | coroutine => exact hbase (b := .coroutine) hstep fun _ => rfl
  | resume => exact hbase (b := .resume) hstep fun _ => rfl
  | suspendTask1 =>
      obtain ⟨-, hstep⟩ := Option.ite_none_left_eq_some.mp hstep
      exact hbase (b := .suspendTask1) hstep fun _ => rfl
  | suspendTask2 =>
      obtain ⟨-, hstep⟩ := Option.ite_none_left_eq_some.mp hstep
      exact hbase (b := .suspendTask2) hstep fun _ => rfl
  | launch1 =>
      have hlaunch : launch1 first second s = some t := hstep
      unfold launch1 at hlaunch
      split at hlaunch
      · obtain rfl := Option.some.inj hlaunch
        exact ⟨[], rfl⟩
      · exact hbase (b := .launch1) hlaunch fun _ => rfl
  | launch2 =>
      have hlaunch : launch2 first second s = some t := hstep
      unfold launch2 at hlaunch
      split at hlaunch
      · obtain rfl := Option.some.inj hlaunch
        exact ⟨[], rfl⟩
      · exact hbase (b := .launch2) hlaunch fun _ => rfl

theorem pair_defined (h : s.undefined = false) (hapart : PairApart first second s a)
    (hstep : pairStep first second s a = some t) : t.undefined = false := by
  have hbase : ∀ {b : PairAction} {f : WhenAllPair.PairState T1 T2 E → PairState T1 T2 E},
      (WhenAllPair.pairStep first second s.shared b).map f = some t →
      (∀ shared, (f shared).undefined = s.undefined) → t.undefined = false := by
    intro b f hmap hf
    obtain ⟨shared, -, rfl⟩ := Option.map_eq_some_iff.mp hmap
    rw [hf, h]
  cases a with
  | coroutine => exact hbase (b := .coroutine) hstep fun _ => rfl
  | resume => exact hbase (b := .resume) hstep fun _ => rfl
  | suspendTask1 =>
      obtain ⟨-, hstep⟩ := Option.ite_none_left_eq_some.mp hstep
      exact hbase (b := .suspendTask1) hstep fun _ => rfl
  | suspendTask2 =>
      obtain ⟨-, hstep⟩ := Option.ite_none_left_eq_some.mp hstep
      exact hbase (b := .suspendTask2) hstep fun _ => rfl
  | launch1 =>
      have hlaunch : launch1 first second s = some t := hstep
      unfold launch1 at hlaunch
      split at hlaunch
      case isTrue hbegins =>
          obtain rfl := Option.some.inj hlaunch
          have hnone := hapart hbegins.1 hbegins.2
          simpa [h] using hnone
      case isFalse => exact hbase (b := .launch1) hlaunch fun _ => rfl
  | launch2 =>
      have hlaunch : launch2 first second s = some t := hstep
      unfold launch2 at hlaunch
      split at hlaunch
      case isTrue hbegins =>
          obtain rfl := Option.some.inj hlaunch
          have hnone := hapart hbegins.1 hbegins.2
          simpa [h] using hnone
      case isFalse => exact hbase (b := .launch2) hlaunch fun _ => rfl

theorem pair_of_reachable [Inhabited T1] [Inhabited T2]
    (h : ReachableUnder (pairSystem first second) (PairApart first second) s) :
    s.undefined = false ∧ Reachable (WhenAllPair.pairSystem first second) s.shared := by
  refine h.invariant (fun s => s.undefined = false ∧
    Reachable (WhenAllPair.pairSystem first second) s.shared) ⟨rfl, ⟨[], .start⟩⟩ ?_
  rintro s a t hapart hstep ⟨hdefined, hreachable⟩
  obtain ⟨bs, hexec⟩ := pair_simulated hstep
  exact ⟨pair_defined hdefined hapart hstep, hreachable.exec hexec⟩

end Pair

section Contract

variable {T E T1 T2 : Type*}

/-- `when_all` has raced with nothing, passes its awaiter only when all tasks have completed,
and returns there what the tasks say. -/
structure Lawful {n : Nat} (word : Fin n → Nat) (outcomes : Fin n → Except E T)
    (s : State n T E) : Prop where
  defined : s.undefined = false
  passes : s.shared.coroutine = .awaitResume →
    (∀ i, HasCompleted (s.shared.wrappers i)) ∧
      ∃ t r, step word outcomes s .coroutine = some t ∧ t.shared.coroutine = .done r
  returns : ∀ r, s.shared.coroutine = .done r → Returns outcomes r

structure LawfulPair (first : Except E T1) (second : Except E T2) (s : PairState T1 T2 E) :
    Prop where
  defined : s.undefined = false
  passes : s.shared.coroutine = .awaitResume →
    (HasCompleted s.shared.w1 ∧ HasCompleted s.shared.w2) ∧
      ∃ t r, pairStep first second s .coroutine = some t ∧ t.shared.coroutine = .done r
  returns : ∀ r, s.shared.coroutine = .done r → ReturnsPair first second r

theorem lawful_of_reachable [Inhabited T] {n : Nat} {word : Fin n → Nat}
    {outcomes : Fin n → Except E T} {s : State n T E}
    (h : ReachableUnder (system word outcomes) (Apart word outcomes) s) :
    Lawful word outcomes s := by
  obtain ⟨hsettled, hs⟩ := settled_of_reachable h
  obtain ⟨hpasses, hreturns⟩ := WhenAllPair.returns_of_reachable hs
  refine ⟨hsettled.defined, fun pc => ?_, hreturns⟩
  obtain ⟨hcompleted, t, r, hstep, hdone⟩ := hpasses pc
  exact ⟨hcompleted, _, r, Option.map_eq_some_iff.mpr ⟨t, hstep, rfl⟩, hdone⟩

theorem lawfulPair_of_reachable [Inhabited T1] [Inhabited T2] {first : Except E T1}
    {second : Except E T2} {s : PairState T1 T2 E}
    (h : ReachableUnder (pairSystem first second) (PairApart first second) s) :
    LawfulPair first second s := by
  obtain ⟨hdefined, hs⟩ := pair_of_reachable h
  obtain ⟨hpasses, hreturns⟩ := WhenAllPair.returnsPair_of_reachable hs
  refine ⟨hdefined, fun pc => ?_, hreturns⟩
  obtain ⟨hcompleted, t, r, hstep, hdone⟩ := hpasses pc
  exact ⟨hcompleted, _, r, Option.map_eq_some_iff.mpr ⟨t, hstep, rfl⟩, hdone⟩

/-- With a word for each slot and at most one exception there is nothing to meet. -/
theorem apart_of_injective {n : Nat} {word : Fin n → Nat} {outcomes : Fin n → Except E T}
    (hword : Function.Injective word)
    (hthrows : ∀ i j, throws (outcomes i) → throws (outcomes j) → i = j) (s : State n T E)
    (a : Action n) : Apart word outcomes s a := by
  cases a with
  | wrapper i =>
      intro _ _ j hji _ hconflict
      rcases hconflict with ⟨hi, hj⟩ | ⟨-, -, hsame⟩
      · exact hji (hthrows j i hj hi)
      · exact hji (hword hsame.symm)
  | _ => trivial

theorem pairApart_of_not_throws {first : Except E T1} {second : Except E T2}
    (hthrows : ¬ (throws first ∧ throws second)) (s : PairState T1 T2 E) (a : PairAction) :
    PairApart first second s a := by
  cases a with
  | launch1 => exact fun _ _ hboth => hthrows ⟨hboth.1, hboth.2.1⟩
  | launch2 => exact fun _ _ hboth => hthrows ⟨hboth.1, hboth.2.1⟩
  | _ => trivial

/-- Both overloads keep their law in every run in which no two wrappers write to one place at
a time, which is every run when no two slots share a word and at most one task throws. -/
theorem when_all_lawful [Inhabited T] [Inhabited T1] [Inhabited T2] (n : Nat)
    (word : Fin n → Nat) (outcomes : Fin n → Except E T) (first : Except E T1)
    (second : Except E T2) :
    (∀ s, ReachableUnder (system word outcomes) (Apart word outcomes) s →
      Lawful word outcomes s) ∧
    (∀ s, ReachableUnder (pairSystem first second) (PairApart first second) s →
      LawfulPair first second s) ∧
    (Function.Injective word →
      (∀ i j, throws (outcomes i) → throws (outcomes j) → i = j) →
      ∀ s, Reachable (system word outcomes) s → Lawful word outcomes s) ∧
    (¬ (throws first ∧ throws second) →
      ∀ s, Reachable (pairSystem first second) s → LawfulPair first second s) := by
  refine ⟨fun s => lawful_of_reachable, fun s => lawfulPair_of_reachable, ?_, ?_⟩
  · rintro hword hthrows s ⟨as, run⟩
    exact lawful_of_reachable
      ⟨as, run.mono fun s a _ => apart_of_injective hword hthrows s a⟩
  · rintro hthrows s ⟨as, run⟩
    exact lawfulPair_of_reachable
      ⟨as, run.mono fun s a _ => pairApart_of_not_throws hthrows s a⟩

/-- Two tasks that both return `true`, with their bits in one word: the second wrapper has
read the word before the first one writes it back, and clears the bit of the first. -/
def lostBit (first second : Fin 2) : List (Action 2) :=
  [.coroutine, .coroutine, .suspendTask first, .coroutine, .suspendTask second, .coroutine,
    .wrapper first, .wrapper second, .wrapper first, .wrapper second, .wrapper first,
    .wrapper second, .coroutine, .coroutine]

theorem lostBit_not_lawful :
    ∃ s, Reachable (system (E := Empty) (fun _ : Fin 2 => 0) fun _ => .ok true) s ∧
      ¬ Lawful (fun _ => 0) (fun _ => .ok true) s := by
  obtain ⟨s, hexec, r, hdone, hbit⟩ : ∃ s, exec (system (E := Empty) (fun _ : Fin 2 => 0)
      fun _ => .ok true) (system (E := Empty) (fun _ : Fin 2 => 0) fun _ => .ok true).init
        (lostBit 0 1) = some s ∧ ∃ r, s.shared.coroutine = .done (.ok r) ∧ r 0 = false :=
    ⟨_, rfl, _, rfl, rfl⟩
  refine ⟨s, reachable_of_exec hexec, fun hlawful => ?_⟩
  obtain ⟨values, hvalues, hresult⟩ | ⟨i, e, -⟩ := hlawful.returns _ hdone
  · have hfirst : r 0 = values 0 := congrFun (Except.ok.inj hresult) 0
    have htrue : true = values 0 := Except.ok.inj (hvalues 0)
    rw [hbit, ← htrue] at hfirst
    cases hfirst
  · exact e.elim

end Contract

end SkUtils.Coroutine.WhenAllStores
