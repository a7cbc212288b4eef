import Mathlib.Data.List.Basic

/-!
`Generator<T>` of `generator.h` and the range-based `for` over it. The body of the
coroutine is a machine that goes from one suspension to the next. To resume a coroutine
that is done is undefined, and so is every use of a null handle.
-/

namespace SkUtils.Coroutine.Generators

section Code

/-- How the body comes to its next suspension. -/
inductive Outcome (σ T E : Type)
  | coYield (value : T) (next : σ)
  | coReturn
  | throw (exception : E)

/-- `segment` is what the body performs until its next suspension, and how it comes to it;
`none` if it never does. -/
structure Body (σ T E F : Type) where
  start : σ
  segment : σ → Option (List F × Outcome σ T E)

inductive Point (σ : Type)
  | suspended (state : σ)
  | final

structure PromiseType (T E : Type) where
  current_value_ : Option T
  exception_ : Option E

structure Frame (σ T E : Type) where
  point : Point σ
  promise : PromiseType T E

/-- Null, or the handle of the frame of the generator. -/
inductive HandleType
  | null
  | frame
deriving DecidableEq

structure Iterator where
  handle_ : HandleType := .null
deriving DecidableEq

/-- A generator with the frame that its handle and those of its iterators refer to. -/
structure Generator (σ T E : Type) where
  handle_ : HandleType
  frame : Frame σ T E

variable {σ T E F : Type}

/-- `initial_suspend` suspends always: nothing of the body has been performed. -/
def Body.call (body : Body σ T E F) : Generator σ T E where
  handle_ := .frame
  frame := {
    point := .suspended body.start
    promise := { current_value_ := none, exception_ := none } }

namespace Frame

def done (frame : Frame σ T E) : Bool :=
  match frame.point with
  | .suspended _ => false
  | .final => true

def yield_value (frame : Frame σ T E) (value : T) (next : σ) : Frame σ T E where
  point := .suspended next
  promise := { frame.promise with current_value_ := some value }

def return_void (frame : Frame σ T E) : Frame σ T E :=
  { frame with point := .final }

def unhandled_exception (frame : Frame σ T E) (e : E) : Frame σ T E where
  point := .final
  promise := { frame.promise with exception_ := some e }

def resume (body : Body σ T E F) (frame : Frame σ T E) : Option (Frame σ T E × List F) :=
  match frame.point with
  | .final => none
  | .suspended state => do
      let (effects, outcome) ← body.segment state
      match outcome with
      | .coYield value next => return (frame.yield_value value next, effects)
      | .coReturn => return (frame.return_void, effects)
      | .throw e => return (frame.unhandled_exception e, effects)

end Frame

/-- What a call returns or throws, the frame behind it, and what the body has performed. -/
structure Called (σ T E F : Type) where
  result : Except E Iterator
  frame : Frame σ T E
  effects : List F

/-- `operator*`. -/
def Iterator.deref (it : Iterator) (frame : Frame σ T E) : Option T :=
  match it.handle_ with
  | .null => none
  | .frame => frame.promise.current_value_

/-- `operator++`. -/
def Iterator.increment (body : Body σ T E F) (it : Iterator) (frame : Frame σ T E) :
    Option (Called σ T E F) :=
  match it.handle_ with
  | .null => none
  | .frame => do
      let (frame, effects) ← frame.resume body
      match frame.promise.exception_ with
      | some e => return { result := .error e, frame, effects }
      | none =>
          if frame.done then
            return { result := .ok { it with handle_ := .null }, frame, effects }
          else
            return { result := .ok it, frame, effects }

def Generator.begin (body : Body σ T E F) (g : Generator σ T E) : Option (Called σ T E F) :=
  match g.handle_ with
  | .null => return { result := .ok {}, frame := g.frame, effects := [] }
  | .frame => do
      let (frame, effects) ← g.frame.resume body
      match frame.promise.exception_ with
      | some e => return { result := .error e, frame, effects }
      | none =>
          if frame.done then
            return { result := .ok {}, frame, effects }
          else
            return { result := .ok { handle_ := g.handle_ }, frame, effects }

/-- `end()`. -/
def endIterator : Iterator :=
  {}

end Code

section RangeFor

variable {σ T E F : Type}

inductive Site
  | begin
  | increment
deriving DecidableEq

/-- What is seen of a loop. -/
inductive Event (T F : Type)
  | called (site : Site)
  | performed (effect : F)
  | visited (value : T)

/-- The end of the loop, or an exception and the call that it comes out of. -/
inductive Exit (E : Type)
  | ended
  | rethrown (site : Site) (exception : E)

def Called.events (call : Called σ T E F) (site : Site) : List (Event T F) :=
  .called site :: call.effects.map .performed

/-- The loop of `rangeFor`, cut off after `fuel` rounds. -/
def forLoop (body : Body σ T E F) :
    Nat → Iterator → Frame σ T E → List (Event T F) → Option (List (Event T F) × Exit E)
  | fuel, it, frame, trace =>
      if it = endIterator then
        some (trace, .ended)
      else
        match fuel with
        | 0 => none
        | fuel + 1 => do
            let value ← it.deref frame
            let call ← it.increment body frame
            let trace := trace ++ .visited value :: call.events .increment
            match call.result with
            | .ok it => forLoop body fuel it call.frame trace
            | .error e => return (trace, .rethrown .increment e)

/-- `for (auto v : g)`. -/
def rangeFor (body : Body σ T E F) (fuel : Nat) (g : Generator σ T E) :
    Option (List (Event T F) × Exit E) := do
  let call ← g.begin body
  match call.result with
  | .ok it => forLoop body fuel it call.frame (call.events .begin)
  | .error e => return (call.events .begin, .rethrown .begin e)

end RangeFor

section Sequence

variable {σ T E F : Type}

/-- From `state` the body yields the values, each behind what it performs before, and then
performs `last` and returns or throws. -/
inductive Produces (body : Body σ T E F) :
    σ → List (List F × T) → List F → Except E Unit → Prop
  | returns {state : σ} {last : List F} (segment : body.segment state = some (last, .coReturn)) :
      Produces body state [] last (.ok ())
  | throws {state : σ} {last : List F} {e : E}
      (segment : body.segment state = some (last, .throw e)) :
      Produces body state [] last (.error e)
  | yields {state next : σ} {effects last : List F} {value : T} {items : List (List F × T)}
      {ending : Except E Unit} (segment : body.segment state = some (effects, .coYield value next))
      (rest : Produces body next items last ending) :
      Produces body state ((effects, value) :: items) last ending

/-- What the body performs before a value comes in the call that moves on to the value. -/
def sequenceTrace (site : Site) : List (List F × T) → List F → List (Event T F)
  | [], last => .called site :: last.map .performed
  | (effects, value) :: items, last =>
      .called site :: effects.map .performed ++
        .visited value :: sequenceTrace .increment items last

/-- The call that comes to the end of the body. -/
def lastSite : List (List F × T) → Site
  | [] => .begin
  | _ :: _ => .increment

def exitOf (site : Site) : Except E Unit → Exit E
  | .ok () => .ended
  | .error e => .rethrown site e

def Event.value : Event T F → Option T
  | visited value => some value
  | _ => none

theorem filterMap_performed (effects : List F) :
    (effects.map Event.performed).filterMap (Event.value (T := T)) = [] := by
  induction effects with
  | nil => rfl
  | cons effect effects ih => exact ih

theorem values_sequenceTrace (site : Site) (items : List (List F × T)) (last : List F) :
    (sequenceTrace site items last).filterMap Event.value = items.map Prod.snd := by
  induction items generalizing site with
  | nil => exact filterMap_performed last
  | cons item items ih =>
      have hbefore := filterMap_performed (T := T) item.1
      have hrest := ih .increment
      simp only [sequenceTrace, List.cons_append, List.filterMap_cons, List.filterMap_append,
        hbefore, hrest, List.nil_append, List.map_cons, Event.value]

end Sequence

section Calls

variable {σ T E F : Type} {body : Body σ T E F} {frame : Frame σ T E} {state : σ}

/-- What `begin` and `++` do where they resume the frame. -/
def advance (body : Body σ T E F) (frame : Frame σ T E) : Option (Called σ T E F) := do
  let (frame, effects) ← frame.resume body
  match frame.promise.exception_ with
  | some e => return { result := .error e, frame, effects }
  | none =>
      if frame.done then
        return { result := .ok endIterator, frame, effects }
      else
        return { result := .ok { handle_ := .frame }, frame, effects }

theorem increment_eq : Iterator.increment body { handle_ := .frame } frame = advance body frame :=
  rfl

theorem begin_eq : Generator.begin body { handle_ := .frame, frame } = advance body frame :=
  rfl

/-- Nothing has been thrown so far. -/
structure Suspended (frame : Frame σ T E) (state : σ) : Prop where
  point : frame.point = .suspended state
  exception_ : frame.promise.exception_ = none

theorem suspended_call (body : Body σ T E F) : Suspended body.call.frame body.start :=
  ⟨rfl, rfl⟩

theorem Suspended.resume (h : Suspended frame state) {effects : List F}
    {outcome : Outcome σ T E} (hsegment : body.segment state = some (effects, outcome)) :
    frame.resume body = some (match outcome with
      | .coYield value next => frame.yield_value value next
      | .coReturn => frame.return_void
      | .throw e => frame.unhandled_exception e, effects) := by
  rw [Frame.resume, h.point]
  simp only [hsegment]
  cases outcome <;> rfl

theorem Suspended.advance_yields (h : Suspended frame state) {effects : List F} {value : T}
    {next : σ} (hsegment : body.segment state = some (effects, .coYield value next)) :
    advance body frame = some {
      result := .ok { handle_ := .frame }, frame := frame.yield_value value next, effects } := by
  have hnone : (frame.yield_value value next).promise.exception_ = none := h.exception_
  rw [advance, h.resume hsegment]
  simp only [Option.bind_eq_bind, Option.bind_some, hnone]
  rfl

theorem Suspended.advance_returns (h : Suspended frame state) {effects : List F}
    (hsegment : body.segment state = some (effects, .coReturn)) :
    advance body frame = some {
      result := .ok endIterator, frame := frame.return_void, effects } := by
  have hnone : frame.return_void.promise.exception_ = none := h.exception_
  rw [advance, h.resume hsegment]
  simp only [Option.bind_eq_bind, Option.bind_some, hnone]
  rfl

theorem Suspended.advance_throws (h : Suspended frame state) {effects : List F} {e : E}
    (hsegment : body.segment state = some (effects, .throw e)) :
    advance body frame = some {
      result := .error e, frame := frame.unhandled_exception e, effects } := by
  rw [advance, h.resume hsegment]
  rfl

theorem Suspended.yield_value (h : Suspended frame state) (value : T) (next : σ) :
    Suspended (frame.yield_value value next) next :=
  ⟨rfl, h.exception_⟩

end Calls

section Loop

variable {σ T E F : Type} {body : Body σ T E F} {frame : Frame σ T E} {state : σ}

theorem forLoop_end (fuel : Nat) (trace : List (Event T F)) :
    forLoop body fuel endIterator frame trace = some (trace, .ended) := by
  rw [forLoop.eq_def]
  exact if_pos rfl

theorem forLoop_frame (fuel : Nat) (trace : List (Event T F)) {value : T}
    (hvalue : frame.promise.current_value_ = some value) {call : Called σ T E F}
    (hcall : advance body frame = some call) :
    forLoop body (fuel + 1) { handle_ := .frame } frame trace =
      match call.result with
      | .ok it => forLoop body fuel it call.frame
          (trace ++ .visited value :: call.events .increment)
      | .error e =>
          some (trace ++ .visited value :: call.events .increment, .rethrown .increment e) := by
  rw [forLoop, if_neg (by decide), increment_eq, hcall]
  simp only [Iterator.deref, hvalue, Option.bind_eq_bind, Option.bind_some]
  rfl

/-- The loop at a value: the induction is over what the body still produces. -/
theorem forLoop_produces {items : List (List F × T)} {last : List F} {ending : Except E Unit}
    (h : Produces body state items last ending) (hframe : Suspended frame state) {value : T}
    (hvalue : frame.promise.current_value_ = some value) {fuel : Nat}
    (hfuel : items.length < fuel) (trace : List (Event T F)) :
    forLoop body fuel { handle_ := .frame } frame trace =
      some (trace ++ .visited value :: sequenceTrace .increment items last,
        exitOf .increment ending) := by
  obtain ⟨fuel, rfl⟩ := Nat.exists_eq_succ_of_ne_zero (Nat.ne_zero_of_lt hfuel)
  induction h generalizing frame value fuel trace with
  | returns segment =>
      rw [forLoop_frame fuel trace hvalue (hframe.advance_returns segment)]
      exact forLoop_end fuel _
  | throws segment =>
      rw [forLoop_frame fuel trace hvalue (hframe.advance_throws segment)]
      rfl
  | @yields state next effects last value' items ending segment rest ih =>
      have hlength : items.length < fuel := Nat.lt_of_succ_lt_succ hfuel
      obtain ⟨fuel, rfl⟩ := Nat.exists_eq_succ_of_ne_zero (Nat.ne_zero_of_lt hlength)
      rw [forLoop_frame (fuel + 1) trace hvalue (hframe.advance_yields segment)]
      dsimp only
      rw [ih (hframe.yield_value value' next) rfl _ fuel hlength]
      simp [sequenceTrace, Called.events]

/-- The loop over a new generator visits the values that the body produces, in order and
once each. It ends as the body ends, and every part of the body is performed in the call
that moves on to the next value. -/
theorem for_visits_produced (body : Body σ T E F) {items : List (List F × T)} {last : List F}
    {ending : Except E Unit} (h : Produces body body.start items last ending) :
    ∃ trace, (∀ fuel, items.length ≤ fuel →
        rangeFor body fuel body.call = some (trace, exitOf (lastSite items) ending)) ∧
      trace.filterMap Event.value = items.map Prod.snd ∧
      trace = sequenceTrace .begin items last := by
  refine ⟨_, fun fuel hfuel => ?_, values_sequenceTrace _ items last, rfl⟩
  have hstart := suspended_call body
  change (advance body body.call.frame >>= fun call => _) = _
  cases h with
  | returns segment =>
      rw [hstart.advance_returns segment]
      exact forLoop_end fuel _
  | throws segment =>
      rw [hstart.advance_throws segment]
      rfl
  | @yields _ next effects _ value items _ segment rest =>
      rw [hstart.advance_yields segment]
      have hloop := forLoop_produces rest (hstart.yield_value value next) rfl hfuel
        (.called .begin :: effects.map .performed)
      simpa [sequenceTrace, Called.events, lastSite] using hloop

end Loop

section Demo

/-- The body of `words`. -/
def words : Body Nat String Empty Empty where
  start := 0
  segment
    | 0 => some ([], .coYield "hello" 1)
    | 1 => some ([], .coYield "world" 2)
    | 2 => some ([], .coYield "coroutine" 3)
    | _ => some ([], .coReturn)

theorem for_visits_produced_words :
    ∃ trace, (∀ fuel, 3 ≤ fuel → rangeFor words fuel words.call = some (trace, .ended)) ∧
      trace.filterMap Event.value = ["hello", "world", "coroutine"] ∧
      trace = sequenceTrace .begin [([], "hello"), ([], "world"), ([], "coroutine")] [] :=
  for_visits_produced words (.yields rfl (.yields rfl (.yields rfl (.returns rfl))))

end Demo

end SkUtils.Coroutine.Generators
