import SkUtils.Library.LockTraces
import SkUtils.Strings.Formatter

/-!
The lock of the log in the entry points of `printer.h` and `logger.h`. A value is what
its rendering does: a `toString()` of the user makes calls of its own before it returns a
text. What a call does is its trace.
-/

namespace SkUtils.Strings.LogLock

open SkUtils.Library.TransitionSystem
open SkUtils.Library.LockTraces
open SkUtils.Strings.StringUtils
open SkUtils.Strings.Formatter

section Code

inductive Stream
  | cout
  | cerr
deriving DecidableEq

abbrev Trace :=
  List (Event (Stream × Str))

structure Rendered where
  trace : Trace
  word : Str

def write (stream : Stream) (words : List Str) : Trace :=
  words.map fun word => .emit (stream, word)

/-- The scope of a `GUARD_LOG`. -/
def guarded (body : Trace) : Trace :=
  .lock :: (body ++ [.unlock])

def traces (args : List Rendered) : Trace :=
  args.flatMap Rendered.trace

def ansiRedBg : Str :=
  ['\x1b', '[', '0', ';', '3', '1', 'm']

def ansiYellowBg : Str :=
  ['\x1b', '[', '0', ';', '3', '3', 'm']

def ansiBlueBg : Str :=
  ['\x1b', '[', '0', ';', '3', '4', 'm']

def ansiPurpleBg : Str :=
  ['\x1b', '[', '0', ';', '3', '5', 'm']

def dumpSep : Str :=
  ['\n']

/-- `print` and `println`, which differ in the ending. -/
def printWith (ending : List Str) (fmt : Str) (args : List Rendered) : Trace :=
  if args.isEmpty then
    guarded (write .cout (fmt :: ending))
  else
    traces args ++
      guarded (write .cout (colorful_format fmt (args.map Rendered.word) :: ending))

def print (fmt : Str) (args : List Rendered) : Trace :=
  printWith [] fmt args

def println (fmt : Str) (args : List Rendered) : Trace :=
  printWith [['\n']] fmt args

/-- The macros of `logger.h` that take a format; `position` is `COUT_POSITION`. -/
def logWith (stream : Stream) (color tag position fmt : Str) (args : List Rendered) : Trace :=
  traces args ++
    guarded (write stream [color, tag, position, [' '], ansiClear,
      colorful_format fmt (args.map Rendered.word), ['\n']])

def SK_LOG (position fmt : Str) (args : List Rendered) : Trace :=
  logWith .cout ansiBlueBg "[DEBUG]".toList position fmt args

def SK_WARN (position fmt : Str) (args : List Rendered) : Trace :=
  logWith .cerr ansiYellowBg "[ WARN]".toList position fmt args

def SK_ERROR (position fmt : Str) (args : List Rendered) : Trace :=
  logWith .cerr ansiRedBg "[ERROR]".toList position fmt args

/-- The message is an operand of the `<<` under the lock. -/
def TODO (position : Str) (msg : Rendered) : Trace :=
  guarded (write .cerr [ansiYellowBg, "[TODO]".toList, ansiBlueBg, position, [':'],
      ansiPurpleBg] ++
    msg.trace ++ write .cerr [msg.word, ansiClear, ['\n']])

def dumpPair (pair : Rendered × Rendered) : Trace :=
  write .cout [ansiPurpleBg, ['[']] ++ pair.1.trace ++
    write .cout [pair.1.word, [']', ':'], ansiClear] ++ pair.2.trace ++
    write .cout [pair.2.word, dumpSep]

def dumpWithName (pairs : List (Rendered × Rendered)) : Trace :=
  guarded (pairs.flatMap dumpPair)

/-- One call of `dumpWithName` for each argument, and the end of the line. -/
def DUMP (args : List (Str × Rendered)) : Trace :=
  args.flatMap (fun arg => dumpWithName [(⟨[], arg.1⟩, arg.2)]) ++ write .cout [['\n']]

mutual

/-- A value is a text, an object with a `toString()` of the user, or made of other
values, which are rendered in their order. -/
inductive Value
  | plain (word : Str)
  | object (calls : Calls) (word : Str)
  | composite (elems : Values) (join : List Str → Str)

inductive Values
  | nil
  | cons (head : Value) (tail : Values)

inductive Pairs
  | nil
  | cons (first second : Value) (tail : Pairs)

inductive NamedValues
  | nil
  | cons (name : Str) (value : Value) (tail : NamedValues)

inductive Call
  | print (fmt : Str) (args : Values)
  | println (fmt : Str) (args : Values)
  | SK_LOG (position fmt : Str) (args : Values)
  | SK_WARN (position fmt : Str) (args : Values)
  | SK_ERROR (position fmt : Str) (args : Values)
  | TODO (position : Str) (msg : Value)
  | dumpWithName (pairs : Pairs)
  | DUMP (name : Str) (value : Value) (rest : NamedValues)

inductive Calls
  | nil
  | cons (head : Call) (tail : Calls)

end

mutual

def Value.render : Value → Rendered
  | .plain word => ⟨[], word⟩
  | .object calls word => ⟨calls.trace, word⟩
  | .composite elems join =>
      ⟨traces elems.render, join (elems.render.map Rendered.word)⟩

def Values.render : Values → List Rendered
  | .nil => []
  | .cons head tail => head.render :: tail.render

def Pairs.render : Pairs → List (Rendered × Rendered)
  | .nil => []
  | .cons first second tail => (first.render, second.render) :: tail.render

def NamedValues.render : NamedValues → List (Str × Rendered)
  | .nil => []
  | .cons name value tail => (name, value.render) :: tail.render

def Call.trace : Call → Trace
  | .print fmt args => LogLock.print fmt args.render
  | .println fmt args => LogLock.println fmt args.render
  | .SK_LOG position fmt args => LogLock.SK_LOG position fmt args.render
  | .SK_WARN position fmt args => LogLock.SK_WARN position fmt args.render
  | .SK_ERROR position fmt args => LogLock.SK_ERROR position fmt args.render
  | .TODO position msg => LogLock.TODO position msg.render
  | .dumpWithName pairs => LogLock.dumpWithName pairs.render
  | .DUMP name value rest => LogLock.DUMP ((name, value.render) :: rest.render)

def Calls.trace : Calls → Trace
  | .nil => []
  | .cons head tail => head.trace ++ tail.trace

end

/-- Threads that each make a sequence of calls. -/
def logging (programs : List Calls) : System (State (Stream × Str)) Nat :=
  threads (programs.map Calls.trace)

end Code

section Condition

mutual

/-- No `toString()` in the value makes a call. -/
def Value.silent : Value → Bool
  | .plain _ => true
  | .object .nil _ => true
  | .object (.cons _ _) _ => false
  | .composite elems _ => elems.silent

def Values.silent : Values → Bool
  | .nil => true
  | .cons head tail => head.silent && tail.silent

end

def Pairs.silent : Pairs → Bool
  | .nil => true
  | .cons first second tail => first.silent && second.silent && tail.silent

def NamedValues.silent : NamedValues → Bool
  | .nil => true
  | .cons _ value tail => value.silent && tail.silent

mutual

/-- What is dumped and what is to do is silent, in all calls that are made on the way. -/
def Call.dumpsSilent : Call → Bool
  | .print _ args => args.dumpsSilent
  | .println _ args => args.dumpsSilent
  | .SK_LOG _ _ args => args.dumpsSilent
  | .SK_WARN _ _ args => args.dumpsSilent
  | .SK_ERROR _ _ args => args.dumpsSilent
  | .TODO _ msg => msg.silent
  | .dumpWithName pairs => pairs.silent
  | .DUMP _ value rest => value.silent && rest.silent

def Calls.dumpsSilent : Calls → Bool
  | .nil => true
  | .cons head tail => head.dumpsSilent && tail.dumpsSilent

def Value.dumpsSilent : Value → Bool
  | .plain _ => true
  | .object calls _ => calls.dumpsSilent
  | .composite elems _ => elems.dumpsSilent

def Values.dumpsSilent : Values → Bool
  | .nil => true
  | .cons head tail => head.dumpsSilent && tail.dumpsSilent

end

end Condition

section Traces

variable {held : Bool} {stream : Stream} {rest : Trace}

@[simp]
theorem follow_write (words : List Str) :
    follow held (write stream words ++ rest) = follow held rest := by
  induction words with
  | nil => rfl
  | cons word words ih => simpa [write] using ih

@[simp]
theorem follow_guarded_locked (body : Trace) :
    follow true (guarded body ++ rest) = .relocks := rfl

@[simp]
theorem follow_guarded (body : Trace) :
    follow false (guarded body ++ rest) = follow true (body ++ (.unlock :: rest)) := by
  simp [guarded]

theorem traces_cons (arg : Rendered) (args : List Rendered) :
    traces (arg :: args) = arg.trace ++ traces args :=
  List.flatMap_cons

end Traces

section Locked

/-! While the thread has the lock, every call takes it again. -/

variable {args : Values}

theorem follow_args_locked (hargs : ∀ rest, follow true (traces args.render ++ rest) =
    if args.silent then follow true rest else .relocks) (body rest : Trace) :
    follow true (traces args.render ++ guarded body ++ rest) = .relocks := by
  rw [List.append_assoc, hargs, follow_guarded_locked, ite_self]

theorem follow_printWith_locked (hargs : ∀ rest, follow true (traces args.render ++ rest) =
    if args.silent then follow true rest else .relocks) (ending : List Str) (fmt : Str)
    (rest : Trace) : follow true (printWith ending fmt args.render ++ rest) = .relocks := by
  cases args with
  | nil => rfl
  | cons head tail => exact follow_args_locked hargs _ rest

mutual

theorem follow_value_locked : ∀ (v : Value) (rest : Trace),
    follow true (v.render.trace ++ rest) = if v.silent then follow true rest else .relocks
  | .plain _, rest => rfl
  | .object .nil _, rest => rfl
  | .object (.cons head tail) word, rest => by
      rw [Value.render, Calls.trace, List.append_assoc, follow_call_locked head]
      rfl
  | .composite elems join, rest => follow_values_locked elems rest

theorem follow_values_locked : ∀ (vs : Values) (rest : Trace),
    follow true (traces vs.render ++ rest) = if vs.silent then follow true rest else .relocks
  | .nil, rest => rfl
  | .cons head tail, rest => by
      rw [Values.render, traces_cons, List.append_assoc, follow_value_locked head,
        follow_values_locked tail, Values.silent]
      cases head.silent <;> rfl

theorem follow_call_locked : ∀ (c : Call) (rest : Trace),
    follow true (c.trace ++ rest) = .relocks
  | .print fmt args, rest => follow_printWith_locked (follow_values_locked args) [] fmt rest
  | .println fmt args, rest =>
      follow_printWith_locked (follow_values_locked args) [['\n']] fmt rest
  | .SK_LOG _ _ args, rest => follow_args_locked (follow_values_locked args) _ rest
  | .SK_WARN _ _ args, rest => follow_args_locked (follow_values_locked args) _ rest
  | .SK_ERROR _ _ args, rest => follow_args_locked (follow_values_locked args) _ rest
  | .TODO _ _, _ => rfl
  | .dumpWithName _, _ => rfl
  | .DUMP _ _ _, _ => rfl

end

theorem follow_dumpPair (first second : Value) (rest : Trace) :
    follow true (dumpPair (first.render, second.render) ++ rest) =
      if first.silent && second.silent then follow true rest else .relocks := by
  simp only [dumpPair, List.append_assoc, follow_write, follow_value_locked]
  cases first.silent <;> rfl

theorem follow_pairs : ∀ (pairs : Pairs) (rest : Trace),
    follow true (pairs.render.flatMap dumpPair ++ rest) =
      if pairs.silent then follow true rest else .relocks
  | .nil, rest => rfl
  | .cons first second tail, rest => by
      rw [Pairs.render, List.flatMap_cons, List.append_assoc, follow_dumpPair,
        follow_pairs tail, Pairs.silent]
      cases first.silent && second.silent <;> rfl

end Locked

section Free

variable {rest : Trace}

theorem follow_TODO (position : Str) (msg : Value) :
    follow false (TODO position msg.render ++ rest) =
      if msg.silent then follow false rest else .relocks := by
  simp only [TODO, follow_guarded, List.append_assoc, follow_write, follow_value_locked,
    follow_unlock]

theorem follow_dumpWithName (pairs : Pairs) :
    follow false (dumpWithName pairs.render ++ rest) =
      if pairs.silent then follow false rest else .relocks := by
  rw [dumpWithName, follow_guarded, follow_pairs, follow_unlock]

/-- Every argument of `DUMP` is the only pair of a `dumpWithName`. -/
theorem follow_dumped (name : Str) (value : Value) :
    follow false (dumpWithName [(⟨[], name⟩, value.render)] ++ rest) =
      if value.silent then follow false rest else .relocks := by
  have hpair : follow false (dumpWithName (Pairs.cons (.plain name) value .nil).render ++ rest) =
      if (Pairs.cons (.plain name) value .nil).silent then follow false rest else .relocks :=
    follow_dumpWithName _
  rwa [Pairs.silent, Pairs.silent, Bool.and_true, Value.silent, Bool.true_and] at hpair

theorem follow_namedValues : ∀ (args : NamedValues) (rest : Trace),
    follow false (args.render.flatMap (fun arg => dumpWithName [(⟨[], arg.1⟩, arg.2)]) ++ rest) =
      if args.silent then follow false rest else .relocks
  | .nil, rest => rfl
  | .cons name value tail, rest => by
      rw [NamedValues.render, List.flatMap_cons, List.append_assoc, follow_dumped,
        follow_namedValues tail, NamedValues.silent]
      cases value.silent <;> rfl

theorem follow_DUMP (name : Str) (value : Value) (args : NamedValues) :
    follow false (DUMP ((name, value.render) :: args.render) ++ rest) =
      if value.silent && args.silent then follow false rest else .relocks := by
  rw [DUMP, List.flatMap_cons, List.append_assoc, List.append_assoc, follow_dumped,
    follow_namedValues, follow_write]
  cases value.silent <;> rfl

/-! Without the lock, a call is as good as the calls of its arguments. -/

variable {args : Values}

theorem follow_args (hargs : ∀ rest, follow false (traces args.render ++ rest) =
    if args.dumpsSilent then follow false rest else .relocks) (stream : Stream)
    (words : List Str) (rest : Trace) :
    follow false (traces args.render ++ guarded (write stream words) ++ rest) =
      if args.dumpsSilent then follow false rest else .relocks := by
  rw [List.append_assoc, hargs, follow_guarded, follow_write, follow_unlock]

theorem follow_printWith (hargs : ∀ rest, follow false (traces args.render ++ rest) =
    if args.dumpsSilent then follow false rest else .relocks) (ending : List Str) (fmt : Str)
    (rest : Trace) : follow false (printWith ending fmt args.render ++ rest) =
      if args.dumpsSilent then follow false rest else .relocks := by
  cases args with
  | nil =>
      change follow false (guarded (write .cout (fmt :: ending)) ++ rest) = follow false rest
      rw [follow_guarded, follow_write, follow_unlock]
  | cons head tail => exact follow_args hargs .cout _ rest

mutual

theorem follow_call : ∀ (c : Call) (rest : Trace),
    follow false (c.trace ++ rest) = if c.dumpsSilent then follow false rest else .relocks
  | .print fmt args, rest => follow_printWith (follow_values args) [] fmt rest
  | .println fmt args, rest => follow_printWith (follow_values args) [['\n']] fmt rest
  | .SK_LOG _ _ args, rest => follow_args (follow_values args) .cout _ rest
  | .SK_WARN _ _ args, rest => follow_args (follow_values args) .cerr _ rest
  | .SK_ERROR _ _ args, rest => follow_args (follow_values args) .cerr _ rest
  | .TODO position msg, _ => follow_TODO position msg
  | .dumpWithName pairs, _ => follow_dumpWithName pairs
  | .DUMP name value args, _ => follow_DUMP name value args

theorem follow_calls : ∀ (cs : Calls) (rest : Trace),
    follow false (cs.trace ++ rest) = if cs.dumpsSilent then follow false rest else .relocks
  | .nil, rest => rfl
  | .cons head tail, rest => by
      rw [Calls.trace, List.append_assoc, follow_call head, follow_calls tail,
        Calls.dumpsSilent]
      cases head.dumpsSilent <;> rfl

theorem follow_value : ∀ (v : Value) (rest : Trace),
    follow false (v.render.trace ++ rest) =
      if v.dumpsSilent then follow false rest else .relocks
  | .plain _, _ => rfl
  | .object calls _, rest => follow_calls calls rest
  | .composite elems _, rest => follow_values elems rest

theorem follow_values : ∀ (vs : Values) (rest : Trace),
    follow false (traces vs.render ++ rest) =
      if vs.dumpsSilent then follow false rest else .relocks
  | .nil, rest => rfl
  | .cons head tail, rest => by
      rw [Values.render, traces_cons, List.append_assoc, follow_value head,
        follow_values tail, Values.dumpsSilent]
      cases head.dumpsSilent <;> rfl

end

end Free

section Reentry

theorem follow_program (calls : Calls) :
    follow false calls.trace = if calls.dumpsSilent then .released else .relocks := by
  have htrace := follow_calls calls []
  rwa [List.append_nil] at htrace

/-- No thread takes the lock of the log twice exactly when what the threads dump is silent. -/
theorem never_relocks_iff (programs : List Calls) :
    (∀ s, Reachable (logging programs) s → ¬Relocks s) ↔
      ∀ calls ∈ programs, calls.dumpsSilent := by
  constructor
  · intro hnever calls hcalls
    cases hsilent : calls.dumpsSilent with
    | true => rfl
    | false =>
        have hrelocks : follow false calls.trace = .relocks := by
          rw [follow_program, hsilent]
          rfl
        obtain ⟨s, hs, hagain⟩ :=
          exists_relocks_of_mem (List.mem_map_of_mem hcalls) hrelocks
        exact absurd hagain (hnever s hs)
  · intro hsilent s hs
    refine not_relocks_of_released ?_ hs
    intro trace htrace
    obtain ⟨calls, hcalls, rfl⟩ := List.mem_map.mp htrace
    rw [follow_program, hsilent calls hcalls]
    rfl

/-- `DUMP(x)` where `x.toString()` logs. -/
def dumpOfLogging : Calls :=
  .cons (.DUMP ['x'] (.object (.cons (.SK_LOG [] ['!'] .nil) .nil) ['x']) .nil) .nil

theorem relocks_dumpOfLogging :
    ¬∀ programs s, Reachable (logging programs) s → ¬Relocks s := by
  intro hnever
  obtain ⟨s, hs, hagain⟩ : ∃ s, Reachable (logging [dumpOfLogging]) s ∧ Relocks s :=
    exists_relocks_of_mem (List.mem_singleton.mpr rfl) (by decide : follow false
      dumpOfLogging.trace = .relocks)
  exact hnever _ s hs hagain

end Reentry

end SkUtils.Strings.LogLock
