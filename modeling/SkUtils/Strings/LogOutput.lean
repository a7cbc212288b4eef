import SkUtils.Library.LockedOutput
import SkUtils.Strings.LogLock

/-!
What the calls of `printer.h` and `logger.h` put out when threads make them at the same
time. A call has a message of its own, after the messages of what its arguments call; `DUMP`
has one for each argument, and ends its line without the lock.
-/

namespace SkUtils.Strings.LogOutput

open SkUtils.Library.TransitionSystem
open SkUtils.Library.LockTraces
open SkUtils.Library.LockedOutput
open SkUtils.Strings.StringUtils
open SkUtils.Strings.Formatter
open SkUtils.Strings.LogLock

section Messages

abbrev Message :=
  List (Stream × Str)

def line (stream : Stream) (words : List Str) : Message :=
  words.map fun word => (stream, word)

def printed (ending : List Str) (fmt : Str) (args : List Rendered) : Message :=
  if args.isEmpty then line .cout (fmt :: ending)
  else line .cout (colorful_format fmt (args.map Rendered.word) :: ending)

def logged (stream : Stream) (color tag position fmt : Str) (args : List Rendered) : Message :=
  line stream [color, tag, position, [' '], ansiClear,
    colorful_format fmt (args.map Rendered.word), ['\n']]

def todo (position : Str) (msg : Rendered) : Message :=
  line .cerr [ansiYellowBg, "[TODO]".toList, ansiBlueBg, position, [':'], ansiPurpleBg,
    msg.word, ansiClear, ['\n']]

def dumped (pairs : List (Rendered × Rendered)) : Message :=
  line .cout (pairs.flatMap fun pair =>
    [ansiPurpleBg, ['['], pair.1.word, [']', ':'], ansiClear, pair.2.word, dumpSep])

mutual

/-- The messages of a call in their order, those of the calls in its arguments first. -/
def callMessages : Call → List Message
  | .print fmt args => valuesMessages args ++ [printed [] fmt args.render]
  | .println fmt args => valuesMessages args ++ [printed [['\n']] fmt args.render]
  | .SK_LOG position fmt args =>
      valuesMessages args ++ [logged .cout ansiBlueBg "[DEBUG]".toList position fmt args.render]
  | .SK_WARN position fmt args =>
      valuesMessages args ++
        [logged .cerr ansiYellowBg "[ WARN]".toList position fmt args.render]
  | .SK_ERROR position fmt args =>
      valuesMessages args ++ [logged .cerr ansiRedBg "[ERROR]".toList position fmt args.render]
  | .TODO position msg => [todo position msg.render]
  | .dumpWithName pairs => [dumped pairs.render]
  | .DUMP name value rest =>
      ((name, value.render) :: rest.render).map fun arg => dumped [(⟨[], arg.1⟩, arg.2)]

def messages : Calls → List Message
  | .nil => []
  | .cons head tail => callMessages head ++ messages tail

def valueMessages : Value → List Message
  | .plain _ => []
  | .object calls _ => messages calls
  | .composite elems _ => valuesMessages elems

def valuesMessages : Values → List Message
  | .nil => []
  | .cons head tail => valueMessages head ++ valuesMessages tail

end

mutual

/-- The calls of `DUMP` in a call, itself and those in its arguments. -/
def callDumps : Call → Nat
  | .print _ args => valuesDumps args
  | .println _ args => valuesDumps args
  | .SK_LOG _ _ args => valuesDumps args
  | .SK_WARN _ _ args => valuesDumps args
  | .SK_ERROR _ _ args => valuesDumps args
  | .TODO _ _ => 0
  | .dumpWithName _ => 0
  | .DUMP _ _ _ => 1

def dumps : Calls → Nat
  | .nil => 0
  | .cons head tail => callDumps head + dumps tail

def valueDumps : Value → Nat
  | .plain _ => 0
  | .object calls _ => dumps calls
  | .composite elems _ => valuesDumps elems

def valuesDumps : Values → Nat
  | .nil => 0
  | .cons head tail => valueDumps head + valuesDumps tail

end

/-- What `DUMP` writes without the lock. -/
def lineEnds (n : Nat) : Message :=
  List.replicate n (.cout, ['\n'])

end Messages

section Traces

/-! What a trace puts out, told by the messages of its sections and its loose words. -/

/-- `trace` starts and ends without the lock. -/
structure PutsOut (trace : Trace) (messages : List Message) (words : Message) : Prop where
  sections : ∀ rest, sections none (trace ++ rest) = messages ++ sections none rest
  loose : ∀ rest, loose false (trace ++ rest) = words ++ loose false rest

variable {stream : Stream} {part : Message} {rest trace trace' : Trace}
  {messages messages' : List Message} {words words' : Message}

theorem sections_write (words : List Str) : sections (some part) (write stream words ++ rest) =
    sections (some (part ++ line stream words)) rest := by
  induction words generalizing part with
  | nil => simp [write, line]
  | cons word words ih =>
      have htail := @ih (part ++ [(stream, word)])
      simpa [write, line, Library.LockedOutput.sections] using htail

theorem loose_true_write (words : List Str) :
    loose true (write stream words ++ rest) = loose true rest := by
  induction words with
  | nil => rfl
  | cons word words ih => exact ih

theorem putsOut_nil : PutsOut [] [] [] :=
  ⟨fun _ => rfl, fun _ => rfl⟩

theorem PutsOut.append (h : PutsOut trace messages words) (h' : PutsOut trace' messages' words') :
    PutsOut (trace ++ trace') (messages ++ messages') (words ++ words') := by
  constructor
  case sections =>
    intro rest
    rw [List.append_assoc, h.sections, h'.sections, List.append_assoc]
  case loose =>
    intro rest
    rw [List.append_assoc, h.loose, h'.loose, List.append_assoc]

theorem putsOut_guarded (stream : Stream) (words : List Str) :
    PutsOut (guarded (write stream words)) [line stream words] [] := by
  constructor
  case sections =>
    intro rest
    simp [guarded, Library.LockedOutput.sections, sections_write]
  case loose =>
    intro rest
    simp [guarded, Library.LockedOutput.loose, loose_true_write]

theorem putsOut_newline : PutsOut (write .cout [['\n']]) [] (lineEnds 1) :=
  ⟨fun _ => rfl, fun _ => rfl⟩

end Traces

section Calls

/-! What does not call anything puts out nothing when it is rendered. -/

mutual

theorem trace_of_silent : ∀ v : Value, v.silent = true → v.render.trace = []
  | .plain _, _ => rfl
  | .object .nil _, _ => rfl
  | .composite elems _, h => traces_of_silent elems h

theorem traces_of_silent : ∀ vs : Values, vs.silent = true → traces vs.render = []
  | .nil, _ => rfl
  | .cons head tail, h => by
      obtain ⟨hhead, htail⟩ := Bool.and_eq_true_iff.mp h
      rw [Values.render, traces_cons, trace_of_silent head hhead, traces_of_silent tail htail]
      rfl

end

theorem dumpPairs_of_silent : ∀ pairs : Pairs, pairs.silent = true →
    pairs.render.flatMap dumpPair = write .cout (pairs.render.flatMap fun pair =>
      [ansiPurpleBg, ['['], pair.1.word, [']', ':'], ansiClear, pair.2.word, dumpSep])
  | .nil, _ => rfl
  | .cons first second tail, h => by
      obtain ⟨hpair, htail⟩ := Bool.and_eq_true_iff.mp h
      obtain ⟨hfirst, hsecond⟩ := Bool.and_eq_true_iff.mp hpair
      rw [Pairs.render, List.flatMap_cons, dumpPairs_of_silent tail htail, dumpPair,
        trace_of_silent first hfirst, trace_of_silent second hsecond]
      simp [write]

theorem putsOut_dumpWithName (pairs : Pairs) (h : pairs.silent = true) :
    PutsOut (dumpWithName pairs.render) [dumped pairs.render] [] := by
  rw [dumpWithName, dumpPairs_of_silent pairs h]
  exact putsOut_guarded .cout _

theorem putsOut_TODO (position : Str) (msg : Value) (h : msg.silent = true) :
    PutsOut (TODO position msg.render) [todo position msg.render] [] := by
  rw [TODO, trace_of_silent msg h]
  exact putsOut_guarded .cerr [ansiYellowBg, "[TODO]".toList, ansiBlueBg, position, [':'],
    ansiPurpleBg, msg.render.word, ansiClear, ['\n']]

theorem putsOut_dumped (name : Str) (value : Value) (h : value.silent = true) :
    PutsOut (dumpWithName [(⟨[], name⟩, value.render)]) [dumped [(⟨[], name⟩, value.render)]]
      [] := by
  have hsilent : (Pairs.cons (.plain name) value .nil).silent = true := by
    simp [Pairs.silent, Value.silent, h]
  exact putsOut_dumpWithName _ hsilent

theorem putsOut_namedValues : ∀ args : NamedValues, args.silent = true →
    PutsOut (args.render.flatMap fun arg => dumpWithName [(⟨[], arg.1⟩, arg.2)])
      (args.render.map fun arg => dumped [(⟨[], arg.1⟩, arg.2)]) []
  | .nil, _ => putsOut_nil
  | .cons name value tail, h => by
      obtain ⟨hvalue, htail⟩ := Bool.and_eq_true_iff.mp h
      rw [NamedValues.render, List.flatMap_cons, List.map_cons]
      exact (putsOut_dumped name value hvalue).append (putsOut_namedValues tail htail)

theorem putsOut_DUMP (name : Str) (value : Value) (rest : NamedValues)
    (h : (value.silent && rest.silent) = true) :
    PutsOut (DUMP ((name, value.render) :: rest.render))
      (((name, value.render) :: rest.render).map fun arg => dumped [(⟨[], arg.1⟩, arg.2)])
      (lineEnds 1) := by
  have hargs := putsOut_namedValues (.cons name value rest) h
  have hend := hargs.append putsOut_newline
  rwa [List.append_nil, List.nil_append] at hend

variable {args : Values} {n : Nat}

theorem putsOut_args (h : PutsOut (traces args.render) (valuesMessages args) (lineEnds n))
    (stream : Stream) (words : List Str) :
    PutsOut (traces args.render ++ guarded (write stream words))
      (valuesMessages args ++ [line stream words]) (lineEnds n) := by
  have hcall := h.append (putsOut_guarded stream words)
  rwa [List.append_nil] at hcall

theorem putsOut_printWith (h : PutsOut (traces args.render) (valuesMessages args) (lineEnds n))
    (ending : List Str) (fmt : Str) : PutsOut (printWith ending fmt args.render)
      (valuesMessages args ++ [printed ending fmt args.render]) (lineEnds n) := by
  cases args with
  | nil => exact putsOut_args h .cout (fmt :: ending)
  | cons head tail => exact putsOut_args h .cout _

theorem lineEnds_add (m n : Nat) : lineEnds (m + n) = lineEnds m ++ lineEnds n :=
  List.replicate_add ..

mutual

theorem putsOut_call : ∀ c : Call, c.dumpsSilent = true →
    PutsOut c.trace (callMessages c) (lineEnds (callDumps c))
  | .print fmt args, h => putsOut_printWith (putsOut_values args h) [] fmt
  | .println fmt args, h => putsOut_printWith (putsOut_values args h) [['\n']] fmt
  | .SK_LOG _ _ args, h => putsOut_args (putsOut_values args h) .cout _
  | .SK_WARN _ _ args, h => putsOut_args (putsOut_values args h) .cerr _
  | .SK_ERROR _ _ args, h => putsOut_args (putsOut_values args h) .cerr _
  | .TODO position msg, h => putsOut_TODO position msg h
  | .dumpWithName pairs, h => putsOut_dumpWithName pairs h
  | .DUMP name value rest, h => putsOut_DUMP name value rest h

theorem putsOut_calls : ∀ cs : Calls, cs.dumpsSilent = true →
    PutsOut cs.trace (messages cs) (lineEnds (dumps cs))
  | .nil, _ => putsOut_nil
  | .cons head tail, h => by
      obtain ⟨hhead, htail⟩ := Bool.and_eq_true_iff.mp h
      rw [dumps, lineEnds_add]
      exact (putsOut_call head hhead).append (putsOut_calls tail htail)

theorem putsOut_value : ∀ v : Value, v.dumpsSilent = true →
    PutsOut v.render.trace (valueMessages v) (lineEnds (valueDumps v))
  | .plain _, _ => putsOut_nil
  | .object calls _, h => putsOut_calls calls h
  | .composite elems _, h => putsOut_values elems h

theorem putsOut_values : ∀ vs : Values, vs.dumpsSilent = true →
    PutsOut (traces vs.render) (valuesMessages vs) (lineEnds (valuesDumps vs))
  | .nil, _ => putsOut_nil
  | .cons head tail, h => by
      obtain ⟨hhead, htail⟩ := Bool.and_eq_true_iff.mp h
      rw [Values.render, traces_cons, valuesDumps, lineEnds_add]
      exact (putsOut_value head hhead).append (putsOut_values tail htail)

end

end Calls

section Output

/-- What the threads have put out in a run: their messages in one order, as far as they are
done, and the start of the one that is not. Without the lock there are only ends of lines. -/
structure Whole (programs : List Calls) (s : State (Stream × Str))
    (words : List (Word (Stream × Str))) (order : List (Nat × Message)) (part : Message) :
    Prop where
  texts : lockedTexts words = order.flatMap Prod.snd ++ part
  kept : ∀ i calls, programs[i]? = some calls → byThread i order <+: messages calls
  free : s.owner = none → part = []
  begun : ∀ i, s.owner = some i → ∃ calls next, programs[i]? = some calls ∧
    byThread i order ++ [next] <+: messages calls ∧ part <+: next
  ends : ∀ i calls, programs[i]? = some calls → looseTexts i words <+: lineEnds (dumps calls)
  finished : Finished s → part = [] ∧ ∀ i calls, programs[i]? = some calls →
    byThread i order = messages calls ∧ looseTexts i words = lineEnds (dumps calls)

variable {programs : List Calls} {s : State (Stream × Str)} {as : List Nat}

theorem released_of_dumpsSilent (h : ∀ calls ∈ programs, calls.dumpsSilent) :
    ∀ trace ∈ programs.map Calls.trace, follow false trace = .released := by
  intro trace htrace
  obtain ⟨calls, hcalls, rfl⟩ := List.mem_map.mp htrace
  rw [follow_program, h calls hcalls]
  rfl

theorem putsOut_program {calls : Calls} (h : calls.dumpsSilent) :
    sections none calls.trace = messages calls ∧
      loose false calls.trace = lineEnds (dumps calls) := by
  have hcalls := putsOut_calls calls h
  have hsections := hcalls.sections []
  have hloose := hcalls.loose []
  rw [List.append_nil] at hsections hloose
  exact ⟨hsections.trans (List.append_nil _), hloose.trans (List.append_nil _)⟩

/-- When no value that is dumped makes a call, no message is torn by another thread. -/
theorem messages_whole (hsilent : ∀ calls ∈ programs, calls.dumpsSilent)
    (run : Run (logging programs) Unrestricted as s) :
    (∃ order part, Whole programs s
      (outputs (logging programs) written (logging programs).init as) order part) ∧
    ∃ bs t, exec (logging programs) s bs = some t ∧ Finished t := by
  have hreleased := released_of_dumpsSilent hsilent
  have hdisciplined := disciplined_of_reachable hreleased run.reachable
  refine ⟨?_, exists_exec_finished hreleased run⟩
  obtain ⟨order, part, hserial⟩ := exists_serial hreleased run
  have htrace : ∀ (i : Nat) (calls : Calls), programs[i]? = some calls →
      (programs.map Calls.trace)[i]? = some calls.trace := by
    intro i calls hcalls
    rw [List.getElem?_map, hcalls]
    rfl
  have hputs : ∀ (i : Nat) (calls : Calls), programs[i]? = some calls →
      sections none calls.trace = messages calls ∧
        loose false calls.trace = lineEnds (dumps calls) :=
    fun i calls hcalls => putsOut_program (hsilent calls (List.mem_of_getElem? hcalls))
  refine ⟨order, part, ?_⟩
  constructor
  case texts => exact hserial.texts
  case kept =>
    intro i calls hcalls
    rw [← (hputs i calls hcalls).1]
    exact hserial.done_isPrefix (htrace i calls hcalls)
  case free => exact hserial.free
  case begun =>
    intro i howner
    obtain ⟨trace, next, hi, hnext, hpart⟩ := hserial.part_isPrefix hdisciplined howner
    rw [List.getElem?_map] at hi
    obtain ⟨calls, hcalls, rfl⟩ := Option.map_eq_some_iff.mp hi
    rw [(hputs i calls hcalls).1] at hnext
    exact ⟨calls, next, hcalls, hnext, hpart⟩
  case ends =>
    intro i calls hcalls
    rw [← (hputs i calls hcalls).2]
    exact hserial.outside_isPrefix (htrace i calls hcalls)
  case finished =>
    intro hend
    obtain ⟨hpart, hall⟩ := hserial.finished hdisciplined hend
    refine ⟨hpart, fun i calls hcalls => ?_⟩
    obtain ⟨hsections, hloose⟩ := hall i _ (htrace i calls hcalls)
    rw [(hputs i calls hcalls).1] at hsections
    rw [(hputs i calls hcalls).2] at hloose
    exact ⟨hsections.symm, hloose.symm⟩

/-- A thread that prints a line and one that dumps a name. -/
def printAndDump : List Calls :=
  [.cons (.println ['a'] .nil) .nil, .cons (.DUMP ['x'] (.plain ['1']) .nil) .nil]

theorem messages_whole_printAndDump : ∃ s,
    exec (logging printAndDump) (logging printAndDump).init [0, 0, 0, 0, 1, 1, 1] = some s ∧
    (∃ order part, Whole printAndDump s (outputs (logging printAndDump) written
      (logging printAndDump).init [0, 0, 0, 0, 1, 1, 1]) order part) ∧
    ∃ bs t, exec (logging printAndDump) s bs = some t ∧ Finished t :=
  ⟨_, rfl, messages_whole (by decide) (run_of_exec rfl)⟩

end Output

end SkUtils.Strings.LogOutput
