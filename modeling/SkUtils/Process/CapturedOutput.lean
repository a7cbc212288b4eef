import Mathlib.Data.List.TakeWhile
import SkUtils.Process.ProcessExecutor

/-!
What is captured of the bytes that the child writes. Each chunk that is read is appended
as a C string.
-/

namespace SkUtils.Process.ProcessExecutor

open SkUtils.Library.TransitionSystem

theorem cString_length_le (bytes : List UInt8) : (cString bytes).length ≤ bytes.length :=
  (List.takeWhile_sublist _).length_le

theorem cString_eq_iff {bytes : List UInt8} : cString bytes = bytes ↔ 0 ∉ bytes := by
  constructor
  · intro h hzero
    have := List.takeWhile_eq_self_iff.mp h 0 hzero
    simp at this
  · intro h
    refine List.takeWhile_eq_self_iff.mpr fun byte hbyte => ?_
    simpa using fun hzero : byte = 0 => h (hzero ▸ hbyte)

theorem captured_length_le (chunks : List (List UInt8)) :
    (chunks.map cString).flatten.length ≤ chunks.flatten.length := by
  induction chunks with
  | nil => exact Nat.le_refl _
  | cons chunk chunks ih =>
      have := cString_length_le chunk
      simp only [List.map_cons, List.flatten_cons, List.length_append]
      omega

/-- A chunk that is cut short is not made up for by the chunks after it. -/
theorem captured_eq_iff {chunks : List (List UInt8)} :
    (chunks.map cString).flatten = chunks.flatten ↔ 0 ∉ chunks.flatten := by
  induction chunks with
  | nil => simp
  | cons chunk chunks ih =>
      simp only [List.map_cons, List.flatten_cons, List.mem_append, not_or]
      rw [← ih, ← cString_eq_iff]
      constructor
      · intro h
        have hfirst := cString_length_le chunk
        have hrest := captured_length_le chunks
        have hlength := congrArg List.length h
        simp only [List.length_append] at hlength
        exact List.append_inj h (by omega)
      · rintro ⟨hfirst, hrest⟩
        rw [hfirst, hrest]

def Action.written (fd : Stream) : Action → List UInt8
  | .write fd' bytes => if fd' = fd then bytes else []
  | _ => []

/-- What the child has written to `fd` in a run. -/
def written (fd : Stream) (as : List Action) : List UInt8 :=
  as.flatMap (Action.written fd)

theorem text_append (result : ExecuteResult) (fd fd' : Stream) (bytes : List UInt8) :
    (result.append fd bytes).text fd' = result.text fd' ++ if fd = fd' then bytes else [] := by
  cases fd <;> cases fd' <;> simp [ExecuteResult.append, ExecuteResult.text]

/-- A step with which `fd` is written, read or left alone. -/
def Moves (s : State) (a : Action) (t : State) (fd : Stream) : Prop :=
  (t.pipe fd).buffer = (s.pipe fd).buffer ++ a.written fd ∧
      t.result.text fd = s.result.text fd ∨
    a.written fd = [] ∧ ∃ bytesRead,
      (t.pipe fd).buffer = (s.pipe fd).buffer.drop bytesRead ∧
        t.result.text fd = s.result.text fd ++ cString ((s.pipe fd).buffer.take bytesRead)

theorem Moves.unchanged {s t : State} {a : Action} {fd : Stream} (ha : a.written fd = [])
    (hpipe : t.pipe = s.pipe) (hresult : t.result.text fd = s.result.text fd) :
    Moves s a t fd :=
  .inl ⟨by rw [hpipe, ha, List.append_nil], hresult⟩

theorem Step.moves {timeoutMs : Int} {s t : State} {a : Action} (h : Step timeoutMs s a t)
    (htimed : t.timedOut = none) (fd : Stream) : s.timedOut = none ∧ Moves s a t fd := by
  cases h with
  | @write fd' bytes _ =>
      refine ⟨htimed, .inl ⟨?_, rfl⟩⟩
      by_cases hfd : fd' = fd
      · subst hfd
        simp [Action.written]
      · simp [Action.written, hfd, Function.update_of_ne (Ne.symm hfd)]
  | @close fd' =>
      refine ⟨htimed, .inl ⟨?_, rfl⟩⟩
      by_cases hfd : fd = fd'
      · subst hfd
        simp [Action.written]
      · simp [Action.written, Function.update_of_ne hfd]
  | timeOut => cases htimed
  | @read fd' revents result _ _ _ =>
      cases result with
      | data bytesRead =>
          by_cases hfd : fd' = fd
          · subst hfd
            refine ⟨htimed, .inr ⟨rfl, bytesRead, ?_, ?_⟩⟩
            · simp [ProcessExecutor.read]
            · simp [ProcessExecutor.read, text_append]
          · refine ⟨htimed, .inl ⟨?_, ?_⟩⟩
            · simp [ProcessExecutor.read, Action.written, Function.update_of_ne (Ne.symm hfd)]
            · simp [ProcessExecutor.read, text_append, hfd]
      | endOfFile | again | failed => exact ⟨htimed, .unchanged rfl rfl rfl⟩
  | waitpid => exact ⟨htimed, .unchanged rfl rfl (by cases fd <;> rfl)⟩
  | _ => exact ⟨htimed, .unchanged rfl rfl rfl⟩

/-- The bytes written are those read, chunk by chunk, and those still in the pipe. -/
def Drained (as : List Action) (s : State) (fd : Stream) : Prop :=
  ∃ chunks : List (List UInt8),
    written fd as = chunks.flatten ++ (s.pipe fd).buffer ∧
      s.result.text fd = (chunks.map cString).flatten

theorem Drained.step {as : List Action} {s t : State} {a : Action} {fd : Stream}
    (hs : Drained as s fd) (h : Moves s a t fd) : Drained (as ++ [a]) t fd := by
  obtain ⟨chunks, hwritten, htext⟩ := hs
  have hextend : written fd (as ++ [a]) = written fd as ++ a.written fd := by
    simp [written]
  rcases h with ⟨hbuffer, hsame⟩ | ⟨hnone, bytesRead, hbuffer, hread⟩
  · exact ⟨chunks, by rw [hextend, hwritten, hbuffer, List.append_assoc], hsame.trans htext⟩
  · refine ⟨chunks ++ [(s.pipe fd).buffer.take bytesRead], ?_, ?_⟩
    · rw [hextend, hnone, List.append_nil, hwritten, hbuffer]
      simp
    · rw [hread, htext]
      simp

theorem drained_of_run {start : Nat} {timeoutMs : Int} {as : List Action} {s : State}
    (run : Run (executeCommandPosix start timeoutMs) Unrestricted as s)
    (inTime : s.timedOut = none) (fd : Stream) : Drained as s fd := by
  induction run with
  | start => exact ⟨[], rfl, by cases fd <;> rfl⟩
  | extend _ _ hstep ih =>
      obtain ⟨hbefore, hmoves⟩ := (step_cases hstep).moves inTime fd
      exact (ih hbefore).step hmoves

/-- Both pipes are at their end and the parent has seen it. -/
def State.ReachedEnd (s : State) : Prop :=
  s.timedOut = none ∧ ∀ fd, s.closed fd = true ∧ s.pipe fd = { buffer := [], writers := false }

theorem text_eq_written_iff {start : Nat} {timeoutMs : Int} {as : List Action} {s : State}
    (run : Run (executeCommandPosix start timeoutMs) Unrestricted as s)
    (atEnd : s.ReachedEnd) (fd : Stream) :
    s.result.text fd = written fd as ↔ 0 ∉ written fd as := by
  obtain ⟨chunks, hwritten, htext⟩ := drained_of_run run atEnd.1 fd
  rw [(atEnd.2 fd).2, List.append_nil] at hwritten
  rw [htext, hwritten]
  exact captured_eq_iff

/-- The loop around `ReadFile` in `ExecuteCommandWindows`, over what its calls give, with
`none` for a call that fails. The result is `none` if no call has ended the loop. -/
def readFileLoop : List (Option (List UInt8)) → List UInt8 → Option (List UInt8)
  | [], _ => none
  | none :: _, captured => some captured
  | some [] :: _, captured => some captured
  | some (byte :: bytes) :: reads, captured =>
      readFileLoop reads (captured ++ cString (byte :: bytes))

theorem readFileLoop_chunks {chunks : List (List UInt8)} (nonempty : [] ∉ chunks)
    (captured : List UInt8) :
    readFileLoop (chunks.map some ++ [none]) captured =
      some (captured ++ (chunks.map cString).flatten) := by
  induction chunks generalizing captured with
  | nil => simp [readFileLoop]
  | cons chunk chunks ih =>
      cases chunk with
      | nil => exact absurd List.mem_cons_self nonempty
      | cons byte bytes =>
          have hrest : [] ∉ chunks := fun h => nonempty (List.mem_cons_of_mem _ h)
          simp only [List.map_cons, List.cons_append, readFileLoop, ih hrest]
          simp

theorem readFileLoop_eq_iff {chunks : List (List UInt8)} (nonempty : [] ∉ chunks) :
    readFileLoop (chunks.map some ++ [none]) [] = some chunks.flatten ↔ 0 ∉ chunks.flatten := by
  rw [readFileLoop_chunks nonempty, List.nil_append, Option.some.injEq]
  exact captured_eq_iff

theorem captured_exactly_iff (start : Nat) (timeoutMs : Int) (as : List Action) (s : State)
    (run : Run (executeCommandPosix start timeoutMs) Unrestricted as s)
    (atEnd : s.ReachedEnd) (out err : List (List UInt8)) (nonempty : [] ∉ out ++ err) :
    (s.result.output = written .stdout as ∧ s.result.error = written .stderr as ↔
        0 ∉ written .stdout as ∧ 0 ∉ written .stderr as) ∧
      (readFileLoop (out.map some ++ [none]) [] = some out.flatten ∧
          readFileLoop (err.map some ++ [none]) [] = some err.flatten ↔
        0 ∉ out.flatten ∧ 0 ∉ err.flatten) := by
  rw [List.mem_append, not_or] at nonempty
  constructor
  · have hout := text_eq_written_iff run atEnd .stdout
    have herr := text_eq_written_iff run atEnd .stderr
    exact and_congr hout herr
  · exact and_congr (readFileLoop_eq_iff nonempty.1) (readFileLoop_eq_iff nonempty.2)

/-- The child writes `bytes` to `stdout` and the parent reads them in one call. -/
def readOnce (bytes : List UInt8) : List Action :=
  let hup : Revents := { pollin := false, pollhup := true, pollerr := false }
  let both : Revents := { pollin := true, pollhup := true, pollerr := false }
  [.write .stdout bytes, .close .stdout, .close .stderr, .test,
    .poll (.ready fun fd => if fd = .stdout then both else hup), .read (.data bytes.length), .skip,
    .hangUp, .test, .poll (.ready fun _ => hup), .skip, .skip, .hangUp, .test, .leave]

theorem exec_readOnce :
    ∃ s, exec (executeCommandPosix 0 (-1)) (executeCommandPosix 0 (-1)).init
        (readOnce [65, 0, 66]) = some s ∧
      s.ReachedEnd ∧ s.result.output = [65] := by
  refine ⟨_, rfl, ⟨rfl, forall_stream.mpr ?_⟩, rfl⟩
  exact ⟨⟨rfl, rfl⟩, ⟨rfl, rfl⟩⟩

theorem captured_exactly_iff_of_readOnce :
    ∃ s, Run (executeCommandPosix 0 (-1)) Unrestricted (readOnce [65, 0, 66]) s ∧
      s.ReachedEnd ∧
      ((s.result.output = written .stdout (readOnce [65, 0, 66]) ∧
          s.result.error = written .stderr (readOnce [65, 0, 66]) ↔
        0 ∉ written .stdout (readOnce [65, 0, 66]) ∧
          0 ∉ written .stderr (readOnce [65, 0, 66])) ∧
        (readFileLoop ([[65], [0, 66]].map some ++ [none]) [] = some [[65], [0, 66]].flatten ∧
            readFileLoop ([].map some ++ [none]) [] = some [].flatten ↔
          0 ∉ ([[65], [0, 66]] : List (List UInt8)).flatten ∧
            0 ∉ ([] : List (List UInt8)).flatten)) := by
  obtain ⟨s, hexec, hend, -⟩ := exec_readOnce
  have hrun := run_of_exec hexec
  exact ⟨s, hrun, hend, captured_exactly_iff 0 (-1) _ s hrun hend [[65], [0, 66]] [] (by decide)⟩

/-- Of the bytes 65, 0, 66 the last two are lost. -/
theorem output_truncated :
    ¬ ∀ (start : Nat) (timeoutMs : Int) (as : List Action) (s : State),
      Run (executeCommandPosix start timeoutMs) Unrestricted as s → s.ReachedEnd →
        s.result.output = written .stdout as ∧ s.result.error = written .stderr as := by
  intro h
  obtain ⟨s, hexec, hend, houtput⟩ := exec_readOnce
  have hexact := (h 0 (-1) _ s (run_of_exec hexec) hend).1
  rw [houtput] at hexact
  exact absurd hexact (by decide)

end SkUtils.Process.ProcessExecutor
