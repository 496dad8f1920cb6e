import Insomnilog.Lib.CriticalSection
import Insomnilog.Sink.WholeLines

/-! Threads that call one stream sink at the same time. The writer takes the bytes of a line one by
one, and meanwhile other threads call. -/
namespace Insomnilog.Sink
open Frontend
open Insomnilog.Formatter (LogRecord)

variable {E : Type} {ι : Type*} [DecidableEq ι] {formatter : Formatter} {sink : StreamSink}
  {todo : ι → List (Call E)}

/-- What a critical section of the sink returns to the rest of its method. -/
abbrev Section (E : Type) := Critical StreamState E (Option (List UInt8))

def pushBytes : List UInt8 → Section E → Section E
  | [], rest => rest
  | byte :: bytes, rest =>
      .step (fun state => { state with writer := state.writer ++ [byte] }) fun _ =>
        pushBytes bytes rest

/-- `write_all`, and `?`. -/
def writing (reply : Reply E) (bytes : List UInt8) (rest : Section E) : Section E :=
  pushBytes (reply.taken bytes) <|
    match reply with
    | .ok => rest
    | .err _ e => .done (.err e)

/-- The steps of a method from its lock to the drop of the guard. -/
def Call.critical (formatter : Formatter) : Call E → Section E
  | writeRecord record text newline =>
      .step (fun state => { state with scratch := [] }) fun _ =>
        .step (fun state => { state with scratch := (formatter.format record []).buffer })
          fun state => match formatter.format record [] with
          | .panicked _ => .done .panic
          | .returned _ =>
              writing text (asBytes state.scratch) <|
                writing newline [lineEnd] (.done (.ok none))
  | flush reply =>
      .step id fun _ =>
        match reply with
        | .ok () => .done (.ok none)
        | .error e => .done (.err e)
  | capturedOutput => .step id fun state => .done (.ok (some state.writer))

/-- What the method returns. -/
def returned : Outcome E (Option (List UInt8)) → Returned E
  | .ok none => .result (.ok ())
  | .ok (some output) => .bytes output
  | .err e => .result (.err (.io e))
  | .panic => .result .panic

/-- The threads with the calls that each of them makes. -/
def concurrent (sink : StreamSink) (todo : ι → List (Call E)) :
    StepSystem (Contended ι (Call E) StreamState E (Option (List UInt8))) (LockEvent ι) :=
  Contended.system (Call.critical sink.formatter) sink.state todo

/-- The calls have been made as if one after the other, in the order in which they took the mutex:
they return the same, and what a call writes is not torn apart by others. As long as calls are
left, there is a thread that can go on. -/
structure TakesTurns (sink : StreamSink) (todo : ι → List (Call E))
    (s : Contended ι (Call E) StreamState E (Option (List UInt8))) : Prop where
  programs : ∀ i, (s.order.filter fun p => p.1 = i).map Prod.snd ++ s.todo i = todo i
  free : s.holder = none → s.mutex = (sink.after (s.order.map Prod.snd)).state ∧
    s.results.map returned = sink.returns (s.order.map Prod.snd)
  held : ∀ i c, s.holder = some (i, c) → ∃ before call part, s.order = before ++ [(i, call)] ∧
    s.results.map returned = sink.returns (before.map Prod.snd) ∧
    part <+: call.accepted sink.formatter ∧ s.mutex.data.writer =
      (sink.after (before.map Prod.snd)).capturedOutput ++ part
  progress : (∃ i, s.todo i ≠ []) ∨ s.holder.isSome →
    ∃ e s', (concurrent sink todo).step s e = some s'

theorem pushBytes_run (bytes : List UInt8) (rest : Section E) (state : StreamState) :
    (pushBytes bytes rest).run state =
      rest.run { state with writer := state.writer ++ bytes } := by
  induction bytes generalizing state with
  | nil =>
    rw [List.append_nil]
    rfl
  | cons byte bytes ih =>
    show (pushBytes bytes rest).run { state with writer := state.writer ++ [byte] } = _
    rw [ih, List.append_assoc]
    rfl

theorem pushBytes_respects (bytes : List UInt8) {rest : Section E}
    (h : rest.Respects fun a b => a.writer <+: b.writer) :
    (pushBytes bytes rest).Respects fun a b => a.writer <+: b.writer := by
  induction bytes with
  | nil => exact h
  | cons byte bytes ih => exact fun state => ⟨List.prefix_append _ _, ih⟩

theorem writing_respects (reply : Reply E) (bytes : List UInt8) {rest : Section E}
    (h : rest.Respects fun a b => a.writer <+: b.writer) :
    (writing reply bytes rest).Respects fun a b => a.writer <+: b.writer := by
  cases reply with
  | ok => exact pushBytes_respects bytes h
  | err accepted e => exact pushBytes_respects _ trivial

theorem writing_run (reply : Reply E) (bytes : List UInt8) (rest : Section E)
    (state : StreamState) : (writing reply bytes rest).run state =
      match reply with
      | .ok => rest.run { state with writer := state.writer ++ bytes }
      | .err accepted e =>
          (.err e, { state with writer := state.writer ++ bytes.take accepted }) := by
  cases reply <;> exact pushBytes_run _ _ _

theorem critical_run (record : LogRecord) (text newline : Reply E) (state : StreamState) :
    ((Call.writeRecord record text newline).critical formatter).run state =
      ((formatLine formatter record text newline state).1.map fun _ => none,
        (formatLine formatter record text newline state).2) := by
  show Critical.run _ _ = _
  unfold Call.critical
  simp only [Critical.run]
  cases hformat : formatter.format record [] with
  | panicked out =>
    rw [formatLine_panicked hformat]
    rfl
  | returned out =>
    rw [formatLine_returned hformat]
    dsimp only [Formatted.buffer]
    rw [writing_run]
    cases text with
    | err accepted e => rfl
    | ok =>
      dsimp only
      rw [writing_run]
      cases newline <;> simp [lineTaken, Reply.taken, Reply.result, Critical.run]

theorem returned_map (result : Outcome E Unit) :
    returned (result.map fun _ => none) = .result (result.mapErr .io) := by
  cases result <;> rfl

/-- The steps together are the method. -/
theorem step_eq_hold (sink : StreamSink) (call : Call E) :
    sink.step call = (returned (sink.state.hold (call.critical sink.formatter).run).1,
      { sink with state := (sink.state.hold (call.critical sink.formatter).run).2 }) := by
  cases call with
  | writeRecord record text newline =>
    unfold Mutex.hold
    rw [critical_run]
    dsimp only
    rw [returned_map, Mutex.release_map]
    rfl
  | flush reply => cases reply <;> rfl
  | capturedOutput =>
    show (Returned.bytes sink.capturedOutput, sink) =
      (.bytes sink.state.recover.writer, { sink with state := ⟨sink.state.recover, _⟩ })
    rw [Mutex.recover_eq, StreamSink.capturedOutput_eq]

theorem critical_respects (call : Call E) :
    (call.critical formatter).Respects fun a b => a.writer <+: b.writer := by
  cases call with
  | writeRecord record text newline =>
    refine fun state => ⟨List.prefix_rfl, fun state => ⟨List.prefix_rfl, ?_⟩⟩
    cases formatter.format record [] with
    | panicked out => exact trivial
    | returned out => exact writing_respects _ _ (writing_respects _ _ trivial)
  | flush reply =>
    refine fun state => ⟨List.prefix_rfl, ?_⟩
    cases reply <;> exact trivial
  | capturedOutput => exact fun state => ⟨List.prefix_rfl, trivial⟩

theorem oneByOne_eq (sink : StreamSink) (calls : List (Call E)) :
    (Contended.oneByOne (Call.critical sink.formatter) sink.state calls).1.map returned =
        sink.returns calls ∧
      (Contended.oneByOne (Call.critical sink.formatter) sink.state calls).2 =
        (sink.after calls).state := by
  induction calls generalizing sink with
  | nil => exact ⟨rfl, rfl⟩
  | cons call calls ih =>
    have hstep := step_eq_hold sink call
    have hrest := ih (sink.step call).2
    rw [StreamSink.step_formatter] at hrest
    have hstate : (sink.step call).2.state =
        (sink.state.hold (call.critical sink.formatter).run).2 := by
      rw [hstep]
    rw [hstate] at hrest
    constructor
    · show _ :: _ = (sink.step call).1 :: (sink.step call).2.returns calls
      rw [← hrest.1, hstep]
      rfl
    · exact hrest.2

theorem critical_run_writer (sink : StreamSink) (call : Call E) :
    ((call.critical sink.formatter).run sink.state.data).2.writer =
      sink.capturedOutput ++ call.accepted sink.formatter := by
  rw [← StreamSink.step_output, StreamSink.capturedOutput_eq, step_eq_hold, Mutex.hold_data]

/-- Whatever the writer and the formatters do, and however the threads are interleaved. -/
theorem calls_take_turns {s : Contended ι (Call E) StreamState E (Option (List UInt8))}
    (h : (concurrent sink todo).Reachable s) : TakesTurns sink todo s ∧
      ∀ es s', (concurrent sink todo).runFrom s es = some s' →
        s.order <+: s'.order ∧ s.results <+: s'.results := by
  refine ⟨?_, fun es s' hr => Contended.order_prefix h hr⟩
  have hserial := Contended.serial (R := fun a b : StreamState => a.writer <+: b.writer)
    (fun _ => List.prefix_rfl) (fun _ _ _ => List.IsPrefix.trans) critical_respects h
  refine ⟨hserial.programs, fun hfree => ?_, fun i c hheld => ?_, Contended.progress _⟩
  · have hone := hserial.free hfree
    obtain ⟨hreturns, hstate⟩ := oneByOne_eq sink (s.order.map Prod.snd)
    rw [← hone] at hreturns hstate
    exact ⟨hstate, hreturns⟩
  · obtain ⟨before, call, horder, hresults, -, hrun, hgrown, hrespects⟩ := hserial.held i c hheld
    obtain ⟨hreturns, hstate⟩ := oneByOne_eq sink (before.map Prod.snd)
    rw [← hresults] at hreturns
    rw [hstate] at hrun hgrown
    obtain ⟨part, hpart⟩ := hgrown
    have hrest : s.mutex.data.writer <+: (c.run s.mutex.data).2.writer :=
      hrespects.run (R := fun a b : StreamState => a.writer <+: b.writer)
        (fun _ => List.prefix_rfl) (fun _ _ _ => List.IsPrefix.trans) s.mutex.data
    have hfinal := critical_run_writer (sink.after (before.map Prod.snd)) call
    rw [StreamSink.after_formatter] at hfinal
    rw [hrun, hfinal, ← hpart, ← StreamSink.capturedOutput_eq,
      List.prefix_append_right_inj] at hrest
    refine ⟨before, call, part, horder, hreturns, hrest, ?_⟩
    rw [StreamSink.capturedOutput_eq, hpart]

/-- The second thread is in the middle of its line, in a mutex that the first has poisoned. -/
theorem calls_take_turns_poisoned :
    let record (level : LogLevel) (text : String) : LogRecord :=
      ⟨0, [], ⟨level, text.toList, [], 0, []⟩, []⟩
    let sink : StreamSink := .new panicsOnError .trace []
    let todo (i : Fin 2) : List (Call Unit) :=
      if i = 0 then [.writeRecord (record .error "a") .ok .ok, .capturedOutput]
      else [.writeRecord (record .info "bcd") (.err 2 ()) .ok]
    ∃ s, (concurrent sink todo).run
        [.lock 0, .step, .step, .unlock, .lock 1, .step, .step, .step] = some s ∧
      s.mutex.poisoned = true ∧ s.mutex.data.writer = asBytes "b".toList ∧
      TakesTurns sink todo s := by
  intro record sink todo
  have hrun : ((concurrent sink todo).run
      [.lock 0, .step, .step, .unlock, .lock 1, .step, .step, .step]).map (fun s =>
        (s.mutex.poisoned, s.mutex.data.writer)) = some (true, asBytes "b".toList) := by
    decide +kernel
  obtain ⟨s, hs, hvalues⟩ := Option.map_eq_some_iff.mp hrun
  obtain ⟨hpoisoned, hwriter⟩ := Prod.mk.inj hvalues
  exact ⟨s, hs, hpoisoned, hwriter, (calls_take_turns ⟨_, hs⟩).1⟩

end Insomnilog.Sink
