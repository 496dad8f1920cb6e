import Insomnilog.Lib.BufWriter
import Insomnilog.Sink.WholeLines

/-! The stream sink over a buffered writer: the engine of the console and file sinks. What it writes
reaches the device some time later. -/
namespace Insomnilog.Sink
open Frontend
open Insomnilog.Formatter (Text LogRecord)

structure BufferedState (ε : Type) where
  writer : BufWriter UInt8 ε
  scratch : Text

/-- The state without a buffer, in which the writer has taken what this one has accepted. -/
def BufferedState.unbuffered {ε : Type} (state : BufferedState ε) : StreamState :=
  ⟨state.writer.accepted, state.scratch⟩

variable {ε : Type} {formatter : Formatter}

/-- `format_line` on a buffered writer. -/
def bufferedLine (formatter : Formatter) (record : LogRecord) (state : BufferedState ε) :
    Outcome (WriteError ε) Unit × BufferedState ε :=
  match formatter.format record [] with
  | .panicked scratch => (.panic, ⟨state.writer, scratch⟩)
  | .returned scratch =>
    match state.writer.writeAll (asBytes scratch) with
    | (.ok (), writer) =>
        let (result, writer) := writer.writeAll [lineEnd]
        (.ofExcept result, ⟨writer, scratch⟩)
    | (.error e, writer) => (.err e, ⟨writer, scratch⟩)

def flushBuffered (state : BufferedState ε) : Outcome (WriteError ε) Unit × BufferedState ε :=
  let (result, writer) := state.writer.flush
  (.ofExcept result, ⟨writer, state.scratch⟩)

/-- The field `engine` of `ConsoleSink`, `ContinuousFileSink` and `SessionFileSink`. -/
structure BufferedSink (ε : Type) where
  formatter : Formatter
  level : LogLevel
  state : Mutex (BufferedState ε)

/-- The calls of the trait that change a sink. -/
inductive Request where
  | writeRecord (record : LogRecord)
  | flush

namespace BufferedSink

def new (formatter : Formatter) (level : LogLevel) (writer : BufWriter UInt8 ε) : BufferedSink ε :=
  ⟨formatter, level, .new ⟨writer, []⟩⟩

def step (sink : BufferedSink ε) :
    Request → Outcome (SinkError (WriteError ε)) Unit × BufferedSink ε
  | .writeRecord record =>
      let (result, state) := sink.state.hold (bufferedLine sink.formatter record)
      (result.mapErr .io, { sink with state })
  | .flush =>
      let (result, state) := sink.state.hold flushBuffered
      (result.mapErr .io, { sink with state })

def after (sink : BufferedSink ε) (requests : List Request) : BufferedSink ε :=
  requests.foldl (fun sink request => (sink.step request).2) sink

def returns (sink : BufferedSink ε) : List Request → List (Outcome (SinkError (WriteError ε)) Unit)
  | [] => []
  | request :: requests => (sink.step request).1 :: (sink.step request).2.returns requests

/-- What the device has taken. -/
def onDevice (sink : BufferedSink ε) : List UInt8 := sink.state.data.writer.device.content

def unbuffered (sink : BufferedSink ε) : StreamSink :=
  ⟨sink.formatter, sink.level, sink.state.map BufferedState.unbuffered⟩

/-- The device does not fail. -/
def Works (sink : BufferedSink ε) : Prop := sink.state.data.writer.device.Works

end BufferedSink

def Call.request {E : Type} : Call E → Option Request
  | writeRecord record _ _ => some (.writeRecord record)
  | flush _ => some .flush
  | capturedOutput => none

theorem writeAll_reply (w : BufWriter UInt8 ε) (bytes : List UInt8) :
    ∃ reply : Reply (WriteError ε), reply.result = .ofExcept (w.writeAll bytes).1 ∧
      (w.writeAll bytes).2.accepted = w.accepted ++ reply.taken bytes ∧
      (w.device.Works → reply = .ok) := by
  have h := w.writeAll_accepts bytes
  obtain ⟨part, rest, rfl, haccepted, hall⟩ := h.accepted
  cases hresult : (w.writeAll (part ++ rest)).1 with
  | ok u =>
    refine ⟨.ok, rfl, ?_, fun _ => rfl⟩
    rw [haccepted, hall hresult, List.append_nil]
    rfl
  | error e =>
    refine ⟨.err part.length e, rfl, ?_, fun hw => ?_⟩
    · rw [haccepted]
      show _ = _ ++ (part ++ rest).take part.length
      rw [List.take_left]
    · cases hresult.symm.trans (h.works hw).1

theorem bufferedLine_panicked {record : LogRecord} {scratch : Text} (state : BufferedState ε)
    (h : formatter.format record [] = .panicked scratch) :
    bufferedLine formatter record state = (.panic, ⟨state.writer, scratch⟩) := by
  unfold bufferedLine
  rw [h]

theorem bufferedLine_error {record : LogRecord} {scratch : Text} {state : BufferedState ε}
    {e : WriteError ε} {w : BufWriter UInt8 ε}
    (h : formatter.format record [] = .returned scratch)
    (hw : state.writer.writeAll (asBytes scratch) = (.error e, w)) :
    bufferedLine formatter record state = (.err e, ⟨w, scratch⟩) := by
  unfold bufferedLine
  rw [h]
  dsimp only
  rw [hw]

theorem bufferedLine_ok {record : LogRecord} {scratch : Text} {state : BufferedState ε}
    {w : BufWriter UInt8 ε} (h : formatter.format record [] = .returned scratch)
    (hw : state.writer.writeAll (asBytes scratch) = (.ok (), w)) :
    bufferedLine formatter record state =
      (.ofExcept (w.writeAll [lineEnd]).1, ⟨(w.writeAll [lineEnd]).2, scratch⟩) := by
  unfold bufferedLine
  rw [h]
  dsimp only
  rw [hw]

/-- Without the buffer the writer would have given some replies to the same calls. -/
theorem bufferedLine_refines (formatter : Formatter) (record : LogRecord)
    (state : BufferedState ε) :
    ∃ text newline, formatLine formatter record text newline state.unbuffered =
        ((bufferedLine formatter record state).1,
          (bufferedLine formatter record state).2.unbuffered) ∧
      state.writer.device.content <+:
        (bufferedLine formatter record state).2.writer.device.content ∧
      (state.writer.device.Works → text = .ok ∧ newline = .ok ∧
        (bufferedLine formatter record state).2.writer.device.Works) := by
  cases hformat : formatter.format record [] with
  | panicked scratch =>
    rw [bufferedLine_panicked state hformat]
    exact ⟨.ok, .ok, formatLine_panicked hformat _ _ _, List.prefix_rfl, fun h => ⟨rfl, rfl, h⟩⟩
  | returned scratch =>
    obtain ⟨text, htext, htaken, hworks⟩ := writeAll_reply state.writer (asBytes scratch)
    have haccepts := state.writer.writeAll_accepts (asBytes scratch)
    cases hwritten : state.writer.writeAll (asBytes scratch) with
    | mk result w =>
    rw [hwritten] at htext htaken haccepts
    cases result with
    | error e =>
      rw [bufferedLine_error hformat hwritten]
      refine ⟨text, .ok, ?_, haccepts.grown, fun hw => ?_⟩
      · cases text with
        | ok => cases htext
        | err accepted e' =>
          cases htext
          rw [formatLine_returned hformat]
          show (_, StreamState.mk (state.writer.accepted ++ _) _) = (_, StreamState.mk w.accepted _)
          rw [show w.accepted = _ from htaken]
          rfl
      · cases (haccepts.works hw).1
    | ok u =>
      obtain ⟨newline, hnewline, hend, hworks'⟩ := writeAll_reply w [lineEnd]
      have haccepts' := w.writeAll_accepts [lineEnd]
      rw [bufferedLine_ok hformat hwritten]
      refine ⟨text, newline, ?_, haccepts.grown.trans haccepts'.grown, fun hw => ?_⟩
      · cases text with
        | err accepted e => cases htext
        | ok =>
          rw [formatLine_returned hformat]
          show (newline.result, StreamState.mk (state.writer.accepted ++ _) _) =
            (_, StreamState.mk (w.writeAll [lineEnd]).2.accepted _)
          rw [hend, hnewline, show w.accepted = _ from htaken, List.append_assoc]
          rfl
      · have hw' := (haccepts.works hw).2
        exact ⟨hworks hw, hworks' hw', (haccepts'.works hw').2⟩

theorem flushBuffered_refines (state : BufferedState ε) :
    ∃ reply, flushWriter reply state.unbuffered =
        ((flushBuffered state).1, (flushBuffered state).2.unbuffered) ∧
      state.writer.device.content <+: (flushBuffered state).2.writer.device.content ∧
      (state.writer.device.Works → reply = .ok () ∧
        (flushBuffered state).2.writer.device.Works) ∧
      ((flushBuffered state).1 = .ok () → (flushBuffered state).2.writer.device.content =
        (flushBuffered state).2.writer.accepted) := by
  obtain ⟨haccepts, hflushed⟩ := state.writer.flush_accepts
  obtain ⟨part, rest, hnil, hpart, -⟩ := haccepts.accepted
  rw [(List.append_eq_nil_iff.mp hnil).1, List.append_nil] at hpart
  refine ⟨state.writer.flush.1, ?_, haccepts.grown, haccepts.works, fun hok => hflushed ?_⟩
  · have hsame : (flushBuffered state).2.unbuffered = state.unbuffered := by
      show StreamState.mk state.writer.flush.2.accepted _ = _
      rw [hpart]
      rfl
    rw [hsame]
    show _ = (Outcome.ofExcept state.writer.flush.1, _)
    unfold flushWriter
    cases state.writer.flush.1 <;> rfl
  · have hresult : Outcome.ofExcept state.writer.flush.1 = .ok () := hok
    cases h : state.writer.flush.1 with
    | ok u => rfl
    | error e =>
      rw [h] at hresult
      cases hresult

/-- A call of a buffered sink is a call of the sink without the buffer. -/
theorem step_refines (sink : BufferedSink ε) (request : Request) :
    ∃ call : Call (WriteError ε), call.request = some request ∧
      sink.unbuffered.step call =
        (.result (sink.step request).1, (sink.step request).2.unbuffered) ∧
      sink.onDevice <+: (sink.step request).2.onDevice ∧
      (sink.Works → call.Served ∧ (sink.step request).2.Works) := by
  cases request with
  | writeRecord record =>
    obtain ⟨text, newline, hline, hgrown, hworks⟩ :=
      bufferedLine_refines sink.formatter record sink.state.data
    refine ⟨.writeRecord record text newline, rfl, ?_, ?_, fun hw => ?_⟩
    · have hheld := Mutex.hold_map (m := sink.state) hline
      unfold StreamSink.step
      dsimp only
      unfold StreamSink.writeRecord
      rw [show sink.unbuffered.state.hold
        (formatLine sink.unbuffered.formatter record text newline) = _ from hheld]
      rfl
    · show _ <+: (sink.state.hold (bufferedLine sink.formatter record)).2.data.writer.device.content
      rw [Mutex.hold_data]
      exact hgrown
    · obtain ⟨htext, hnewline, hafter⟩ := hworks hw
      refine ⟨⟨htext, hnewline⟩, ?_⟩
      show (sink.state.hold (bufferedLine sink.formatter record)).2.data.writer.device.Works
      rw [Mutex.hold_data]
      exact hafter
  | flush =>
    obtain ⟨reply, hflush, hgrown, hworks, -⟩ := flushBuffered_refines sink.state.data
    refine ⟨.flush reply, rfl, ?_, ?_, fun hw => ?_⟩
    · have hheld := Mutex.hold_map (m := sink.state) hflush
      unfold StreamSink.step
      dsimp only
      unfold StreamSink.flush
      rw [show sink.unbuffered.state.hold _ = _ from hheld]
      rfl
    · show _ <+: (sink.state.hold flushBuffered).2.data.writer.device.content
      rw [Mutex.hold_data]
      exact hgrown
    · obtain ⟨hreply, hafter⟩ := hworks hw
      refine ⟨hreply, ?_⟩
      show (sink.state.hold flushBuffered).2.data.writer.device.Works
      rw [Mutex.hold_data]
      exact hafter

theorem onDevice_prefix (sink : BufferedSink ε) :
    sink.onDevice <+: sink.unbuffered.capturedOutput := by
  rw [StreamSink.capturedOutput_eq]
  exact List.prefix_append _ _

theorem flush_reaches_device {sink : BufferedSink ε} (h : (sink.step .flush).1 = .ok ()) :
    (sink.step .flush).2.onDevice = (sink.step .flush).2.unbuffered.capturedOutput := by
  obtain ⟨-, -, -, -, hflushed⟩ := flushBuffered_refines sink.state.data
  rw [StreamSink.capturedOutput_eq]
  show (sink.state.hold flushBuffered).2.data.writer.device.content =
    (sink.state.hold flushBuffered).2.data.writer.accepted
  rw [Mutex.hold_data]
  apply hflushed
  have hresult : (sink.state.hold flushBuffered).1.mapErr SinkError.io = .ok () := h
  rw [Mutex.hold_fst] at hresult
  cases hfirst : (flushBuffered sink.state.data).1 with
  | ok u => rfl
  | err e =>
    rw [hfirst] at hresult
    cases hresult
  | panic =>
    rw [hfirst] at hresult
    cases hresult

theorem BufferedSink.Works.flush_ok {sink : BufferedSink ε} (h : sink.Works) :
    (sink.step .flush).1 = .ok () := by
  show (sink.state.hold flushBuffered).1.mapErr SinkError.io = _
  rw [Mutex.hold_fst]
  show (Outcome.ofExcept sink.state.data.writer.flush.1).mapErr SinkError.io = _
  rw [(sink.state.data.writer.flush_accepts.1.works h).1]
  rfl

/-- With a formatter that does not panic no call fails then. -/
theorem BufferedSink.Works.step_ok {sink : BufferedSink ε} (h : sink.Works)
    (hformats : ∀ record, ∃ text, sink.formatter.format record [] = .returned text)
    (request : Request) : (sink.step request).1 = .ok () := by
  obtain ⟨call, hrequest, hstep, -, hworks⟩ := step_refines sink request
  have hgiven := (hworks h).1.step_fst sink.unbuffered
  rw [hstep] at hgiven
  have hresult : call.given sink.unbuffered.formatter sink.unbuffered.capturedOutput =
      .result (.ok ()) := by
    cases call with
    | writeRecord record text newline =>
      obtain ⟨text, hformat⟩ := hformats record
      rw [Call.given, show sink.unbuffered.formatter.format record [] = _ from hformat]
    | flush reply => rfl
    | capturedOutput => cases hrequest
  exact Returned.result.inj (hgiven.trans hresult)

/-- The sink does what the one without a buffer would do in some `calls` with the same arguments,
and the device is behind that, but not behind a flush that succeeded. -/
structure Buffers (sink : BufferedSink ε) (requests : List Request)
    (calls : List (Call (WriteError ε))) : Prop where
  arguments : calls.map Call.request = requests.map some
  returns : sink.unbuffered.returns calls = (sink.returns requests).map .result
  accepts : sink.unbuffered.after calls = (sink.after requests).unbuffered
  behind : (sink.after requests).onDevice <+: (sink.unbuffered.after calls).capturedOutput
  grows : ∀ before, before <+: requests →
    (sink.after before).onDevice <+: (sink.after requests).onDevice
  /-- If the device does not fail, no call does, except for panics of the formatter. -/
  served : sink.Works → ∀ call ∈ calls, call.Served
  flushed : ∀ before, before ++ [.flush] <+: requests →
    ((sink.after before).step .flush).1 = .ok () →
    (sink.after (before ++ [.flush])).onDevice =
      (sink.after (before ++ [.flush])).unbuffered.capturedOutput

theorem BufferedSink.after_grown (sink : BufferedSink ε) (requests : List Request) :
    sink.onDevice <+: (sink.after requests).onDevice := by
  induction requests generalizing sink with
  | nil => exact List.prefix_rfl
  | cons request requests ih =>
    obtain ⟨-, -, -, hgrown, -⟩ := step_refines sink request
    exact hgrown.trans (ih (sink.step request).2)

theorem BufferedSink.after_append (sink : BufferedSink ε) (requests rest : List Request) :
    sink.after (requests ++ rest) = (sink.after requests).after rest :=
  List.foldl_append

theorem after_refines (sink : BufferedSink ε) (requests : List Request) :
    ∃ calls : List (Call (WriteError ε)), calls.map Call.request = requests.map some ∧
      sink.unbuffered.returns calls = (sink.returns requests).map .result ∧
      sink.unbuffered.after calls = (sink.after requests).unbuffered ∧
      (sink.Works → (∀ call ∈ calls, call.Served) ∧ (sink.after requests).Works) := by
  induction requests generalizing sink with
  | nil => exact ⟨[], rfl, rfl, rfl, fun h => ⟨nofun, h⟩⟩
  | cons request requests ih =>
    obtain ⟨call, hrequest, hstep, -, hworks⟩ := step_refines sink request
    obtain ⟨calls, hrequests, hreturns, hafter, hserved⟩ := ih (sink.step request).2
    refine ⟨call :: calls, ?_, ?_, ?_, fun hw => ?_⟩
    · rw [List.map_cons, List.map_cons, hrequest, hrequests]
    · show (sink.unbuffered.step call).1 :: (sink.unbuffered.step call).2.returns calls = _
      rw [hstep, hreturns]
      rfl
    · show (sink.unbuffered.step call).2.after calls = _
      rw [hstep]
      exact hafter
    · obtain ⟨hcall, hw'⟩ := hworks hw
      obtain ⟨hcalls, hend⟩ := hserved hw'
      exact ⟨List.forall_mem_cons.mpr ⟨hcall, hcalls⟩, hend⟩

/-- For any capacity of the buffer, and whatever the device does. -/
theorem buffered_refines (sink : BufferedSink ε) (requests : List Request) :
    ∃ calls, Buffers sink requests calls := by
  obtain ⟨calls, hrequests, hreturns, hafter, hworks⟩ := after_refines sink requests
  refine ⟨calls, hrequests, hreturns, hafter, ?_, ?_, fun hw => (hworks hw).1, ?_⟩
  · rw [hafter]
    exact onDevice_prefix _
  · rintro before ⟨rest, rfl⟩
    rw [sink.after_append]
    exact BufferedSink.after_grown _ rest
  · intro before _ hok
    rw [sink.after_append]
    exact flush_reaches_device hok

end Insomnilog.Sink
