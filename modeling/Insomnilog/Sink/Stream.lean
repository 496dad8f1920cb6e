import Insomnilog.Formatter.Padding
import Insomnilog.Lib.Mutex

/-! The sink that streams formatted records to a writer. The formatter and the writer are user
code: a formatter may panic, and a writer may fail with an error of any type `E`. -/
namespace Insomnilog.Sink
open Frontend
open Insomnilog.Formatter (Text LogRecord FloatText PatternElement)

/-- What `Formatter::format` leaves in its buffer, and whether it returns. -/
inductive Formatted where
  | returned (buffer : Text)
  | panicked (buffer : Text)
  deriving DecidableEq

def Formatted.buffer : Formatted → Text
  | returned buffer => buffer
  | panicked buffer => buffer

/-- The trait `Formatter`. -/
structure Formatter where
  format : LogRecord → Text → Formatted
  appends : ∀ record out, out <+: (format record out).buffer

/-- `PatternFormatter` does not panic. -/
def patternFormatter (floats : FloatText) (elements : List PatternElement) : Formatter where
  format record out := .returned (Insomnilog.Formatter.format floats elements record out)
  appends record out := by
    obtain ⟨texts, -, h⟩ := Insomnilog.Formatter.format_renders floats elements record
    exact ⟨texts.flatten, (h out).symm⟩

def asBytes (text : Text) : List UInt8 := text.flatMap String.utf8EncodeChar

/-- `\n`. -/
def lineEnd : UInt8 := 10

/-- What the writer does with bytes: it takes them all, or the first `accepted` of them and
fails. -/
inductive Reply (E : Type) where
  | ok
  | err (accepted : ℕ) (e : E)
  deriving DecidableEq

/-- Only the variant that this sink builds. -/
inductive SinkError (E : Type) where
  | io (e : E)
  deriving DecidableEq

structure StreamState where
  /-- The bytes that the writer has taken. -/
  writer : List UInt8
  scratch : Text

variable {E : Type} {formatter : Formatter} {record : LogRecord} {text newline : Reply E}
  {out : Text}

def Reply.result : Reply E → Outcome E Unit
  | ok => .ok ()
  | err _ e => .err e

def Reply.taken : Reply E → List UInt8 → List UInt8
  | ok, bytes => bytes
  | err accepted _, bytes => bytes.take accepted

def writeAll (reply : Reply E) (bytes writer : List UInt8) : Outcome E Unit × List UInt8 :=
  (reply.result, writer ++ reply.taken bytes)

/-- The formatter is given the cleared scratch buffer. The writer gives the two replies to the
two writes, if they are made. -/
def formatLine (formatter : Formatter) (record : LogRecord) (text newline : Reply E)
    (state : StreamState) : Outcome E Unit × StreamState :=
  match formatter.format record [] with
  | .panicked scratch => (.panic, ⟨state.writer, scratch⟩)
  | .returned scratch =>
    match writeAll text (asBytes scratch) state.writer with
    | (.ok (), writer) =>
        let (result, writer) := writeAll newline [lineEnd] writer
        (result, ⟨writer, scratch⟩)
    | (result, writer) => (result, ⟨writer, scratch⟩)

/-- The writer's `flush`, which takes no bytes. -/
def flushWriter (reply : Except E Unit) (state : StreamState) : Outcome E Unit × StreamState :=
  match reply with
  | .ok () => (.ok (), state)
  | .error e => (.err e, state)

structure StreamSink where
  formatter : Formatter
  level : LogLevel
  state : Mutex StreamState

/-- A call of a method, with what the writer does in it. -/
inductive Call (E : Type) where
  | writeRecord (record : LogRecord) (text newline : Reply E)
  | flush (reply : Except E Unit)
  | capturedOutput

inductive Returned (E : Type) where
  | result (result : Outcome (SinkError E) Unit)
  | bytes (output : List UInt8)
  deriving DecidableEq

namespace StreamSink

def new (formatter : Formatter) (level : LogLevel) (writer : List UInt8) : StreamSink :=
  ⟨formatter, level, .new ⟨writer, []⟩⟩

def capturedOutput (sink : StreamSink) : List UInt8 := sink.state.recover.writer

def writeRecord (sink : StreamSink) (record : LogRecord) (text newline : Reply E) :
    Outcome (SinkError E) Unit × StreamSink :=
  let (result, state) := sink.state.hold (formatLine sink.formatter record text newline)
  (result.mapErr .io, { sink with state })

def flush (sink : StreamSink) (reply : Except E Unit) : Outcome (SinkError E) Unit × StreamSink :=
  let (result, state) := sink.state.hold (flushWriter reply)
  (result.mapErr .io, { sink with state })

def step (sink : StreamSink) : Call E → Returned E × StreamSink
  | .writeRecord record text newline =>
      let (result, sink) := sink.writeRecord record text newline
      (.result result, sink)
  | .flush reply =>
      let (result, sink) := sink.flush reply
      (.result result, sink)
  | .capturedOutput => (.bytes sink.capturedOutput, sink)

def after (sink : StreamSink) (calls : List (Call E)) : StreamSink :=
  calls.foldl (fun sink call => (sink.step call).2) sink

/-- What calls return that are made one after the other. -/
def returns (sink : StreamSink) : List (Call E) → List (Returned E)
  | [] => []
  | call :: calls => (sink.step call).1 :: (sink.step call).2.returns calls

end StreamSink

/-- What the writer takes of a line. After a failure it is not given the newline. -/
def lineTaken (line : List UInt8) : Reply E → Reply E → List UInt8
  | .ok, newline => line ++ newline.taken [lineEnd]
  | .err accepted _, _ => line.take accepted

/-- What the writer takes in a call. -/
def Call.accepted (formatter : Formatter) : Call E → List UInt8
  | writeRecord record text newline =>
    match formatter.format record [] with
    | .returned out => lineTaken (asBytes out) text newline
    | .panicked _ => []
  | _ => []

theorem accepted_returned (h : formatter.format record [] = .returned out)
    (text newline : Reply E) : (Call.writeRecord record text newline).accepted formatter =
      lineTaken (asBytes out) text newline := by
  rw [Call.accepted, h]

theorem accepted_panicked (h : formatter.format record [] = .panicked out)
    (text newline : Reply E) : (Call.writeRecord record text newline).accepted formatter = [] := by
  rw [Call.accepted, h]

theorem formatLine_returned (h : formatter.format record [] = .returned out)
    (text newline : Reply E) (state : StreamState) :
    formatLine formatter record text newline state = (text.result.bind fun _ => newline.result,
      ⟨state.writer ++ lineTaken (asBytes out) text newline, out⟩) := by
  unfold formatLine
  rw [h]
  cases text with
  | ok =>
    show (newline.result, StreamState.mk (state.writer ++ asBytes out ++ newline.taken _) out) = _
    rw [List.append_assoc]
    rfl
  | err accepted e => rfl

theorem formatLine_panicked (h : formatter.format record [] = .panicked out)
    (text newline : Reply E) (state : StreamState) :
    formatLine formatter record text newline state = (.panic, ⟨state.writer, out⟩) := by
  unfold formatLine
  rw [h]

namespace StreamSink

theorem capturedOutput_eq (sink : StreamSink) :
    sink.capturedOutput = sink.state.data.writer := by
  rw [capturedOutput, Mutex.recover_eq]

/-- Neither the scratch text nor the poison has a part in what the writer takes. -/
theorem writeRecord_output (sink : StreamSink) (record : LogRecord) (text newline : Reply E) :
    (sink.writeRecord record text newline).2.capturedOutput = sink.capturedOutput ++
      (Call.writeRecord record text newline).accepted sink.formatter := by
  have hdata := Mutex.hold_data sink.state (formatLine sink.formatter record text newline)
  rw [capturedOutput_eq, capturedOutput_eq]
  show (sink.state.hold (formatLine sink.formatter record text newline)).2.data.writer = _
  rw [hdata]
  cases h : sink.formatter.format record [] with
  | returned out => rw [formatLine_returned h, accepted_returned h]
  | panicked out => rw [formatLine_panicked h, accepted_panicked h, List.append_nil]

theorem flush_output (sink : StreamSink) (reply : Except E Unit) :
    (sink.flush reply).2.capturedOutput = sink.capturedOutput := by
  rw [capturedOutput_eq, capturedOutput_eq]
  show (sink.state.hold (flushWriter reply)).2.data.writer = _
  rw [Mutex.hold_data]
  cases reply <;> rfl

theorem step_formatter (sink : StreamSink) (call : Call E) :
    (sink.step call).2.formatter = sink.formatter := by
  cases call <;> rfl

/-- A call makes the output grow by what the writer takes in it. -/
theorem step_output (sink : StreamSink) (call : Call E) :
    (sink.step call).2.capturedOutput = sink.capturedOutput ++ call.accepted sink.formatter := by
  cases call with
  | writeRecord record text newline => exact writeRecord_output sink record text newline
  | flush reply =>
    show (sink.flush reply).2.capturedOutput = sink.capturedOutput ++ []
    rw [flush_output, List.append_nil]
  | capturedOutput => exact (List.append_nil _).symm

theorem after_formatter (sink : StreamSink) (calls : List (Call E)) :
    (sink.after calls).formatter = sink.formatter := by
  induction calls generalizing sink with
  | nil => rfl
  | cons call calls ih => exact (ih (sink.step call).2).trans (step_formatter sink call)

/-- The output is what the writer took in each call, one after the other. -/
theorem after_output (sink : StreamSink) (calls : List (Call E)) :
    (sink.after calls).capturedOutput =
      sink.capturedOutput ++ calls.flatMap (Call.accepted sink.formatter) := by
  induction calls generalizing sink with
  | nil => exact (List.append_nil _).symm
  | cons call calls ih =>
    calc (sink.after (call :: calls)).capturedOutput
        = (sink.step call).2.capturedOutput ++
            calls.flatMap (Call.accepted (sink.step call).2.formatter) := ih _
      _ = sink.capturedOutput ++ (call :: calls).flatMap (Call.accepted sink.formatter) := by
          rw [step_formatter, step_output, List.append_assoc, List.flatMap_cons]

theorem writeRecord_fst (sink : StreamSink) (record : LogRecord) (text newline : Reply E) :
    (sink.writeRecord record text newline).1 =
      (formatLine sink.formatter record text newline sink.state.data).1.mapErr .io := by
  show (sink.state.hold (formatLine sink.formatter record text newline)).1.mapErr SinkError.io = _
  rw [Mutex.hold_fst]

/-- `write_record` returns the writer's replies to the two writes. -/
theorem writeRecord_returned {sink : StreamSink}
    (h : sink.formatter.format record [] = .returned out) (text newline : Reply E) :
    (sink.writeRecord record text newline).1 =
      (text.result.bind fun _ => newline.result).mapErr .io := by
  rw [writeRecord_fst, formatLine_returned h]

theorem writeRecord_panicked {sink : StreamSink}
    (h : sink.formatter.format record [] = .panicked out) (text newline : Reply E) :
    (sink.writeRecord record text newline).1 = .panic := by
  rw [writeRecord_fst, formatLine_panicked h]
  rfl

end StreamSink
end Insomnilog.Sink
