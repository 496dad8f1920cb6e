import Insomnilog.Sink.Stream

/-! What a sink writes when its writer does not fail, over calls of which some panic. -/
namespace Insomnilog.Sink
open Frontend
open Insomnilog.Formatter (LogRecord)

variable {E : Type} {formatter : Formatter} {sink : StreamSink} {call : Call E}
  {calls : List (Call E)}

/-- The writer does not fail in the call. -/
def Call.Served : Call E → Prop
  | writeRecord _ text newline => text = .ok ∧ newline = .ok
  | flush reply => reply = .ok ()
  | capturedOutput => True

/-- The record formatted on an empty buffer, and a newline. A record whose formatting panics has
no line. -/
def Call.line (formatter : Formatter) : Call E → List UInt8
  | writeRecord record _ _ =>
    match formatter.format record [] with
    | .returned text => asBytes text ++ [lineEnd]
    | .panicked _ => []
  | _ => []

/-- What the call gives its caller when the sink has written `output`. -/
def Call.given (formatter : Formatter) (output : List UInt8) : Call E → Returned E
  | writeRecord record _ _ =>
    match formatter.format record [] with
    | .returned _ => .result (.ok ())
    | .panicked _ => .result .panic
  | flush _ => .result (.ok ())
  | capturedOutput => .bytes output

/-- The output is the lines of the calls in their order, from what was there before, and each
call sees and adds to exactly that. -/
structure WritesLines (sink : StreamSink) (calls : List (Call E)) : Prop where
  output : (sink.after calls).capturedOutput =
    sink.capturedOutput ++ calls.flatMap (Call.line sink.formatter)
  grows : ∀ before call rest, calls = before ++ call :: rest →
    ((sink.after before).step call).2.capturedOutput =
      sink.capturedOutput ++ before.flatMap (Call.line sink.formatter) ++ call.line sink.formatter
  gives : ∀ before call rest, calls = before ++ call :: rest →
    ((sink.after before).step call).1 = call.given sink.formatter
      (sink.capturedOutput ++ before.flatMap (Call.line sink.formatter))

/-- The writer takes whole lines. -/
theorem Call.Served.accepted (h : call.Served) (formatter : Formatter) :
    call.accepted formatter = call.line formatter := by
  cases call with
  | writeRecord record text newline =>
    obtain ⟨rfl, rfl⟩ := h
    rfl
  | flush reply => rfl
  | capturedOutput => rfl

theorem StreamSink.after_lines (sink : StreamSink) (h : ∀ call ∈ calls, call.Served) :
    (sink.after calls).capturedOutput =
      sink.capturedOutput ++ calls.flatMap (Call.line sink.formatter) := by
  have hlines : calls.flatMap (Call.accepted sink.formatter) =
      calls.flatMap (Call.line sink.formatter) := by
    apply List.flatMap_congr
    intro call hcall
    exact (h call hcall).accepted sink.formatter
  rw [after_output, hlines]

theorem Call.Served.step_fst (h : call.Served) (sink : StreamSink) :
    (sink.step call).1 = call.given sink.formatter sink.capturedOutput := by
  cases call with
  | writeRecord record text newline =>
    obtain ⟨rfl, rfl⟩ := h
    show Returned.result (sink.writeRecord record .ok .ok).1 = _
    rw [Call.given]
    cases hformat : sink.formatter.format record [] with
    | returned out =>
      rw [StreamSink.writeRecord_returned hformat]
      rfl
    | panicked out => rw [StreamSink.writeRecord_panicked hformat]
  | flush reply =>
    cases h
    rfl
  | capturedOutput => rfl

/-- For any content of the scratch buffer, and for a poisoned mutex as well. -/
theorem writes_lines (sink : StreamSink) (calls : List (Call E))
    (h : ∀ call ∈ calls, call.Served) : WritesLines sink calls where
  output := sink.after_lines h
  grows before call rest hsplit := by
    subst hsplit
    obtain ⟨hbefore, hrest⟩ := List.forall_mem_append.mp h
    obtain ⟨hcall, -⟩ := List.forall_mem_cons.mp hrest
    rw [StreamSink.step_output, StreamSink.after_formatter, hcall.accepted,
      sink.after_lines hbefore]
  gives before call rest hsplit := by
    subst hsplit
    obtain ⟨hbefore, hrest⟩ := List.forall_mem_append.mp h
    obtain ⟨hcall, -⟩ := List.forall_mem_cons.mp hrest
    rw [hcall.step_fst, StreamSink.after_formatter, sink.after_lines hbefore]

/-- Appends the format string and panics in records at level `error`, when only a part of the
text is there. -/
def panicsOnError : Formatter where
  format record out :=
    if record.metadata.level = .error then .panicked (out ++ "par".toList)
    else .returned (out ++ record.metadata.fmtStr)
  appends record out := by
    by_cases h : record.metadata.level = .error
    · rw [if_pos h]
      exact List.prefix_append _ _
    · rw [if_neg h]
      exact List.prefix_append _ _

/-- The mutex is poisoned in the middle, and the output is read after that. -/
theorem writes_lines_after_panic :
    let record (level : LogLevel) (text : String) : LogRecord :=
      ⟨0, [], ⟨level, text.toList, [], 0, []⟩, []⟩
    let sink : StreamSink := .new panicsOnError .trace []
    let calls : List (Call Unit) := [.writeRecord (record .info "a") .ok .ok,
      .writeRecord (record .error "b") .ok .ok, .capturedOutput,
      .writeRecord (record .info "c") .ok .ok, .flush (.ok ())]
    (sink.after (calls.take 2)).state.poisoned = true ∧
      (sink.after calls).capturedOutput = asBytes "a\nc\n".toList ∧ WritesLines sink calls := by
  intro record sink calls
  refine ⟨by decide, by decide, writes_lines sink calls fun call hcall => ?_⟩
  simp only [calls, List.mem_cons, List.not_mem_nil, or_false] at hcall
  rcases hcall with rfl | rfl | rfl | rfl | rfl <;> simp [Call.Served]

end Insomnilog.Sink
