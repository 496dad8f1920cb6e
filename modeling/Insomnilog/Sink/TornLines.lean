import Insomnilog.Lib.Lines
import Insomnilog.Sink.Stream

/-! What a writer that fails does to the lines of other records. Nothing ends a line that was
broken off, and the next record is written right after it. -/
namespace Insomnilog.Sink
open Frontend Lines
open Insomnilog.Formatter (Text LogRecord)

variable {E : Type} {formatter : Formatter} {record : LogRecord} {text newline : Reply E}
  {sink : StreamSink} {calls before rest : List (Call E)} {call : Call E}

/-- Every record whose `write_record` returns `Ok` has a line of its own, where the call put it. -/
def OwnLines (sink : StreamSink) (calls : List (Call E)) : Prop :=
  ∀ before record text newline rest,
    calls = before ++ .writeRecord record text newline :: rest →
    ((sink.after before).writeRecord record text newline).1 = .ok () →
    ∃ out, sink.formatter.format record [] = .returned out ∧
      OwnLine lineEnd (sink.after calls).capturedOutput (sink.after before).capturedOutput
        (asBytes out)

/-- A record whose formatting returns and that the writer takes. -/
def Call.Succeeds (formatter : Formatter) : Call E → Prop
  | writeRecord record text newline =>
      (∃ out, formatter.format record [] = .returned out) ∧ text = .ok ∧ newline = .ok
  | _ => False

/-- The writer takes something in the call, and the last byte that it takes is no newline. -/
def Call.Tears (formatter : Formatter) (call : Call E) : Prop :=
  ¬ AtLineStart lineEnd (call.accepted formatter)

/-- The last byte that the writer takes in the call is a newline. -/
def Call.EndsLine (formatter : Formatter) (call : Call E) : Prop :=
  (call.accepted formatter).getLast? = some lineEnd

theorem StreamSink.writeRecord_ok_iff :
    (sink.writeRecord record text newline).1 = .ok () ↔
      (Call.writeRecord record text newline).Succeeds sink.formatter := by
  show _ ↔ (∃ out, sink.formatter.format record [] = .returned out) ∧ text = .ok ∧ newline = .ok
  cases h : sink.formatter.format record [] with
  | returned out =>
    rw [writeRecord_returned h]
    cases text with
    | ok => cases newline <;> simp [Reply.result]
    | err accepted e => simp [Reply.result]
  | panicked out =>
    rw [writeRecord_panicked h]
    simp

/-- The whole line is in the stream, at its place. -/
theorem StreamSink.line_inPlace {out : Text}
    (h : sink.formatter.format record [] = .returned out) :
    (sink.after before).capturedOutput ++ asBytes out ++ [lineEnd] <+:
      (sink.after (before ++ .writeRecord record .ok (.ok : Reply E) :: rest)).capturedOutput := by
  rw [after_output, after_output, List.flatMap_append, List.flatMap_cons, accepted_returned h]
  refine ⟨rest.flatMap (Call.accepted sink.formatter), ?_⟩
  simp [lineTaken, Reply.taken]

/-- Only where a line starts is in doubt. -/
theorem ownLines_iff : OwnLines sink calls ↔ ∀ before call rest,
    calls = before ++ call :: rest → call.Succeeds sink.formatter →
      AtLineStart lineEnd (sink.after before).capturedOutput := by
  constructor
  · intro h before call rest hsplit hcall
    cases call with
    | writeRecord record text newline =>
      have hok : ((sink.after before).writeRecord record text newline).1 = .ok () := by
        rw [StreamSink.writeRecord_ok_iff, StreamSink.after_formatter]
        exact hcall
      obtain ⟨out, -, hline⟩ := h before record text newline rest hsplit hok
      exact hline.starts
    | flush reply => cases hcall
    | capturedOutput => cases hcall
  · intro h before record text newline rest hsplit hok
    rw [StreamSink.writeRecord_ok_iff, StreamSink.after_formatter] at hok
    have hstart := h before _ rest hsplit hok
    obtain ⟨⟨out, hformat⟩, rfl, rfl⟩ := hok
    subst hsplit
    exact ⟨out, hformat, hstart, StreamSink.line_inPlace hformat⟩

/-- The records have their own lines if after each torn line, and before the next record whose
call succeeds, there is a call that ends a line. They have them in no other runs. -/
theorem own_lines_iff_mended (formatter : Formatter) (level : LogLevel) (calls : List (Call E)) :
    OwnLines (.new formatter level []) calls ↔ ∀ before torn between call rest,
      calls = before ++ torn :: (between ++ call :: rest) → torn.Tears formatter →
        call.Succeeds formatter → ∃ c ∈ between, c.EndsLine formatter := by
  have hstream (before : List (Call E)) :
      ((StreamSink.new formatter level []).after before).capturedOutput =
        before.flatMap (Call.accepted formatter) := StreamSink.after_output _ _
  rw [ownLines_iff]
  constructor
  · intro h before torn between call rest hsplit htorn hcall
    have hstart := h (before ++ torn :: between) call rest (by simp [hsplit]) hcall
    rw [hstream, atLineStart_flatMap] at hstart
    exact hstart before torn between rfl htorn
  · intro h before call rest hsplit hcall
    rw [hstream, atLineStart_flatMap]
    intro first torn between hbefore htorn
    exact h first torn between call rest (by simp [hsplit, hbefore]) htorn hcall

/-- The newline of the first record is lost, and the second record returns `Ok`. There is no
line `b` in the stream, at its place or elsewhere. -/
theorem own_lines_lost :
    let record (text : String) : LogRecord := ⟨0, [], ⟨.info, text.toList, [], 0, []⟩, []⟩
    let sink : StreamSink := .new (patternFormatter ⟨fun _ => [], fun _ => []⟩
      [.field ⟨.message, .default⟩]) .info []
    let first : Call Unit := .writeRecord (record "a") .ok (.err 0 ())
    ((sink.after [first]).writeRecord (record "b") .ok (.ok : Reply Unit)).1 = .ok () ∧
      (sink.after [first, .writeRecord (record "b") .ok .ok]).capturedOutput =
        asBytes "ab\n".toList ∧
      (¬ ∃ before, OwnLine lineEnd (asBytes "ab\n".toList) before (asBytes "b".toList)) ∧
      ¬ OwnLines sink [first, .writeRecord (record "b") .ok .ok] := by
  intro record sink first
  have hfirst : (sink.after [first]).capturedOutput = asBytes "a".toList := by decide
  have hsecond : ((sink.after [first]).writeRecord (record "b") .ok (.ok : Reply Unit)).1 =
      .ok () := by decide
  have hnot : ¬ AtLineStart lineEnd (asBytes "a".toList) := by
    rintro (h | h)
    · exact absurd h (by decide)
    · exact absurd h (by decide)
  refine ⟨hsecond, by decide, ?_, ?_⟩
  · rintro ⟨before, hstarts, rest, hrest⟩
    have hstream : asBytes "ab\n".toList = [97, 98, 10] := by decide
    have hline : asBytes "b".toList = [98] := by decide
    rw [hstream, hline] at hrest
    cases before with
    | nil => exact absurd (List.cons.inj hrest).1 (by decide)
    | cons x before =>
      obtain ⟨rfl, htail⟩ := List.cons.inj hrest
      cases before with
      | nil => exact hnot hstarts
      | cons y before =>
        have hlength := congrArg List.length htail
        simp only [List.append_eq, List.length_append, List.length_cons, List.length_nil] at hlength
        omega
  · intro h
    obtain ⟨out, -, hline⟩ := h [first] _ _ _ [] rfl hsecond
    rw [hfirst] at hline
    exact hnot hline.starts

end Insomnilog.Sink
