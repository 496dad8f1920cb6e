import Insomnilog.Backend.Dispatch
import Insomnilog.Sink.WholeLines

/-! A backend all of whose sinks are stream sinks. What the sinks return to the worker is then no
longer a parameter, but what their methods compute. -/
namespace Insomnilog.Output
open Backend Frontend Sink Wire

variable {t : Target} {E : Type} {cfg : Config t} {level : t.Ptr → LogLevel} {s : State t} {n : ℕ}

/-- What the writer of a sink does in the calls for one record. -/
structure Replies (E : Type) where
  text : Reply E
  newline : Reply E
  flush : Except E Unit

/-- The sinks as they are at first, by their numbers, and the metadata of the call sites. -/
structure Streams (t : Target) (E : Type) where
  sink : ℕ → StreamSink
  metadata : t.Ptr → Formatter.LogMetadata
  replies : (thread index position : ℕ) → Replies E

namespace Streams
variable (x : Streams t E)

/-- The record as a formatter reads it, behind the pointer to its metadata. -/
def record (r : Backend.LogRecord t) : Formatter.LogRecord :=
  ⟨r.timestampNs, r.loggerName.toList, x.metadata r.metadata, r.args⟩

/-- What the methods of sink `n` return for a record. -/
def script (n : ℕ) (r : Backend.LogRecord t) (replies : Replies E) : SinkScript where
  level := some (x.sink n).level
  write := ((x.sink n).writeRecord (x.record r) replies.text replies.newline).1.mapErr fun _ => ()
  flush := ((x.sink n).flush replies.flush).1.mapErr fun _ => ()

/-- What a call changes in its sink. Its level is a constant. -/
def callOf (c : SinkCall t) : Option (Call E) :=
  let replies := x.replies c.thread c.index c.position
  match c.method with
  | .level => none
  | .write => some (.writeRecord (x.record c.record) replies.text replies.newline)
  | .flush => some (.flush replies.flush)

/-- What the call returns when `sink` is the sink that is called. -/
def answer (sink : StreamSink) (c : SinkCall t) : Outcome Unit Unit :=
  let replies := x.replies c.thread c.index c.position
  match c.method with
  | .level => .ok ()
  | .write =>
      (sink.writeRecord (x.record c.record) replies.text replies.newline).1.mapErr fun _ => ()
  | .flush => (sink.flush replies.flush).1.mapErr fun _ => ()

/-- Sink `n` when the worker has made `calls`. -/
def after (n : ℕ) (calls : List (SinkCall t)) : StreamSink :=
  (x.sink n).after ((calls.filter fun c => c.sink = n).filterMap x.callOf)

/-- What the writer takes in a call. -/
def taken (c : SinkCall t) : List UInt8 :=
  ((x.callOf c).map (Call.accepted (x.sink c.sink).formatter)).getD []

/-- A record was to be written, and the writer did not take its whole line. -/
def torn (c : SinkCall t) : Bool :=
  c.method = .write &&
    match (x.sink c.sink).formatter.format (x.record c.record) [] with
    | .returned text => x.taken c ≠ asBytes text ++ [lineEnd]
    | .panicked _ => true

end Streams

/-- The sinks of the backend are `x`, as far as records that have been committed go. -/
structure Plays (cfg : Config t) (x : Streams t E) (s : State t) : Prop where
  script : ∀ i j d, s.dispatchOf cfg (i, j) = some d → ∀ p n, d.sinks[p]? = some n →
    d.script p = x.script n d.record (x.replies i j p)
  level : ∀ p, cfg.levelOf p = (x.metadata p).level

/-- What the worker has seen is what the sinks have done, each in the state that the calls before
had left it in. No call that leaves a line incomplete goes uncounted. -/
structure Accounted (x : Streams t E) (s : State t) : Prop where
  answers : ∀ before c rest, s.calls = before ++ c :: rest →
    c.verdict = x.answer (x.after c.sink before) c
  accepts : ∀ c ∈ s.calls, c.method ≠ .level →
    (x.sink c.sink).level ≤ (x.metadata c.record.metadata).level
  output : ∀ n, (x.after n s.calls).capturedOutput =
    (x.sink n).capturedOutput ++ (s.calls.filter fun c => c.sink = n).flatMap x.taken
  torn : s.calls.countP x.torn ≤ s.writeErrors + s.panicCount

/-- The state of a sink has no part in what it returns. -/
theorem writeRecord_result {sink sink' : StreamSink} (h : sink'.formatter = sink.formatter)
    (record : Formatter.LogRecord) (text newline : Reply E) :
    (sink'.writeRecord record text newline).1 = (sink.writeRecord record text newline).1 := by
  cases hformat : sink.formatter.format record [] with
  | returned out =>
    rw [StreamSink.writeRecord_returned hformat, StreamSink.writeRecord_returned (h ▸ hformat)]
  | panicked out =>
    rw [StreamSink.writeRecord_panicked hformat, StreamSink.writeRecord_panicked (h ▸ hformat)]

theorem flush_result (sink : StreamSink) (reply : Except E Unit) :
    (sink.flush reply).1 = match reply with
      | .ok () => .ok ()
      | .error e => .err (.io e) := by
  show (sink.state.hold (flushWriter reply)).1.mapErr SinkError.io = _
  rw [Mutex.hold_fst]
  cases reply <;> rfl

namespace Streams
variable (x : Streams t E)

theorem after_formatter (calls : List (SinkCall t)) :
    (x.after n calls).formatter = (x.sink n).formatter :=
  StreamSink.after_formatter _ _

theorem answer_after (calls : List (SinkCall t)) (c : SinkCall t) :
    x.answer (x.after c.sink calls) c = x.answer (x.sink c.sink) c := by
  unfold answer
  cases c.method with
  | level => rfl
  | write =>
    dsimp only
    rw [writeRecord_result (x.after_formatter calls)]
  | flush =>
    dsimp only
    rw [flush_result, flush_result]

theorem after_output (calls : List (SinkCall t)) : (x.after n calls).capturedOutput =
    (x.sink n).capturedOutput ++ (calls.filter fun c => c.sink = n).flatMap x.taken := by
  rw [after, StreamSink.after_output]
  congr 1
  induction calls with
  | nil => rfl
  | cons c calls ih =>
    rw [List.filter_cons]
    split
    next hc =>
      obtain rfl : c.sink = n := by simpa using hc
      rw [List.flatMap_cons, ← ih, List.filterMap_cons, taken]
      cases x.callOf c <;> rfl
    next => exact ih

/-- A write that returns `Ok` is a whole line. -/
theorem answer_of_torn {c : SinkCall t} (h : x.torn c = true) :
    c.method = .write ∧ x.answer (x.sink c.sink) c ≠ .ok () := by
  simp only [torn, Bool.and_eq_true, decide_eq_true_eq] at h
  obtain ⟨hmethod, htorn⟩ := h
  refine ⟨hmethod, fun hok => ?_⟩
  simp only [answer, hmethod] at hok
  cases hformat : (x.sink c.sink).formatter.format (x.record c.record) [] with
  | returned out =>
    rw [StreamSink.writeRecord_returned hformat] at hok
    simp only [taken, callOf, hmethod, Option.map_some, Option.getD_some,
      accepted_returned hformat, hformat, decide_eq_true_eq] at htorn
    cases htext : (x.replies c.thread c.index c.position).text with
    | ok =>
      cases hnewline : (x.replies c.thread c.index c.position).newline with
      | ok => exact htorn (by rw [htext, hnewline]; rfl)
      | err accepted e => simp [htext, hnewline, Reply.result] at hok
    | err accepted e => simp [htext, Reply.result] at hok
  | panicked out =>
    rw [StreamSink.writeRecord_panicked hformat] at hok
    cases hok

end Streams

/-- What a method returns, if it is called. -/
def returns (script : SinkScript) : Method → Outcome Unit Unit
  | .level => if script.level.isSome then .ok () else .panic
  | .write => script.write
  | .flush => script.flush

/-- A round calls methods for what the script returns, and goes on after the level if that accepts
the record. -/
theorem returns_of_mem_visitSink {script : SinkScript} {recordLevel : LogLevel} {m : Method}
    {o : Outcome Unit Unit} (h : (m, o) ∈ (visitSink script recordLevel).steps) :
    o = returns script m ∧ (m ≠ .level → script.accepts recordLevel = true) := by
  unfold visitSink at h
  unfold SinkScript.accepts
  cases hl : script.level with
  | none =>
    rw [hl] at h
    obtain ⟨rfl, rfl⟩ := Prod.mk.inj (List.mem_singleton.mp h)
    simp [returns, hl]
  | some sinkLevel =>
    by_cases hlt : recordLevel < sinkLevel
    · simp only [hl, if_pos hlt, List.mem_singleton, Prod.mk.injEq] at h
      obtain ⟨rfl, rfl⟩ := h
      simp [returns, hl]
    · have hle : sinkLevel ≤ recordLevel := LogLevel.not_lt.mp hlt
      simp only [hl, if_neg hlt] at h
      cases hw : script.write with
      | ok u =>
        cases hf : script.flush with
        | _ =>
          simp only [hw, hf, List.mem_cons, List.not_mem_nil, or_false, Prod.mk.injEq] at h
          rcases h with ⟨rfl, rfl⟩ | ⟨rfl, rfl⟩ | ⟨rfl, rfl⟩ <;> simp [returns, hl, hw, hf, hle]
      | _ =>
        simp only [hw, List.mem_cons, List.not_mem_nil, or_false, Prod.mk.injEq] at h
        rcases h with ⟨rfl, rfl⟩ | ⟨rfl, rfl⟩ <;> simp [returns, hl, hw, hle]

/-- A call of a fan-out is one of the round at its position. -/
theorem mem_visitSink_of_mem_remaining {script : ℕ → SinkScript} {recordLevel : LogLevel}
    {f : Fanout t} {sinks : List ℕ} {c : SinkCall t}
    (h : c ∈ f.remaining script recordLevel sinks) :
    c.thread = f.thread ∧
      (c.method, c.verdict) ∈ (visitSink (script c.position) recordLevel).steps := by
  induction sinks generalizing f with
  | nil => cases h
  | cons sink sinks ih =>
    simp only [Fanout.remaining, List.mem_append] at h
    rcases h with h | h
    · obtain ⟨p, hp, rfl⟩ := List.mem_map.mp h
      exact ⟨rfl, hp⟩
    · split at h
      · cases h
      · exact ih (f := f.next) h

theorem dispatchOf_eq_some {i j : ℕ} {d : Dispatch t} (h : s.dispatchOf cfg (i, j) = some d) :
    ∃ th e raw, s.threads[i]? = some th ∧ th.committed[j]? = some e ∧
      e.record.decoded (cfg.decoders i j) = .ok raw ∧ d = cfg.dispatch i j raw := by
  obtain ⟨th, hi, h⟩ := Option.bind_eq_some_iff.mp h
  obtain ⟨e, he, h⟩ := Option.bind_eq_some_iff.mp h
  split at h
  next raw hraw => exact ⟨th, e, raw, hi, he, hraw, (Option.some.inj h).symm⟩
  next => cases h

/-- Every call was made in the dispatch of a record that was committed. -/
theorem dispatch_of_call (hs : (system cfg level).Reachable s) {c : SinkCall t}
    (hc : c ∈ s.calls) : ∃ d, s.dispatchOf cfg (c.thread, c.index) = some d ∧
      d.sinks[c.position]? = some c.sink ∧ d.record = c.record ∧
      d.level = cfg.levelOf c.record.metadata ∧
      (c.method, c.verdict) ∈ (visitSink (d.script c.position) d.level).steps := by
  obtain ⟨k, h⟩ := backend_invariant hs
  obtain ⟨th, hi⟩ : ∃ th, s.threads[c.thread]? = some th :=
    ⟨_, List.getElem?_eq_getElem (h.calls c hc)⟩
  have hf := h.threads c.thread th hi
  have hmem : c ∈ overDecoded (cfg.callsFor c.thread) th.results := by
    rw [← hf.calls]
    exact List.mem_append_left _ (List.mem_filter.mpr ⟨hc, by simp⟩)
  obtain ⟨j, raw, hj, hmem⟩ := mem_overDecoded hmem
  obtain ⟨hindex, hrecord, hsink, -⟩ := Fanout.mem_remaining hmem
  obtain ⟨-, hverdict⟩ := mem_visitSink_of_mem_remaining hmem
  obtain rfl : c.index = j := hindex
  obtain ⟨-, e, he, hd⟩ := hf.inv.results _ _ hj
  refine ⟨_, dispatchOf_decoded hi he hd.symm, List.mk_mem_zipIdx_iff_getElem?.mp hsink,
    hrecord.symm, ?_, hverdict⟩
  rw [hrecord]
  rfl

/-- For any failures of the writers and any panics of the formatters. -/
theorem streams_accounted {x : Streams t E} (hs : (system cfg level).Reachable s)
    (hx : Plays cfg x s) : Accounted x s := by
  obtain ⟨k, h⟩ := backend_invariant hs
  have hcall (c : SinkCall t) (hc : c ∈ s.calls) : c.verdict = x.answer (x.sink c.sink) c ∧
      (c.method ≠ .level → (x.sink c.sink).level ≤ (x.metadata c.record.metadata).level) := by
    obtain ⟨d, hd, hsink, hrecord, hlevel, hverdict⟩ := dispatch_of_call hs hc
    rw [hx.script _ _ d hd _ _ hsink, hlevel, hx.level, hrecord] at hverdict
    obtain ⟨hreturns, haccepts⟩ := returns_of_mem_visitSink hverdict
    refine ⟨hreturns.trans ?_, fun hne => ?_⟩
    · unfold Streams.answer
      cases c.method <;> rfl
    · simpa [Streams.script, SinkScript.accepts] using haccepts hne
  refine ⟨fun before c rest hsplit => ?_, fun c hc => (hcall c hc).2, fun n => x.after_output _, ?_⟩
  · rw [x.answer_after]
    exact (hcall c (hsplit ▸ List.mem_append_right _ List.mem_cons_self)).1
  · rw [h.writeErrors, h.panicCount]
    have hor : s.calls.countP x.torn ≤
        s.calls.countP fun c => SinkCall.failed .write c || c.panicked := by
      refine List.countP_mono_left fun c hc htorn => ?_
      obtain ⟨hmethod, hne⟩ := x.answer_of_torn htorn
      rw [← (hcall c hc).1] at hne
      unfold SinkCall.failed SinkCall.panicked
      cases hv : c.verdict with
      | ok u => exact absurd hv hne
      | err u => simp [hmethod]
      | panic => simp
    refine hor.trans ?_
    generalize s.calls = calls
    induction calls with
    | nil => exact le_rfl
    | cons c calls ih =>
      simp only [List.countP_cons]
      by_cases hw : SinkCall.failed .write c = true <;> by_cases hp : c.panicked = true <;>
        simp only [hw, hp] <;> simp <;> omega

/-- A sink whose writer takes two bytes of each text and fails. -/
def tornStreams : Streams small Unit where
  sink _ := .new panicsOnError .trace []
  metadata _ := ⟨.info, "text".toList, [], 0, []⟩
  replies _ _ _ := ⟨.err 2 (), .ok, .ok ()⟩

theorem streams_accounted_torn :
    let cfg := { smallConfig fun _ => .ok "one" with
      sink := fun _ _ _ => ⟨some .trace, .err (), .ok ()⟩ }
    ∃ s, (system cfg fun _ => .trace).run (lateRun ++ .replicate 12 .work) = some s ∧
      s.writeErrors = 1 ∧ (tornStreams.after 0 s.calls).capturedOutput = asBytes "te".toList ∧
      Accounted tornStreams s := by
  intro cfg
  have hrun : ((system cfg fun _ => .trace).run (lateRun ++ .replicate 12 .work)).map (fun s =>
      (s.writeErrors, (tornStreams.after 0 s.calls).capturedOutput)) =
      some (1, asBytes "te".toList) := by decide +kernel
  obtain ⟨s, hs, hvalues⟩ := Option.map_eq_some_iff.mp hrun
  obtain ⟨herrors, houtput⟩ := Prod.mk.inj hvalues
  have hplays : Plays cfg tornStreams s := by
    refine ⟨fun i j d hd p n _ => ?_, fun _ => rfl⟩
    obtain ⟨_, _, raw, _, _, _, rfl⟩ := dispatchOf_eq_some hd
    rfl
  exact ⟨s, hs, herrors, houtput, streams_accounted ⟨_, hs⟩ hplays⟩

end Insomnilog.Output
