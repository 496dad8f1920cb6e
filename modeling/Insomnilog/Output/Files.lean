import Insomnilog.Output.Contents
import Insomnilog.Sink.Buffered

/-! What is in the log files. All sinks are buffered, and their devices take what they are given, if
only a part of it at a time. -/
namespace Insomnilog.Output
open Backend Frontend Sink Wire
open Insomnilog.Framing (LoggedRecord)

variable {t : Target} {ε : Type} {cfg : Config t} {level : t.Ptr → LogLevel} {s s₁ : State t}
  {n : ℕ}

/-- The sinks as they are at first, by their numbers, and the metadata of the call sites. -/
structure Files (t : Target) (ε : Type) where
  sink : ℕ → BufferedSink ε
  metadata : t.Ptr → Formatter.LogMetadata

/-- No device fails and no formatter panics. -/
structure Files.Works (x : Files t ε) : Prop where
  devices : ∀ n, (x.sink n).Works
  formats : ∀ n record, ∃ text, (x.sink n).formatter.format record [] = .returned text

/-- The call when the writer does not fail. -/
def served : Request → Call (WriteError ε)
  | .writeRecord record => .writeRecord record .ok .ok
  | .flush => .flush (.ok ())

theorem eq_served {call : Call (WriteError ε)} {request : Request} (h : call.Served)
    (hrequest : call.request = some request) : call = served request := by
  cases call with
  | writeRecord record text newline =>
    obtain ⟨rfl, rfl⟩ := h
    obtain rfl := Option.some.inj hrequest
    rfl
  | flush reply =>
    cases h
    obtain rfl := Option.some.inj hrequest
    rfl
  | capturedOutput => cases hrequest

theorem map_served {calls : List (Call (WriteError ε))} {requests : List Request}
    (h : ∀ call ∈ calls, call.Served) (hrequests : calls.map Call.request = requests.map some) :
    calls = requests.map served := by
  induction calls generalizing requests with
  | nil =>
    obtain rfl := List.map_eq_nil_iff.mp hrequests.symm
    rfl
  | cons call calls ih =>
    cases requests with
    | nil => cases hrequests
    | cons request requests =>
      obtain ⟨hrequest, hrest⟩ := List.cons.inj hrequests
      obtain ⟨hcall, hcalls⟩ := List.forall_mem_cons.mp h
      rw [eq_served hcall hrequest, ih hcalls hrest]
      rfl

namespace Files
variable (x : Files t ε)

/-- The sinks without their buffers. -/
def streams : Streams t (WriteError ε) where
  sink n := (x.sink n).unbuffered
  metadata := x.metadata
  replies _ _ _ := ⟨.ok, .ok, .ok ()⟩

/-- What a call asks of its sink. Its level is a constant. -/
def requestOf (c : SinkCall t) : Option Request :=
  match c.method with
  | .level => none
  | .write => some (.writeRecord (x.streams.record c.record))
  | .flush => some .flush

/-- What the worker asks of sink `n` in `calls`. -/
def requests (n : ℕ) (calls : List (SinkCall t)) : List Request :=
  (calls.filter fun c => c.sink = n).filterMap x.requestOf

/-- Sink `n` when the worker has made `calls`. -/
def after (n : ℕ) (calls : List (SinkCall t)) : BufferedSink ε :=
  (x.sink n).after (x.requests n calls)

/-- What the call returns when `sink` is the sink that is called. -/
def answer (sink : BufferedSink ε) (c : SinkCall t) : Outcome Unit Unit :=
  ((x.requestOf c).map fun request => (sink.step request).1.mapErr fun _ => ()).getD (.ok ())

theorem callOf_eq (c : SinkCall t) : x.streams.callOf c = (x.requestOf c).map served := by
  unfold Streams.callOf requestOf
  cases c.method <;> rfl

variable {x}

theorem Works.served (h : x.Works) : x.streams.Served := ⟨fun _ _ _ => rfl, h.formats⟩

/-- The buffers make no difference to what the sinks accept. -/
theorem Works.after_unbuffered (h : x.Works) (n : ℕ) (calls : List (SinkCall t)) :
    (x.after n calls).unbuffered = x.streams.after n calls ∧ (x.after n calls).Works := by
  obtain ⟨served, hrequests, -, hafter, hworks⟩ := after_refines (x.sink n) (x.requests n calls)
  obtain ⟨hserved, hend⟩ := hworks (h.devices n)
  refine ⟨?_, hend⟩
  rw [after, ← hafter, map_served hserved hrequests, Streams.after, requests]
  congr 1
  rw [List.map_filterMap]
  exact List.filterMap_congr fun c _ => (x.callOf_eq c).symm

/-- Each record that the worker writes it flushes at once. -/
def Flushes (requests : List Request) : Prop :=
  ∃ records : List Formatter.LogRecord,
    requests = records.flatMap fun record => [.writeRecord record, .flush]

theorem Flushes.append {requests requests' : List Request} (h : Flushes requests)
    (h' : Flushes requests') : Flushes (requests ++ requests') := by
  obtain ⟨records, rfl⟩ := h
  obtain ⟨records', rfl⟩ := h'
  exact ⟨records ++ records', List.flatMap_append.symm⟩

theorem requests_append (x : Files t ε) (n : ℕ) (calls calls' : List (SinkCall t)) :
    x.requests n (calls ++ calls') = x.requests n calls ++ x.requests n calls' := by
  unfold requests
  rw [List.filter_append, List.filterMap_append]

theorem flushes_remaining (x : Files t ε) {script : ℕ → SinkScript} {recordLevel : LogLevel}
    (f : Fanout t) (sinks : List ℕ)
    (h : ∀ q m, sinks[q]? = some m →
      script (f.position + q) = ⟨some (x.sink m).level, .ok (), .ok ()⟩) :
    Flushes (x.requests n (f.remaining script recordLevel sinks)) := by
  induction sinks generalizing f with
  | nil => exact ⟨[], rfl⟩
  | cons m sinks ih =>
    have hrest := ih f.next fun q m' hq => by
      have hscript := h (q + 1) m' hq
      rwa [show f.position + (q + 1) = f.next.position + q by simp [Fanout.next]; omega] at hscript
    have hround := Streams.visitSink_served (x.sink m).level recordLevel
    rw [← show script f.position = _ from h 0 m rfl] at hround
    have hhead :
        Flushes (x.requests n (f.calls m (visitSink (script f.position) recordLevel))) := by
      rw [hround]
      by_cases hm : m = n
      · split
        · exact ⟨[], by simp [requests, requestOf, Fanout.calls, hm]⟩
        · refine ⟨[x.streams.record f.record], ?_⟩
          simp [requests, requestOf, Fanout.calls, hm, List.filterMap_cons]
      · refine ⟨[], ?_⟩
        split <;> simp [requests, Fanout.calls, hm]
    have hpanicked : (visitSink (script f.position) recordLevel).panicked = false := by
      rw [hround]
      split <;> rfl
    rw [Fanout.remaining, hpanicked, if_neg (by decide), requests_append]
    exact hhead.append hrest

/-- Every fan-out ends with a flush of the sinks that it has written to. -/
theorem flushes_finished (hs : (system cfg level).Reachable s) (hx : Plays cfg x.streams s)
    (h : x.Works) : Flushes (x.requests n (s.finished cfg).calls) := by
  rw [dispatched hs, dispatchAll_eq]
  show Flushes (x.requests n ((s.dispatches cfg).flatMap Dispatch.calls))
  have hflushes : ∀ d ∈ s.dispatches cfg, Flushes (x.requests n d.calls) := by
    intro d hd
    obtain ⟨p, -, hp⟩ := List.mem_filterMap.mp hd
    rw [Dispatch.calls_eq]
    refine flushes_remaining x _ _ fun q m hq => ?_
    have hscript := hx.script p.1 p.2 d hp q m hq
    rw [h.served.script] at hscript
    show d.script (0 + q) = _
    rw [Nat.zero_add]
    exact hscript
  generalize s.dispatches cfg = ds at hflushes
  induction ds with
  | nil => exact ⟨[], rfl⟩
  | cons d ds ih =>
    rw [List.flatMap_cons, requests_append]
    exact (hflushes d List.mem_cons_self).append (ih fun d' hd' =>
      hflushes d' (List.mem_cons_of_mem _ hd'))

/-- Then nothing is left in a buffer. -/
theorem Flushes.onDevice {sink : BufferedSink ε} {requests : List Request}
    (h : Flushes requests) (hw : sink.Works)
    (hempty : sink.onDevice = sink.unbuffered.capturedOutput) :
    (sink.after requests).onDevice = (sink.after requests).unbuffered.capturedOutput := by
  obtain ⟨records, rfl⟩ := h
  rcases List.eq_nil_or_concat' records with rfl | ⟨front, record, rfl⟩
  · exact hempty
  · let before := (front.flatMap fun r => [Request.writeRecord r, .flush]) ++ [.writeRecord record]
    have hlast : (front ++ [record]).flatMap (fun r => [.writeRecord r, .flush]) =
        before ++ [.flush] := by
      rw [List.flatMap_append, List.append_assoc]
      rfl
    obtain ⟨calls, -, -, -, hworks⟩ := after_refines sink before
    rw [hlast, sink.after_append]
    exact flush_reaches_device (hworks hw).2.flush_ok

/-- The verdicts of the calls are what the buffered sinks give in the states that the calls before
had left them in. -/
theorem answers (hs : (system cfg level).Reachable s) (hx : Plays cfg x.streams s) (h : x.Works)
    {before rest : List (SinkCall t)} {c : SinkCall t} (hsplit : s.calls = before ++ c :: rest) :
    c.verdict = x.answer (x.after c.sink before) c := by
  have hc : c ∈ s.calls := hsplit ▸ List.mem_append_right _ List.mem_cons_self
  obtain ⟨d, hd, hsink, -, -, hverdict⟩ := dispatch_of_call hs hc
  rw [hx.script _ _ d hd _ _ hsink, h.served.script] at hverdict
  obtain ⟨hreturns, -⟩ := returns_of_mem_visitSink hverdict
  have hok (request : Request) : ((x.after c.sink before).step request).1 = .ok () := by
    obtain ⟨hafter, hworks⟩ := h.after_unbuffered c.sink before
    refine hworks.step_ok (fun record => ?_) request
    have hformatter : (x.after c.sink before).formatter = (x.sink c.sink).formatter :=
      (congrArg StreamSink.formatter hafter).trans (StreamSink.after_formatter _ _)
    rw [hformatter]
    exact h.formats c.sink record
  unfold answer requestOf
  cases hm : c.method with
  | level =>
    rw [hm] at hreturns
    exact hreturns
  | write =>
    rw [hm] at hreturns
    show c.verdict = ((x.after c.sink before).step _).1.mapErr _
    rw [hok]
    exact hreturns
  | flush =>
    rw [hm] at hreturns
    show c.verdict = ((x.after c.sink before).step _).1.mapErr _
    rw [hok]
    exact hreturns

end Files

/-- What the worker has put into the files when `run` has returned, after the flag was stored in
`s₁`. -/
structure Complete (cfg : Config t) (x : Files t ε) (s₁ s : State t)
    (order : List (Entry t × RawDecodedRecord t)) : Prop where
  merged : Merges (takenFrom cfg s) order
  committed : ∀ i th, s₁.threads[i]? = some th →
    decodedOf cfg i th.committed <+: takenFrom cfg s i
  answers : ∀ before c rest, s.calls = before ++ c :: rest →
    c.verdict = x.answer (x.after c.sink before) c
  content : ∀ n, (x.after n s.calls).onDevice =
    (x.sink n).onDevice ++ order.flatMap fun r => x.streams.lines cfg n r.2

/-- Nothing waits in a buffer when the process ends. -/
theorem shutdown_completes_files {x : Files t ε} (hwait : cfg.waitForDrain = true)
    (h₁ : (system cfg level).Reachable s₁) (hflag : s₁.shutdownFlag = false) {es : List (Event t)}
    (hrun : (system cfg level).runFrom s₁.shutdown es = some s) (hdone : s.worker = .done)
    (hx : Plays cfg x.streams s) (h : x.Works)
    (hempty : ∀ n, (x.sink n).state.data.writer.buffer = []) :
    ∃ order, Complete cfg x s₁ s order := by
  have hdown : (system cfg level).Reachable s₁.shutdown := h₁.step (e := .shutdown) rfl
  have hs := hdown.runFrom hrun
  obtain ⟨k, hinv⟩ := backend_invariant hs
  refine ⟨_, merges_taken hinv, fun i th => committed_taken hwait h₁ hflag hrun hdone,
    fun _ _ _ => Files.answers hs hx h, fun n => ?_⟩
  have hstart : (x.sink n).onDevice = (x.sink n).unbuffered.capturedOutput := by
    rw [StreamSink.capturedOutput_eq]
    show _ = _ ++ (x.sink n).state.data.writer.buffer
    rw [hempty, List.append_nil]
    rfl
  have hflushes := Files.flushes_finished (n := n) hs hx h
  rw [finished_of_done hdone] at hflushes
  calc (x.after n s.calls).onDevice
      = (x.after n s.calls).unbuffered.capturedOutput :=
        hflushes.onDevice (h.devices n) hstart
    _ = (x.streams.after n (s.finished cfg).calls).capturedOutput := by
        rw [(h.after_unbuffered n s.calls).1, finished_of_done hdone]
    _ = _ := by
        rw [finished_output hs hx h.served n, hstart]
        rfl

/-- Two sinks. Their buffers are shorter than the lines, and the devices take them in parts. -/
def messageFiles : Files small Unit where
  sink n := .new (patternFormatter ⟨fun _ => [], fun _ => []⟩ [.field ⟨.level, .default⟩,
    .literal [' '], .field ⟨.message, .default⟩]) (if n = 0 then .trace else .error)
    (.new 4 ⟨[], [.taken 3, .interrupted, .taken 2], []⟩)
  metadata p := ⟨if p = 0x3000 then .error else .info, "got {}".toList, [], 0, []⟩

theorem messageFiles_works : messageFiles.Works := by
  refine ⟨fun n => ⟨?_, nofun⟩, fun _ _ => ⟨_, rfl⟩⟩
  show ∀ reply ∈ ([.taken 3, .interrupted, .taken 2] : List (DeviceReply Unit)), _
  decide

theorem messageFiles_plays (s : State small) :
    Plays (pairConfig argumentText) messageFiles.streams s := by
  refine ⟨fun i j d hd p n hn => ?_, fun p => rfl⟩
  rw [sinks_of_pairConfig hd hn]
  rfl

/-- What is in the two files. -/
def contents (s : State small) : List (List UInt8) :=
  [0, 1].map fun n => (messageFiles.after n s.calls).onDevice

theorem shutdown_completes_files_in_parts :
    ∃ s₁ s, (pairSystem argumentText).run alternatingRun = some s₁ ∧
      (pairSystem argumentText).runFrom s₁.shutdown (.replicate 36 .work) = some s ∧
      contents s = alternatingOutput ∧
      ∃ order, Complete (pairConfig argumentText) messageFiles s₁ s order := by
  have hrun : ((pairSystem argumentText).run alternatingRun).bind (fun s₁ =>
      ((pairSystem argumentText).runFrom s₁.shutdown (.replicate 36 .work)).map fun s =>
        (s₁.shutdownFlag, contents s, s.worker)) =
      some (false, alternatingOutput, .done) := by decide +kernel
  obtain ⟨s₁, h₁, hrun⟩ := Option.bind_eq_some_iff.mp hrun
  obtain ⟨s, hs, hvalues⟩ := Option.map_eq_some_iff.mp hrun
  simp only [Prod.mk.injEq] at hvalues
  obtain ⟨hflag, houtput, hdone⟩ := hvalues
  exact ⟨s₁, s, h₁, hs, houtput, shutdown_completes_files rfl ⟨_, h₁⟩ hflag hs hdone
    (messageFiles_plays s) messageFiles_works fun _ => rfl⟩

end Insomnilog.Output
