import Insomnilog.Lib.Merge
import Insomnilog.Output.Streams

/-! The outputs of the sinks as a function of what the threads have logged, when no writer fails
and no formatter panics. -/
namespace Insomnilog.Output
open Backend Frontend Sink Wire
open Insomnilog.Framing (LoggedRecord)

variable {t : Target} {E : Type} {cfg : Config t} {level : t.Ptr → LogLevel} {s s₁ : State t}
  {n i : ℕ} {x : Streams t E}

/-- Those of the records `es` of thread `i` that decode, with what they decode to. -/
def decodedOf (cfg : Config t) (i : ℕ) (es : List (Entry t)) :
    List (Entry t × RawDecodedRecord t) :=
  es.zipIdx.filterMap fun p =>
    (p.1.record.decoded (cfg.decoders i p.2)).toOption.map fun raw => (p.1, raw)

/-- Those of the records that the worker has taken from thread `i`. -/
def takenFrom (cfg : Config t) (s : State t) (i : ℕ) : List (Entry t × RawDecodedRecord t) :=
  (s.threads[i]?).elim [] fun th => decodedOf cfg i (th.committed.take th.results.length)

theorem mem_decodedOf {es : List (Entry t)} {r : Entry t × RawDecodedRecord t}
    (h : r ∈ decodedOf cfg i es) : r.1 ∈ es := by
  obtain ⟨p, hp, h⟩ := List.mem_filterMap.mp h
  obtain ⟨raw, -, rfl⟩ := Option.map_eq_some_iff.mp h
  exact List.fst_mem_of_mem_zipIdx hp

theorem decodedOf_prefix {es es' : List (Entry t)} (h : es <+: es') :
    decodedOf cfg i es <+: decodedOf cfg i es' := by
  obtain ⟨rest, rfl⟩ := h
  unfold decodedOf
  rw [List.zipIdx_append, List.filterMap_append]
  exact List.prefix_append _ _

namespace Streams

/-- The line of a record in the output of sink `n`. -/
def line (x : Streams t E) (n : ℕ) (record : Formatter.LogRecord) : List UInt8 :=
  Call.line (x.sink n).formatter (.writeRecord record .ok .ok : Call E)

/-- The lines of a record in the output of sink `n`: one for each time that its logger has the
sink, if its level reaches that of the sink. -/
def lines (x : Streams t E) (cfg : Config t) (n : ℕ) (raw : RawDecodedRecord t) : List UInt8 :=
  (cfg.logger raw.loggerPtr).sinks.flatMap fun m =>
    if m = n ∧ (x.sink m).level ≤ (x.metadata raw.metadata).level then
      x.line m (x.record (cfg.logRecord raw))
    else []

/-- No writer fails and no formatter panics. -/
structure Served (x : Streams t E) : Prop where
  replies : ∀ i j p, x.replies i j p = ⟨.ok, .ok, .ok ()⟩
  formats : ∀ n record, ∃ text, (x.sink n).formatter.format record [] = .returned text

end Streams

/-- The sinks have been given the records in the same `order`, in which every thread's own order
is kept. -/
structure Renders (cfg : Config t) (x : Streams t E) (s : State t)
    (order : List (Entry t × RawDecodedRecord t)) : Prop where
  merged : Merges (takenFrom cfg s) order
  admitted : ∀ r ∈ order, r.1.loggerLevel ≤ (x.metadata r.1.record.metadataPtr).level
  /-- As soon as the fan-out under way is finished. -/
  output : ∀ n, (x.after n (s.finished cfg).calls).capturedOutput =
    (x.sink n).capturedOutput ++ order.flatMap fun r => x.lines cfg n r.2
  now : ∀ n, (x.after n s.calls).capturedOutput <+:
    (x.sink n).capturedOutput ++ order.flatMap fun r => x.lines cfg n r.2

namespace Streams

theorem Served.script (hx : x.Served) (n : ℕ) (r : Backend.LogRecord t) (i j p : ℕ) :
    x.script n r (x.replies i j p) = ⟨some (x.sink n).level, .ok (), .ok ()⟩ := by
  obtain ⟨text, htext⟩ := hx.formats n (x.record r)
  rw [Streams.script, hx.replies, StreamSink.writeRecord_returned htext, flush_result]
  rfl

theorem Served.taken (hx : x.Served) (c : SinkCall t) :
    x.taken c = if c.method = .write then x.line c.sink (x.record c.record) else [] := by
  unfold Streams.taken callOf
  cases c.method with
  | level => rfl
  | write =>
    simp only [hx.replies]
    rfl
  | flush => rfl

/-- A round with a sink that does not fail. -/
theorem visitSink_served (sinkLevel recordLevel : LogLevel) :
    visitSink ⟨some sinkLevel, .ok (), .ok ()⟩ recordLevel =
      if recordLevel < sinkLevel then ⟨[(.level, .ok ())], 0, 0, false⟩
      else ⟨[(.level, .ok ()), (.write, .ok ()), (.flush, .ok ())], 0, 0, false⟩ :=
  rfl

/-- The lines of what is left of a fan-out. -/
theorem Served.taken_remaining (hx : x.Served) {script : ℕ → SinkScript} {recordLevel : LogLevel}
    (f : Fanout t) (sinks : List ℕ)
    (h : ∀ q m, sinks[q]? = some m →
      script (f.position + q) = ⟨some (x.sink m).level, .ok (), .ok ()⟩) :
    ((f.remaining script recordLevel sinks).filter fun c => c.sink = n).flatMap x.taken =
      sinks.flatMap fun m => if m = n ∧ (x.sink m).level ≤ recordLevel then
        x.line m (x.record f.record) else [] := by
  induction sinks generalizing f with
  | nil => rfl
  | cons m sinks ih =>
    have hrest := ih f.next fun q m' hq => by
      have hscript := h (q + 1) m' hq
      rwa [show f.position + (q + 1) = f.next.position + q by simp [Fanout.next]; omega] at hscript
    have hround := visitSink_served (x.sink m).level recordLevel
    rw [← show script f.position = _ from h 0 m rfl] at hround
    have hhead : ((f.calls m (visitSink (script f.position) recordLevel)).filter
        fun c => c.sink = n).flatMap x.taken =
        if m = n ∧ (x.sink m).level ≤ recordLevel then x.line m (x.record f.record) else [] := by
      by_cases hm : m = n
      · subst hm
        by_cases hlt : recordLevel < (x.sink m).level
        · have hle : ¬ (x.sink m).level ≤ recordLevel := fun hle => LogLevel.not_lt.mpr hle hlt
          rw [hround, if_pos hlt, if_neg fun hboth => hle hboth.2]
          simp [Fanout.calls, hx.taken]
        · rw [hround, if_neg hlt, if_pos ⟨rfl, LogLevel.not_lt.mp hlt⟩]
          simp [Fanout.calls, hx.taken]
      · rw [if_neg (fun hboth => hm hboth.1), List.filter_eq_nil_iff.mpr, List.flatMap_nil]
        intro c hc
        obtain ⟨p, -, rfl⟩ := List.mem_map.mp hc
        simpa using hm
    have hpanicked : (visitSink (script f.position) recordLevel).panicked = false := by
      rw [hround]
      split <;> rfl
    rw [Fanout.remaining, hpanicked]
    rw [if_neg (by decide), List.filter_append, List.flatMap_append, hhead, hrest,
      List.flatMap_cons]
    rfl

end Streams

/-- Record `p.2` of thread `p.1`, if it decodes. -/
def decodedAt (cfg : Config t) (s : State t) (p : ℕ × ℕ) : Option (Entry t × RawDecodedRecord t) :=
  (s.threads[p.1]?).bind fun th => (th.committed[p.2]?).bind fun e =>
    (e.record.decoded (cfg.decoders p.1 p.2)).toOption.map fun raw => (e, raw)

variable {k : ℕ}

/-- The records of a thread that were handed over. -/
theorem handed_eq (h : BackendInv cfg k s) {th : Thread t} (hi : s.threads[i]? = some th) :
    (s.fanned.filter fun p => p.1 = i).filterMap (decodedAt cfg s) =
      decodedOf cfg i (th.committed.take th.results.length) := by
  have hf := h.threads i th hi
  rw [hf.fanned]
  conv_lhs => rw [hf.inv.takenInOrder.2]
  rw [overDecoded, zipIdx_map_zipIdx, List.flatMap_map, List.filterMap_flatMap, decodedOf,
    List.filterMap_eq_flatMap_toList]
  refine List.flatMap_congr fun p hp => ?_
  have hentry : th.committed[p.2]? = some p.1 := by
    have hget := List.mk_mem_zipIdx_iff_getElem?.mp hp
    rw [List.getElem?_take] at hget
    exact (Option.ite_none_right_eq_some.mp hget).2
  cases hd : p.1.record.decoded (cfg.decoders i p.2) with
  | ok raw => simp [decodedAt, hi, hentry, hd, Outcome.toOption]
  | err e => rfl
  | panic => rfl

/-- What was taken from each thread, in the order in which it was handed over. -/
theorem merges_taken (h : BackendInv cfg k s) :
    Merges (takenFrom cfg s) (s.fanned.filterMap (decodedAt cfg s)) := by
  have hparts : takenFrom cfg s = fun i =>
      (s.fanned.filter fun p => p.1 = i).filterMap (decodedAt cfg s) := by
    funext i
    unfold takenFrom
    cases hi : s.threads[i]? with
    | none =>
      rw [List.filter_eq_nil_iff.mpr fun p hp => ?_]
      · rfl
      · have hlt := h.fanned p hp
        have hle := List.getElem?_eq_none_iff.mp hi
        simp; omega
    | some th => exact (handed_eq h hi).symm
  rw [hparts]
  exact (Merges.of_key Prod.fst s.fanned).filterMap (decodedAt cfg s)

/-- What a record that was handed over adds to the output of sink `n`. -/
theorem dispatch_lines (h : BackendInv cfg k s) (hx : Plays cfg x s) (hserved : x.Served)
    {p : ℕ × ℕ} (hp : p ∈ s.fanned) : ∃ d r, s.dispatchOf cfg p = some d ∧
      decodedAt cfg s p = some r ∧
      (d.calls.filter fun c => c.sink = n).flatMap x.taken = x.lines cfg n r.2 := by
  obtain ⟨d, hd⟩ := h.dispatchOf_fanned hp
  obtain ⟨th, e, raw, hi, he, hraw, rfl⟩ := dispatchOf_eq_some hd
  refine ⟨_, (e, raw), hd, ?_, ?_⟩
  · simp [decodedAt, hi, he, hraw, Outcome.toOption]
  · have hscript (q m : ℕ) (hq : (cfg.logger raw.loggerPtr).sinks[q]? = some m) :
        cfg.sink p.1 p.2 (0 + q) = ⟨some (x.sink m).level, .ok (), .ok ()⟩ := by
      rw [Nat.zero_add, ← hserved.script m _ p.1 p.2 q]
      exact hx.script _ _ _ hd q m hq
    rw [Dispatch.calls_eq]
    refine (hserved.taken_remaining (Dispatch.start _) _ hscript).trans ?_
    show _ = (cfg.logger raw.loggerPtr).sinks.flatMap _
    rw [← hx.level]
    rfl

theorem flatMap_filterMap_congr {α β γ δ : Type*} {f : α → Option β} {g : α → Option γ}
    {F : β → List δ} {G : γ → List δ} {l : List α}
    (h : ∀ a ∈ l, ∃ b c, f a = some b ∧ g a = some c ∧ F b = G c) :
    (l.filterMap f).flatMap F = (l.filterMap g).flatMap G := by
  induction l with
  | nil => rfl
  | cons a l ih =>
    obtain ⟨b, c, hb, hc, heq⟩ := h a List.mem_cons_self
    rw [List.filterMap_cons_some hb, List.filterMap_cons_some hc, List.flatMap_cons,
      List.flatMap_cons, heq, ih fun a ha => h a (List.mem_cons_of_mem _ ha)]

/-- The calls made so far are the first ones. -/
theorem calls_prefix_finished (cfg : Config t) (s : State t) :
    s.calls <+: (s.finished cfg).calls := by
  unfold State.finished
  split
  · rw [fanoutToSinks_eq]
    exact List.prefix_append _ _
  · exact List.prefix_rfl

theorem after_prefix (n : ℕ) {calls calls' : List (SinkCall t)} (h : calls <+: calls') :
    (x.after n calls).capturedOutput <+: (x.after n calls').capturedOutput := by
  obtain ⟨rest, rfl⟩ := h
  rw [x.after_output, x.after_output, List.filter_append, List.flatMap_append, ← List.append_assoc]
  exact List.prefix_append _ _

/-- The records are handed over in one sequence, which all sinks render. -/
theorem finished_output (hs : (system cfg level).Reachable s) (hx : Plays cfg x s)
    (hserved : x.Served) (n : ℕ) :
    (x.after n (s.finished cfg).calls).capturedOutput = (x.sink n).capturedOutput ++
      (s.fanned.filterMap (decodedAt cfg s)).flatMap fun r => x.lines cfg n r.2 := by
  obtain ⟨k, h⟩ := backend_invariant hs
  rw [x.after_output, dispatched hs, dispatchAll_eq]
  congr 1
  show ((s.dispatches cfg).flatMap Dispatch.calls |>.filter _).flatMap x.taken = _
  rw [List.filter_flatMap, List.flatMap_assoc]
  exact flatMap_filterMap_congr fun p hp => dispatch_lines h hx hserved hp

/-- In every interleaving of the threads with the worker, all sinks render one sequence of the
records that decode, which keeps the order of each thread. -/
theorem streams_render_one_order (hs : (system cfg level).Reachable s) (hx : Plays cfg x s)
    (hserved : x.Served) : ∃ order, Renders cfg x s order := by
  obtain ⟨k, h⟩ := backend_invariant hs
  have hmerged := merges_taken h
  have houtput := finished_output hs hx hserved
  refine ⟨_, hmerged, fun r hr => ?_, houtput, fun n => ?_⟩
  · obtain ⟨i, hr⟩ := hmerged.mem_iff.mp hr
    unfold takenFrom at hr
    cases hi : s.threads[i]? with
    | none => simp [hi] at hr
    | some th =>
      rw [hi] at hr
      rw [← hx.level]
      have hmem := List.mem_of_mem_take (mem_decodedOf hr)
      exact (h.threads i th hi).inv.admitted r.1 (.inl hmem)
  · rw [← houtput n]
    exact after_prefix n (calls_prefix_finished cfg s)

/-- The texts of the arguments. The decoder of the last record fails. -/
def argumentText (decoder : small.Ptr) : Outcome Unit String :=
  if decoder = 1 then .ok "one" else if decoder = 2 then .ok "two" else
    if decoder = 3 then .ok "three" else .err ()

/-- Two sinks, which write to empty streams. -/
def messageStreams : Streams small Unit where
  sink n := .new (patternFormatter ⟨fun _ => [], fun _ => []⟩ [.field ⟨.level, .default⟩,
    .literal [' '], .field ⟨.message, .default⟩]) (if n = 0 then .trace else .error) []
  metadata p := ⟨if p = 0x3000 then .error else .info, "got {}".toList, [], 0, []⟩
  replies _ _ _ := ⟨.ok, .ok, .ok ()⟩

theorem messageStreams_served : messageStreams.Served :=
  ⟨fun _ _ _ => rfl, fun _ _ => ⟨_, rfl⟩⟩

theorem sinks_of_pairConfig {decode : small.Ptr → Outcome Unit String} {s : State small}
    {i j p : ℕ} {d : Dispatch small} (h : s.dispatchOf (pairConfig decode) (i, j) = some d)
    (hn : d.sinks[p]? = some n) : d.script p = (pairConfig decode).sink i j n := by
  obtain ⟨_, _, raw, _, _, _, rfl⟩ := dispatchOf_eq_some h
  have hsinks : ([0, 1] : List ℕ)[p]? = some n := hn
  obtain rfl : p = n := by
    obtain _ | _ | p := p
    · exact Option.some.inj hsinks
    · exact Option.some.inj hsinks
    · cases hsinks
  rfl

theorem messageStreams_plays (s : State small) :
    Plays (pairConfig argumentText) messageStreams s := by
  refine ⟨fun i j d hd p n hn => ?_, fun p => rfl⟩
  rw [sinks_of_pairConfig hd hn]
  rfl

/-- What the streams of the two sinks have got. -/
def messages (s : State small) : List (List UInt8) :=
  [0, 1].map fun n => (messageStreams.after n s.calls).capturedOutput

/-- The records of the two threads come in turn. The last of the four does not decode, and the
first one is not for the second sink. -/
def alternatingOutput : List (List UInt8) :=
  ["INFO got one\nERROR got two\nERROR got three\n", "ERROR got two\nERROR got three\n"].map
    fun text => asBytes text.toList

theorem streams_render_one_order_alternating :
    ∃ s, (pairSystem argumentText).run (alternatingRun ++ .replicate 24 .work) = some s ∧
      messages s = alternatingOutput ∧
      ∃ order, Renders (pairConfig argumentText) messageStreams s order := by
  have hrun : ((pairSystem argumentText).run (alternatingRun ++ .replicate 24 .work)).map messages =
      some alternatingOutput := by decide +kernel
  obtain ⟨s, hs, houtput⟩ := Option.map_eq_some_iff.mp hrun
  exact ⟨s, hs, houtput, streams_render_one_order ⟨_, hs⟩ (messageStreams_plays s)
    messageStreams_served⟩

/-- When `run` has returned after it was told to drain the queues, it has taken what was committed
before the flag was stored. -/
theorem committed_taken (hwait : cfg.waitForDrain = true) (h₁ : (system cfg level).Reachable s₁)
    (hflag : s₁.shutdownFlag = false) {es : List (Event t)}
    (hrun : (system cfg level).runFrom s₁.shutdown es = some s) (hdone : s.worker = .done)
    {th : Thread t} (hi : s₁.threads[i]? = some th) :
    decodedOf cfg i th.committed <+: takenFrom cfg s i := by
  have hdown : (system cfg level).Reachable s₁.shutdown := h₁.step (e := .shutdown) rfl
  obtain ⟨k₁, hinv₁⟩ := backend_invariant h₁
  obtain ⟨k, hinv⟩ := backend_invariant (hdown.runFrom hrun)
  have hgrows := run_grows hdown hrun
  have hnone : s₁.mark = none := by
    refine Option.not_isSome_iff_eq_none.mp ?_
    rw [← hinv₁.flag, hflag]
    decide
  have hmark : s₁.shutdown.mark = some (s₁.threads.map fun th => th.committed.length) := by
    simp [State.shutdown, hnone]
  have hok := hinv.worker
  rw [hdone] at hok
  obtain ⟨m, hm, hdrained⟩ := hok hwait
  obtain rfl := Option.some.inj ((hgrows.mark _ hmark).symm.trans hm)
  obtain ⟨th', hi', hp⟩ := hgrows.committed i th hi
  have hle : th.committed.length ≤ th'.results.length := by
    rcases hdrained i th.committed.length (by simp [hi]) with hmem | htaken
    · cases hmem
    · exact htaken.get hi'
  rw [takenFrom, hi', Option.elim_some]
  exact decodedOf_prefix (List.prefix_take_iff.mpr ⟨hp, hle⟩)

theorem finished_of_done (hdone : s.worker = .done) : (s.finished cfg).calls = s.calls := by
  rw [finished_of_not_dispatching (by rw [hdone]; rfl)]
  rfl

/-- Then the sequence that all sinks render has all these records in it, unless they do not
decode. -/
theorem shutdown_renders_all (hwait : cfg.waitForDrain = true)
    (h₁ : (system cfg level).Reachable s₁) (hflag : s₁.shutdownFlag = false) {es : List (Event t)}
    (hrun : (system cfg level).runFrom s₁.shutdown es = some s) (hdone : s.worker = .done)
    (hx : Plays cfg x s) (hserved : x.Served) :
    ∃ order, Merges (takenFrom cfg s) order ∧
      (∀ i th, s₁.threads[i]? = some th → decodedOf cfg i th.committed <+: takenFrom cfg s i) ∧
      ∀ n, (x.after n s.calls).capturedOutput =
        (x.sink n).capturedOutput ++ order.flatMap fun r => x.lines cfg n r.2 := by
  have hdown : (system cfg level).Reachable s₁.shutdown := h₁.step (e := .shutdown) rfl
  have hs := hdown.runFrom hrun
  obtain ⟨k, hinv⟩ := backend_invariant hs
  refine ⟨_, merges_taken hinv, fun i th => committed_taken hwait h₁ hflag hrun hdone, fun n => ?_⟩
  have hcalls : (s.finished cfg).calls = s.calls := finished_of_done hdone
  rw [← hcalls]
  exact finished_output hs hx hserved n

theorem shutdown_renders_all_alternating :
    ∃ s₁ s, (pairSystem argumentText).run alternatingRun = some s₁ ∧
      (pairSystem argumentText).runFrom s₁.shutdown (.replicate 36 .work) = some s ∧
      messages s = alternatingOutput ∧
      ∃ order, Merges (takenFrom (pairConfig argumentText) s) order ∧
        (∀ i th, s₁.threads[i]? = some th → decodedOf (pairConfig argumentText) i th.committed <+:
          takenFrom (pairConfig argumentText) s i) ∧
        ∀ n, (messageStreams.after n s.calls).capturedOutput =
          (messageStreams.sink n).capturedOutput ++
            order.flatMap fun r => messageStreams.lines (pairConfig argumentText) n r.2 := by
  have hrun : ((pairSystem argumentText).run alternatingRun).bind (fun s₁ =>
      ((pairSystem argumentText).runFrom s₁.shutdown (.replicate 36 .work)).map fun s =>
        (s₁.shutdownFlag, messages s, s.worker)) =
      some (false, alternatingOutput, .done) := by decide +kernel
  obtain ⟨s₁, h₁, hrun⟩ := Option.bind_eq_some_iff.mp hrun
  obtain ⟨s, hs, hvalues⟩ := Option.map_eq_some_iff.mp hrun
  simp only [Prod.mk.injEq] at hvalues
  obtain ⟨hflag, houtput, hdone⟩ := hvalues
  exact ⟨s₁, s, h₁, hs, houtput, shutdown_renders_all rfl ⟨_, h₁⟩ hflag hs hdone
    (messageStreams_plays s) messageStreams_served⟩

end Insomnilog.Output
