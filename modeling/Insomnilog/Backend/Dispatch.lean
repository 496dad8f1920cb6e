import Insomnilog.Backend.Delivery

/-! `fanout_to_sinks` as a whole, over any sequence of records: what each sink is called with,
what the error counters count, and that a sink that fails does not reach the others. -/
namespace Insomnilog.Backend
open Wire Frontend

variable {t : Target} {cfg : Config t} {level : t.Ptr → LogLevel} {k i x : ℕ} {s s' : State t}

/-- The calls that sinks were given, and the error counters. -/
structure Tally (t : Target) where
  calls : List (SinkCall t)
  writeErrors : ℕ
  flushErrors : ℕ
  panicCount : ℕ

/-- A round is recorded. -/
def Tally.add (tally : Tally t) (f : Fanout t) (sink : ℕ) (v : Visit) : Tally t where
  calls := tally.calls ++ f.calls sink v
  writeErrors := tally.writeErrors + v.writeErrors
  flushErrors := tally.flushErrors + v.flushErrors
  panicCount := tally.panicCount + v.panicked.toNat

/-- `fanout_to_sinks` from the sink at `f.position` on. A panic ends the loop, and is caught and
counted. -/
def fanoutToSinks (script : ℕ → SinkScript) (recordLevel : LogLevel) (f : Fanout t)
    (tally : Tally t) : List ℕ → Tally t
  | [] => tally
  | sink :: sinks =>
    let v := visitSink (script f.position) recordLevel
    if v.panicked then tally.add f sink v
    else fanoutToSinks script recordLevel f.next (tally.add f sink v) sinks

/-- A record on its way to the sinks of its logger, with what they do for it by position. -/
structure Dispatch (t : Target) where
  thread : ℕ
  index : ℕ
  record : LogRecord t
  level : LogLevel
  sinks : List ℕ
  script : ℕ → SinkScript

namespace Dispatch

def start (d : Dispatch t) : Fanout t := ⟨d.thread, d.index, d.record, 0⟩

def run (d : Dispatch t) (tally : Tally t) : Tally t :=
  fanoutToSinks d.script d.level d.start tally d.sinks

/-- The calls that the record alone leads to. -/
def calls (d : Dispatch t) : List (SinkCall t) := (d.run ⟨[], 0, 0, 0⟩).calls

/-- One of its sinks panics, if the ones before do not. -/
def panics (d : Dispatch t) : Bool :=
  (List.range d.sinks.length).any fun p => (d.script p).panics d.level

end Dispatch

/-- One record after the other. -/
def dispatchAll (ds : List (Dispatch t)) (tally : Tally t) : Tally t :=
  ds.foldl (fun tally d => d.run tally) tally

/-- Calls are recorded, each error by its counter. -/
def Tally.extend (tally : Tally t) (calls : List (SinkCall t)) : Tally t where
  calls := tally.calls ++ calls
  writeErrors := tally.writeErrors + calls.countP (SinkCall.failed .write)
  flushErrors := tally.flushErrors + calls.countP (SinkCall.failed .flush)
  panicCount := tally.panicCount + calls.countP SinkCall.panicked

theorem Tally.extend_nil (tally : Tally t) : tally.extend [] = tally := by
  simp [Tally.extend]

theorem Tally.extend_append (tally : Tally t) (calls calls' : List (SinkCall t)) :
    tally.extend (calls ++ calls') = (tally.extend calls).extend calls' := by
  simp only [Tally.extend, List.append_assoc, List.countP_append, Nat.add_assoc]

theorem Tally.add_eq (tally : Tally t) (f : Fanout t) (sink : ℕ) (script : SinkScript)
    (recordLevel : LogLevel) : tally.add f sink (visitSink script recordLevel) =
      tally.extend (f.calls sink (visitSink script recordLevel)) := by
  obtain ⟨hwrite, hflush, hpanic⟩ := visitSink_counts script recordLevel
  simp only [Tally.add, Tally.extend, Fanout.countP_calls, hwrite, hflush, hpanic]
  rfl

/-- The loop records the calls of the rest of the fan-out. -/
theorem fanoutToSinks_eq (script : ℕ → SinkScript) (recordLevel : LogLevel) (f : Fanout t)
    (tally : Tally t) (sinks : List ℕ) : fanoutToSinks script recordLevel f tally sinks =
      tally.extend (f.remaining script recordLevel sinks) := by
  induction sinks generalizing f tally with
  | nil => exact tally.extend_nil.symm
  | cons sink sinks ih =>
    simp only [fanoutToSinks, Fanout.remaining, Tally.add_eq, ih]
    split
    · rw [List.append_nil]
    · rw [Tally.extend_append]

namespace Dispatch

theorem calls_eq (d : Dispatch t) : d.calls = d.start.remaining d.script d.level d.sinks := by
  rw [calls, run, fanoutToSinks_eq]
  rfl

theorem run_eq (d : Dispatch t) (tally : Tally t) : d.run tally = tally.extend d.calls := by
  rw [calls_eq, run, fanoutToSinks_eq]

end Dispatch

theorem dispatchAll_eq (ds : List (Dispatch t)) (tally : Tally t) :
    dispatchAll ds tally = tally.extend (ds.flatMap Dispatch.calls) := by
  induction ds generalizing tally with
  | nil => exact tally.extend_nil.symm
  | cons d ds ih =>
    calc dispatchAll (d :: ds) tally = dispatchAll ds (tally.extend d.calls) := by
          rw [← d.run_eq]; rfl
      _ = tally.extend ((d :: ds).flatMap Dispatch.calls) := by
          rw [ih, ← Tally.extend_append, List.flatMap_cons]

namespace Fanout
variable {script : ℕ → SinkScript} {recordLevel : LogLevel} {f : Fanout t} {sinks : List ℕ}

/-- A sink is called only if none before it panics. -/
theorem quiet_before {c : SinkCall t} (h : c ∈ f.remaining script recordLevel sinks) :
    f.position ≤ c.position ∧
      ∀ q, f.position ≤ q → q < c.position → (script q).panics recordLevel = false := by
  induction sinks generalizing f with
  | nil => cases h
  | cons sink sinks ih =>
    simp only [remaining, List.mem_append] at h
    rcases h with h | h
    · obtain ⟨x, -, rfl⟩ := List.mem_map.mp h
      exact ⟨le_rfl, fun q hle hlt => absurd hle (Nat.not_le.mpr hlt)⟩
    · split at h
      · cases h
      next hround =>
        rw [(visitSink_spec _ _).1, Bool.not_eq_true] at hround
        obtain ⟨hle, hquiet⟩ := ih h
        have hle' : f.position + 1 ≤ c.position := hle
        refine ⟨by omega, fun q hq hlt => ?_⟩
        rcases hq.eq_or_lt with rfl | hq
        · exact hround
        · exact hquiet q hq hlt

/-- A sink that is reached is called as in its round. -/
theorem countP_remaining {p : ℕ} (hle : f.position ≤ p) (hlt : p < f.position + sinks.length)
    (hquiet : ∀ q, f.position ≤ q → q < p → (script q).panics recordLevel = false) (m : Method) :
    (f.remaining script recordLevel sinks).countP (fun c => c.position = p && c.method = m) =
      (visitSink (script p) recordLevel).steps.countP fun x => x.1 = m := by
  induction sinks generalizing f with
  | nil => exact absurd hle (Nat.not_le.mpr hlt)
  | cons sink sinks ih =>
    have hcalls : (f.calls sink (visitSink (script f.position) recordLevel)).countP
        (fun c => c.position = p && c.method = m) =
        (visitSink (script f.position) recordLevel).steps.countP
          fun x => f.position = p && x.1 = m := f.countP_calls _ _ _
    rw [remaining, List.countP_append, hcalls]
    rcases hle.eq_or_lt with rfl | hgt
    · have hzero : (if (visitSink (script f.position) recordLevel).panicked then []
          else f.next.remaining script recordLevel sinks).countP
            (fun c => c.position = f.position && c.method = m) = 0 := by
        refine List.countP_eq_zero.mpr fun c hc => ?_
        split at hc
        · cases hc
        · have hpos : f.position + 1 ≤ c.position := (quiet_before hc).1
          simp [Nat.ne_of_gt hpos]
      rw [hzero]
      simp
    · have hround : (visitSink (script f.position) recordLevel).panicked = false := by
        rw [(visitSink_spec _ _).1]
        exact hquiet _ le_rfl hgt
      have hrest := ih (f := f.next) hgt
        (by rw [List.length_cons] at hlt; show _ < _ + 1 + _; omega)
        fun q hq => hquiet q (Nat.le_of_succ_le hq)
      rw [hround, if_neg (by decide), hrest]
      simp [hgt.ne]

/-- Exactly one call panics, if a sink that is reached does. -/
theorem countP_panicked (f : Fanout t) (sinks : List ℕ) :
    (f.remaining script recordLevel sinks).countP SinkCall.panicked =
      ((List.range' f.position sinks.length).any fun p => (script p).panics recordLevel).toNat := by
  induction sinks generalizing f with
  | nil => rfl
  | cons sink sinks ih =>
    have hcount := (visitSink_counts (script f.position) recordLevel).2.2
    have hround := (visitSink_spec (script f.position) recordLevel).1
    have hcalls : (f.calls sink (visitSink (script f.position) recordLevel)).countP
        SinkCall.panicked = (visitSink (script f.position) recordLevel).panicked.toNat := by
      rw [countP_calls, hcount]
      rfl
    rw [remaining, List.countP_append, hcalls, hround, List.length_cons, List.range'_succ,
      List.any_cons]
    cases (script f.position).panics recordLevel with
    | true => rfl
    | false => exact (Nat.zero_add _).trans (ih f.next)

end Fanout

namespace Dispatch

/-- The calls of a method to the sink at position `p`. -/
def callsAt (d : Dispatch t) (p : ℕ) (m : Method) : ℕ :=
  d.calls.countP fun c => c.position = p && c.method = m

/-- What the sinks are called with for one record. -/
structure FansOut (d : Dispatch t) : Prop where
  place : ∀ c ∈ d.calls, d.sinks[c.position]? = some c.sink ∧ c.record = d.record
  written : ∀ p < d.sinks.length, (∀ q ≤ p, (d.script q).panics d.level = false) →
    d.callsAt p .write = ((d.script p).accepts d.level).toNat
  flushed : ∀ p < d.sinks.length, (∀ q ≤ p, (d.script q).panics d.level = false) →
    d.callsAt p .flush = ((d.script p).accepts d.level && (d.script p).write = .ok ()).toNat
  abandoned : ∀ p q, q < p → (d.script q).panics d.level = true → ∀ c ∈ d.calls, c.position ≠ p

theorem fansOut (d : Dispatch t) : d.FansOut := by
  have hround (p : ℕ) (hp : p < d.sinks.length)
      (hquiet : ∀ q ≤ p, (d.script q).panics d.level = false) (m : Method) :
      d.callsAt p m = (visitSink (d.script p) d.level).steps.countP fun x => x.1 = m := by
    rw [callsAt, calls_eq]
    exact Fanout.countP_remaining (Nat.zero_le p) (hp.trans_eq (Nat.zero_add _).symm)
      (fun q _ hlt => hquiet q hlt.le) m
  refine ⟨fun c hc => ?_, fun p hp hquiet => ?_, fun p hp hquiet => ?_, ?_⟩
  · rw [calls_eq] at hc
    obtain ⟨-, hrecord, hmem, -⟩ := Fanout.mem_remaining hc
    exact ⟨List.mk_mem_zipIdx_iff_getElem?.mp hmem, hrecord⟩
  · rw [hround p hp hquiet]
    exact ((visitSink_spec _ _).2 (hquiet p le_rfl)).1
  · rw [hround p hp hquiet]
    exact ((visitSink_spec _ _).2 (hquiet p le_rfl)).2
  · rintro p q hlt hpanics c hc rfl
    rw [calls_eq] at hc
    rw [(Fanout.quiet_before hc).2 q (Nat.zero_le q) hlt] at hpanics
    cases hpanics

theorem countP_panicked (d : Dispatch t) : d.calls.countP SinkCall.panicked = d.panics.toNat := by
  rw [calls_eq, Fanout.countP_panicked, panics, List.range_eq_range']
  rfl

/-- `d'` differs from `d` in what sink `x` returns, but not in where it panics. -/
structure Alike (x : ℕ) (d d' : Dispatch t) : Prop where
  same : d' = { d with script := d'.script }
  others : ∀ p y, d.sinks[p]? = some y → y ≠ x → d'.script p = d.script p
  level : ∀ p, d.sinks[p]? = some x → (d'.script p).level = (d.script p).level
  write : ∀ p, d.sinks[p]? = some x →
    ((d'.script p).write = .panic ↔ (d.script p).write = .panic)
  flush : ∀ p, d.sinks[p]? = some x →
    ((d'.script p).flush = .panic ↔ (d.script p).flush = .panic)
  /-- The write decides whether a flush that panics is called. -/
  reached : ∀ p, d.sinks[p]? = some x → (d.script p).flush = .panic →
    (d'.script p).write = (d.script p).write

theorem Alike.panics {d d' : Dispatch t} (h : Alike x d d') {p : ℕ} {y : ℕ}
    (hy : d.sinks[p]? = some y) : (d'.script p).panics d.level = (d.script p).panics d.level := by
  by_cases hx : y = x
  · subst hx
    have hwrite := h.write p hy
    have hflush := h.flush p hy
    have hreached := h.reached p hy
    unfold SinkScript.panics SinkScript.accepts
    rw [h.level p hy]
    by_cases hpanic : (d.script p).flush = .panic
    · rw [hreached hpanic, hpanic, hflush.mpr hpanic]
    · have hpanic' : (d'.script p).flush ≠ .panic := fun h => hpanic (hflush.mp h)
      simp [hpanic, hpanic', hwrite]
  · rw [h.others p y hy hx]

end Dispatch

/-- The calls to the other sinks are the same from any position on. -/
theorem Fanout.remaining_isolated {script script' : ℕ → SinkScript} {recordLevel : LogLevel}
    {y : ℕ} (hne : y ≠ x) (f : Fanout t) (sinks : List ℕ)
    (hothers : ∀ p z, sinks[p]? = some z → z ≠ x →
      script' (f.position + p) = script (f.position + p))
    (hpanics : ∀ p z, sinks[p]? = some z → (script' (f.position + p)).panics recordLevel =
      (script (f.position + p)).panics recordLevel) :
    (f.remaining script' recordLevel sinks).filter (fun c => c.sink = y) =
      (f.remaining script recordLevel sinks).filter (fun c => c.sink = y) := by
  induction sinks generalizing f with
  | nil => rfl
  | cons sink sinks ih =>
    have hround : (visitSink (script' f.position) recordLevel).panicked =
        (visitSink (script f.position) recordLevel).panicked := by
      rw [(visitSink_spec _ _).1, (visitSink_spec _ _).1]
      exact hpanics 0 sink rfl
    have hcalls : (f.calls sink (visitSink (script' f.position) recordLevel)).filter
          (fun c => c.sink = y) =
        (f.calls sink (visitSink (script f.position) recordLevel)).filter fun c => c.sink = y := by
      by_cases hsink : sink = x
      · have hnone (v : Visit) : (f.calls sink v).filter (fun c => c.sink = y) = [] := by
          refine List.filter_eq_nil_iff.mpr fun c hc => ?_
          obtain ⟨_, -, rfl⟩ := List.mem_map.mp hc
          simpa [hsink] using Ne.symm hne
        rw [hnone, hnone]
      · have hsame : script' f.position = script f.position := hothers 0 sink rfl hsink
        rw [hsame]
    have hrest := ih f.next
      (fun p z hz hzx => by
        have := hothers (p + 1) z hz hzx
        rwa [Nat.add_comm p 1, ← Nat.add_assoc] at this)
      (fun p z hz => by
        have := hpanics (p + 1) z hz
        rwa [Nat.add_comm p 1, ← Nat.add_assoc] at this)
    rw [remaining, remaining, List.filter_append, List.filter_append, hcalls, hround]
    split
    · rfl
    · rw [hrest]

theorem Dispatch.Alike.isolated {d d' : Dispatch t} (h : d.Alike x d') {y : ℕ} (hne : y ≠ x) :
    d'.calls.filter (fun c => c.sink = y) = d.calls.filter fun c => c.sink = y := by
  have hsame := h.same
  rw [calls_eq, calls_eq, hsame]
  refine Fanout.remaining_isolated hne d.start d.sinks (fun p z hz hzx => ?_) fun p z hz => ?_
  · rw [show d.start.position + p = p from Nat.zero_add p]
    exact h.others p z hz hzx
  · rw [show d.start.position + p = p from Nat.zero_add p]
    exact h.panics hz

/-- What dispatching a sequence of records adds to the calls and the counters, and that sinks
which return `Ok` or `Err` do not reach each other. -/
structure DispatchesAll (ds : List (Dispatch t)) (tally : Tally t) : Prop where
  calls : (dispatchAll ds tally).calls = tally.calls ++ ds.flatMap Dispatch.calls
  fansOut : ∀ d ∈ ds, d.FansOut
  writeErrors : (dispatchAll ds tally).writeErrors =
    tally.writeErrors + (ds.flatMap Dispatch.calls).countP (SinkCall.failed .write)
  flushErrors : (dispatchAll ds tally).flushErrors =
    tally.flushErrors + (ds.flatMap Dispatch.calls).countP (SinkCall.failed .flush)
  panicCount : (dispatchAll ds tally).panicCount = tally.panicCount + ds.countP Dispatch.panics
  isolated : ∀ x ds', List.Forall₂ (Dispatch.Alike x) ds ds' → ∀ y, y ≠ x →
    (dispatchAll ds' tally).calls.filter (fun c => c.sink = y) =
      (dispatchAll ds tally).calls.filter fun c => c.sink = y

/-- For any records and loggers, and for any outcomes of the calls to their sinks. -/
theorem fanout_isolates_sinks (ds : List (Dispatch t)) (tally : Tally t) :
    DispatchesAll ds tally := by
  have hall (ds : List (Dispatch t)) : (dispatchAll ds tally).calls =
      tally.calls ++ ds.flatMap Dispatch.calls := by rw [dispatchAll_eq]; rfl
  refine
    { calls := hall ds
      fansOut := fun d _ => d.fansOut
      writeErrors := by rw [dispatchAll_eq]; rfl
      flushErrors := by rw [dispatchAll_eq]; rfl
      panicCount := ?_
      isolated := fun x ds' h y hne => ?_ }
  · rw [dispatchAll_eq]
    show tally.panicCount + _ = _
    congr 1
    induction ds with
    | nil => rfl
    | cons d ds ih =>
      rw [List.flatMap_cons, List.countP_append, ih, d.countP_panicked, List.countP_cons,
        Nat.add_comm]
      cases d.panics <;> rfl
  · rw [hall, hall, List.filter_append, List.filter_append]
    congr 1
    induction h with
    | nil => rfl
    | cons hd _ ih =>
      rw [List.flatMap_cons, List.flatMap_cons, List.filter_append, List.filter_append, ih,
        hd.isolated hne]

/-- A record for two sinks, the first of which returns `write` and `flush`. -/
def twoSinks (write flush : Outcome Unit Unit) : Dispatch small where
  thread := 0
  index := 0
  record := ⟨9, "root", 0x1000, []⟩
  level := .info
  sinks := [0, 1]
  script := fun p => if p = 0 then ⟨some .trace, write, flush⟩ else ⟨some .trace, .ok (), .ok ()⟩

/-- The second sink is called as before when the first one fails to write. -/
theorem fanout_isolates_sinks_failing_write :
    (dispatchAll [twoSinks (.ok ()) (.err ())] ⟨[], 0, 0, 0⟩).calls.filter (fun c => c.sink = 1) =
      (dispatchAll [twoSinks (.err ()) (.err ())] ⟨[], 0, 0, 0⟩).calls.filter
        fun c => c.sink = 1 := by
  have hothers : ∀ p y, (twoSinks (.err ()) (.err ())).sinks[p]? = some y → y ≠ 0 →
      (twoSinks (.ok ()) (.err ())).script p = (twoSinks (.err ()) (.err ())).script p := by
    intro p y hy hne
    rcases p with - | p
    · exact absurd (Option.some.inj hy).symm hne
    · rfl
  have hcall (w f : Outcome Unit Unit) (p : ℕ) : ((twoSinks w f).script p).level = some .trace := by
    rcases p with - | p <;> rfl
  have halike : (twoSinks (.err ()) (.err ())).Alike 0 (twoSinks (.ok ()) (.err ())) := by
    refine ⟨rfl, hothers, fun p _ => by rw [hcall, hcall], fun p _ => ?_, fun p _ => ?_,
      fun p _ => ?_⟩
    all_goals rcases p with - | p <;> simp [twoSinks]
  exact (fanout_isolates_sinks [twoSinks (.err ()) (.err ())] ⟨[], 0, 0, 0⟩).isolated 0
    [twoSinks (.ok ()) (.err ())] (.cons halike .nil) 1 (by decide)

/-- When the write of the first sink returns `Ok` and not `Err`, its flush is called, which
panics, and the second sink loses the record. -/
theorem flush_panic_reaches_other_sink :
    (twoSinks (.err ()) .panic).callsAt 1 .write = 1 ∧
      (twoSinks (.ok ()) .panic).callsAt 1 .write = 0 ∧
      (twoSinks (.ok ()) .panic).calls.filter (fun c => c.sink = 1) ≠
        (twoSinks (.err ()) .panic).calls.filter fun c => c.sink = 1 := by decide

/-! What the worker has recorded in a run is the dispatch of the records it has taken. -/

def State.tally (s : State t) : Tally t := ⟨s.calls, s.writeErrors, s.flushErrors, s.panicCount⟩

/-- The tally after the fan-out under way, if there is one. -/
def State.finished (cfg : Config t) (s : State t) : Tally t :=
  match s.worker with
  | .fanout _ _ _ f sinks =>
      fanoutToSinks (cfg.sink f.thread f.index) (cfg.levelOf f.record.metadata) f s.tally sinks
  | _ => s.tally

def Config.dispatch (cfg : Config t) (i j : ℕ) (raw : RawDecodedRecord t) : Dispatch t where
  thread := i
  index := j
  record := cfg.logRecord raw
  level := cfg.levelOf raw.metadata
  sinks := (cfg.logger raw.loggerPtr).sinks
  script := cfg.sink i j

/-- Record `p.2` of thread `p.1`, if it was committed and decodes. -/
def State.dispatchOf (cfg : Config t) (s : State t) (p : ℕ × ℕ) : Option (Dispatch t) :=
  (s.threads[p.1]?).bind fun th => (th.committed[p.2]?).bind fun e =>
    match e.record.decoded (cfg.decoders p.1 p.2) with
    | .ok raw => some (cfg.dispatch p.1 p.2 raw)
    | _ => none

/-- The records given to `fanout_to_sinks`, in this order. -/
def State.dispatches (cfg : Config t) (s : State t) : List (Dispatch t) :=
  s.fanned.filterMap (s.dispatchOf cfg)

theorem fanoutStep_finished (down : Bool) (budget : ℕ) (rest : List ℕ) (f : Fanout t)
    (sinks : List ℕ) : (s.fanoutStep cfg down budget rest f sinks).finished cfg =
      fanoutToSinks (cfg.sink f.thread f.index) (cfg.levelOf f.record.metadata) f s.tally
        sinks := by
  cases sinks with
  | nil => rfl
  | cons sink sinks =>
    unfold State.fanoutStep fanoutToSinks
    cases hp : (visitSink (cfg.sink f.thread f.index f.position)
      (cfg.levelOf f.record.metadata)).panicked
    all_goals
      simp only [State.finished, hp, Bool.false_eq_true, if_false, if_true, Tally.add]
      rfl

def Worker.dispatching : Worker t → Bool
  | .fanout .. => true
  | _ => false

theorem finished_of_not_dispatching (h : s.worker.dispatching = false) :
    s.finished cfg = s.tally := by
  unfold State.finished
  split
  next hs => rw [hs] at h; cases h
  next => rfl

theorem finished_congr (h : s.worker.dispatching = false) (h' : s'.worker.dispatching = false)
    (htally : s'.tally = s.tally) : s'.finished cfg = s.finished cfg := by
  rw [finished_of_not_dispatching h, finished_of_not_dispatching h', htally]

/-- A step of the worker hands a record over, or leaves the tally it will have in the end. -/
theorem work_finished (hw : s.work cfg = some s') :
    (s'.fanned = s.fanned ∧ s'.finished cfg = s.finished cfg) ∨
      ∃ down i budget totalLen raw rest th,
        s.worker = .advance down i budget totalLen (.ok raw) rest ∧ s.threads[i]? = some th ∧
        s'.fanned = s.fanned ++ [(i, th.results.length)] ∧
        s'.finished cfg = (cfg.dispatch i th.results.length raw).run (s.finished cfg) := by
  unfold State.work at hw
  split at hw
  case h_9 d rest hs =>
    obtain ⟨th, hi, rfl⟩ := Option.map_eq_some_iff.mp hw
    have hidle : s.worker.dispatching = false := by rw [hs]; rfl
    cases d with
    | ok raw =>
      refine .inr ⟨_, _, _, _, raw, _, th, hs, hi, rfl, ?_⟩
      rw [finished_of_not_dispatching hidle]
      rfl
    | _ => exact .inl ⟨rfl, finished_congr hidle rfl rfl⟩
  case h_10 down budget rest f sinks hs =>
    cases hw
    refine .inl ⟨by cases sinks <;> rfl, ?_⟩
    rw [fanoutStep_finished, State.finished, hs]
  case h_7 hs =>
    obtain ⟨th, hi, rfl⟩ := Option.map_eq_some_iff.mp hw
    have hidle : s.worker.dispatching = false := by rw [hs]; rfl
    unfold State.peekHeader
    split
    · exact .inl ⟨rfl, finished_congr hidle rfl rfl⟩
    · dsimp only
      split
      · refine .inl ⟨rfl, finished_congr hidle ?_ rfl⟩
        dsimp only
        split <;> rfl
      · exact .inl ⟨rfl, finished_congr hidle rfl rfl⟩
  case h_8 hs =>
    obtain ⟨th, hi, rfl⟩ := Option.map_eq_some_iff.mp hw
    have hidle : s.worker.dispatching = false := by rw [hs]; rfl
    unfold State.readRecord
    dsimp only
    split
    · exact .inl ⟨rfl, finished_congr hidle rfl rfl⟩
    · split <;> exact .inl ⟨rfl, finished_congr hidle rfl rfl⟩
  case h_6 hs | h_12 hs | h_13 hs | h_16 hs =>
    obtain ⟨th, hi, rfl⟩ := Option.map_eq_some_iff.mp hw
    refine .inl ⟨rfl, finished_congr (by rw [hs]; rfl) ?_ rfl⟩
    dsimp only
    split <;> rfl
  case h_1 hs | h_11 hs =>
    cases hw
    refine .inl ⟨rfl, finished_congr (by rw [hs]; rfl) ?_ rfl⟩
    dsimp only
    split <;> rfl
  case h_17 | h_18 => cases hw
  all_goals
    next hs =>
      cases hw
      exact .inl ⟨rfl, finished_congr (by rw [hs]; rfl) rfl rfl⟩

theorem step_tally {e : Event t} (he : step cfg s e = some s') (hne : e ≠ .work) :
    s'.fanned = s.fanned ∧ s'.finished cfg = s.finished cfg := by
  cases e with
  | register i =>
    obtain ⟨th, -, hr⟩ := Option.bind_eq_some_iff.mp he
    unfold State.register at hr
    split at hr <;> cases hr
    exact ⟨rfl, rfl⟩
  | act i a =>
    obtain ⟨th, -, hr⟩ := Option.bind_eq_some_iff.mp he
    obtain ⟨th', -, rfl⟩ := Option.map_eq_some_iff.mp hr
    exact ⟨rfl, rfl⟩
  | work => exact absurd rfl hne
  | _ =>
    cases he
    exact ⟨rfl, rfl⟩

/-- A record that was handed over stays the same. -/
theorem dispatchOf_grows (hg : Grows s s') {p : ℕ × ℕ} {d : Dispatch t}
    (h : s.dispatchOf cfg p = some d) : s'.dispatchOf cfg p = some d := by
  obtain ⟨th, hi, h⟩ := Option.bind_eq_some_iff.mp h
  obtain ⟨e, he, h⟩ := Option.bind_eq_some_iff.mp h
  obtain ⟨th', hi', es, hes⟩ := hg.committed p.1 th hi
  have he' : th'.committed[p.2]? = some e := by
    rw [← hes, List.getElem?_append_left (List.getElem?_eq_some_iff.mp he).choose]
    exact he
  rw [State.dispatchOf, hi', Option.bind_some, he', Option.bind_some]
  exact h

/-- The dispatch of a record that has been decoded. -/
theorem dispatchOf_decoded {th : Thread t} {j : ℕ} {e : Entry t} {raw : RawDecodedRecord t}
    (hi : s.threads[i]? = some th) (he : th.committed[j]? = some e)
    (hraw : e.record.decoded (cfg.decoders i j) = .ok raw) :
    s.dispatchOf cfg (i, j) = some (cfg.dispatch i j raw) := by
  simp only [State.dispatchOf, hi, Option.bind_some, he, hraw]

theorem BackendInv.dispatchOf_fanned (h : BackendInv cfg k s) {p : ℕ × ℕ} (hp : p ∈ s.fanned) :
    ∃ d, s.dispatchOf cfg p = some d := by
  have hi := List.getElem?_eq_getElem (h.fanned p hp)
  have hf := h.threads p.1 _ hi
  have hmem : p ∈ s.fanned.filter fun q => q.1 = p.1 :=
    List.mem_filter.mpr ⟨hp, by simp⟩
  rw [hf.fanned] at hmem
  obtain ⟨j, raw, hj, hmem⟩ := mem_overDecoded hmem
  obtain ⟨-, e, he, hraw⟩ := hf.inv.results j _ hj
  rw [List.mem_singleton.mp hmem]
  exact ⟨_, dispatchOf_decoded hi he hraw.symm⟩

theorem BackendInv.dispatches_append (h : BackendInv cfg k s) (hg : Grows s s')
    {new : List (ℕ × ℕ)} (hf : s'.fanned = s.fanned ++ new) :
    s'.dispatches cfg = s.dispatches cfg ++ new.filterMap (s'.dispatchOf cfg) := by
  rw [State.dispatches, hf, List.filterMap_append, State.dispatches]
  congr 1
  refine List.filterMap_congr fun p hp => ?_
  obtain ⟨d, hd⟩ := h.dispatchOf_fanned hp
  rw [hd, dispatchOf_grows hg hd]

/-- In every reachable state the calls and counters are those of dispatching the records taken
so far one after the other, as soon as the fan-out under way is finished. -/
theorem dispatched (hs : (system cfg level).Reachable s) :
    s.finished cfg = dispatchAll (s.dispatches cfg) ⟨[], 0, 0, 0⟩ := by
  refine hs.invariant (I := fun s => s.finished cfg = dispatchAll (s.dispatches cfg) ⟨[], 0, 0, 0⟩)
    rfl fun s e s' hs ih he => ?_
  obtain ⟨k, h⟩ := backend_invariant hs
  have hg := step_grows hs he
  have hsame (hf : s'.fanned = s.fanned) : s'.dispatches cfg = s.dispatches cfg := by
    have hnone := h.dispatches_append hg (hf.trans (List.append_nil _).symm)
    rwa [List.filterMap_nil, List.append_nil] at hnone
  by_cases hwork : e = .work
  · subst hwork
    rcases work_finished he with
      ⟨hf, hfin⟩ | ⟨down, i, budget, totalLen, raw, rest, th, hs, hi, hf, hfin⟩
    · rw [hfin, hsame hf]
      exact ih
    · have hok := h.worker
      rw [hs] at hok
      obtain ⟨e, off, he', -, -, -, hraw, -⟩ := hok.2.2.get hi
      have hd := dispatchOf_grows hg (dispatchOf_decoded hi he' hraw.symm)
      have hnew : [(i, th.results.length)].filterMap (s'.dispatchOf cfg) =
          [cfg.dispatch i th.results.length raw] := by simp [hd]
      rw [h.dispatches_append hg hf, hnew, dispatchAll, List.foldl_append, hfin, ih]
      rfl
  · obtain ⟨hf, hfin⟩ := step_tally he hwork
    rw [hfin, hsame hf]
    exact ih

end Insomnilog.Backend
