import Insomnilog.Backend.Shutdown

/-! What the sinks are given, when no decoder fails and no sink panics. -/
namespace Insomnilog.Backend
open ByteStore Wire Queue Framing Frontend

variable {t : Target} {cfg : Config t} {level : t.Ptr → LogLevel} {k i sink : ℕ} {s : State t}
  {th : Thread t} {script : ℕ → SinkScript} {recordLevel : LogLevel}

namespace SinkScript

/-- The level the sink returns lets the record pass. -/
def accepts (script : SinkScript) (level : LogLevel) : Bool :=
  script.level.any fun sinkLevel => sinkLevel ≤ level

structure Quiet (script : SinkScript) : Prop where
  level : script.level ≠ none
  write : script.write ≠ .panic
  flush : script.flush ≠ .panic

/-- A call that the record leads to panics. -/
def panics (script : SinkScript) (level : LogLevel) : Bool :=
  script.level.isNone ||
    script.accepts level &&
      (script.write = .panic || script.write = .ok () && script.flush = .panic)

theorem Quiet.panics_eq_false {script : SinkScript} (h : script.Quiet) (level : LogLevel) :
    script.panics level = false := by
  obtain ⟨hlevel, hwrite, hflush⟩ := h
  simp [panics, hwrite, hflush, Option.isSome_iff_ne_none, hlevel]

end SinkScript

/-- What a round calls, apart from the level: one write if the level lets the record pass, and
one flush if that write succeeds, unless a call panics. -/
theorem visitSink_spec (script : SinkScript) (level : LogLevel) :
    (visitSink script level).panicked = script.panics level ∧
      (script.panics level = false →
        (visitSink script level).steps.countP (fun p => p.1 = .write) =
          (script.accepts level).toNat ∧
        (visitSink script level).steps.countP (fun p => p.1 = .flush) =
          (script.accepts level && script.write = .ok ()).toNat) := by
  unfold visitSink SinkScript.panics SinkScript.accepts
  cases hl : script.level with
  | none => simp
  | some sinkLevel =>
    dsimp only
    by_cases hlt : level < sinkLevel
    · have hle : ¬ sinkLevel ≤ level := fun h => LogLevel.not_lt.mpr h hlt
      simp [hlt, hle]
    · have hle : sinkLevel ≤ level := LogLevel.not_lt.mp hlt
      rw [if_neg hlt]
      cases hw : script.write with
      | ok u => cases hf : script.flush <;> simp [hle]
      | err u => simp [hle]
      | panic => simp [hle]

/-- Only records that the sink's level lets pass are written. -/
theorem visitSink_write {script : SinkScript} {o : Outcome Unit Unit}
    (h : (Method.write, o) ∈ (visitSink script recordLevel).steps) :
    script.accepts recordLevel = true := by
  unfold visitSink at h
  unfold SinkScript.accepts
  cases hl : script.level with
  | none => simp [hl] at h
  | some sinkLevel =>
    by_cases hlt : recordLevel < sinkLevel
    · simp [hl, hlt] at h
    · simpa using LogLevel.not_lt.mp hlt

/-- The records written to `sink`, by their indices. -/
def writesTo (sink : ℕ) (calls : List (SinkCall t)) : List ℕ :=
  (calls.filter fun c => c.sink = sink && c.method = .write).map SinkCall.index

@[simp] theorem writesTo_nil (sink : ℕ) : writesTo sink ([] : List (SinkCall t)) = [] := rfl

@[simp] theorem writesTo_append (calls calls' : List (SinkCall t)) :
    writesTo sink (calls ++ calls') = writesTo sink calls ++ writesTo sink calls' := by
  simp [writesTo]

namespace Fanout
variable {f : Fanout t} {sinks : List ℕ}

theorem writesTo_calls (f : Fanout t) (sink' : ℕ) (v : Visit) :
    writesTo sink (f.calls sink' v) =
      List.replicate (if sink' = sink then v.steps.countP fun p => p.1 = .write else 0)
        f.index := by
  refine List.eq_replicate_iff.mpr ⟨?_, fun j hj => ?_⟩
  · rw [writesTo, List.length_map, ← List.countP_eq_length_filter, countP_calls]
    split
    next h => simp [h]
    next h => simp [h]
  · obtain ⟨c, hc, rfl⟩ := List.mem_map.mp hj
    obtain ⟨p, -, rfl⟩ := List.mem_map.mp (List.mem_filter.mp hc).1
    rfl

/-- Without panics, the rest of a fan-out writes to a sink once for each of its
occurrences that lets the record pass. -/
theorem writesTo_remaining (h : ∀ p, (script p).Quiet) (f : Fanout t) (sinks : List ℕ) :
    writesTo sink (f.remaining script recordLevel sinks) =
      List.replicate ((sinks.zipIdx f.position).countP fun p =>
        p.1 = sink && (script p.2).accepts recordLevel) f.index := by
  induction sinks generalizing f with
  | nil => rfl
  | cons sink' sinks ih =>
    obtain ⟨hpanicked, hspec⟩ := visitSink_spec (script f.position) recordLevel
    rw [(h f.position).panics_eq_false] at hpanicked hspec
    obtain ⟨hcount, -⟩ := hspec rfl
    simp only [remaining, hpanicked, Bool.false_eq_true, if_false, writesTo_append, ih f.next,
      writesTo_calls, hcount]
    simp only [next, List.zipIdx_cons, List.countP_cons, List.replicate_append_replicate]
    congr 1
    rw [Nat.add_comm]
    congr 1
    by_cases hsink : sink' = sink
    · cases (script f.position).accepts recordLevel <;> simp [hsink]
    · simp [hsink]

/-- A call of the rest of a fan-out is for its record and for the sink at its position. -/
theorem mem_remaining {c : SinkCall t} (h : c ∈ f.remaining script recordLevel sinks) :
    c.index = f.index ∧ c.record = f.record ∧ (c.sink, c.position) ∈ sinks.zipIdx f.position ∧
      (c.method = .write → (script c.position).accepts recordLevel = true) := by
  induction sinks generalizing f with
  | nil => cases h
  | cons sink' sinks ih =>
    simp only [remaining, List.mem_append] at h
    rcases h with h | h
    · obtain ⟨p, hp, rfl⟩ := List.mem_map.mp h
      refine ⟨rfl, rfl, by simp, fun hm => visitSink_write (o := p.2) ?_⟩
      rw [← hm]
      exact hp
    · split at h
      · cases h
      · obtain ⟨hindex, hrecord, hmem, hwrite⟩ := ih h
        refine ⟨hindex, hrecord, ?_, hwrite⟩
        rw [List.zipIdx_cons]
        exact List.mem_cons_of_mem _ hmem

end Fanout

theorem mem_overDecoded {α : Type*} {f : ℕ → RawDecodedRecord t → List α} {a : α}
    {results : List (Decoded (RawDecodedRecord t))} (h : a ∈ overDecoded f results) :
    ∃ j raw, results[j]? = some (.ok raw) ∧ a ∈ f j raw := by
  obtain ⟨⟨d, j⟩, hp, ha⟩ := List.mem_flatMap.mp h
  cases d with
  | ok raw => exact ⟨j, raw, List.mk_mem_zipIdx_iff_getElem?.mp hp, ha⟩
  | _ => cases ha

theorem writesTo_overDecoded (f : ℕ → RawDecodedRecord t → List (SinkCall t))
    (results : List (Decoded (RawDecodedRecord t))) :
    writesTo sink (overDecoded f results) =
      overDecoded (fun j raw => writesTo sink (f j raw)) results := by
  unfold writesTo overDecoded
  rw [List.filter_flatMap, List.map_flatMap]
  congr 1
  funext ⟨d, j⟩
  cases d <;> rfl

theorem overDecoded_congr {α : Type*} {f g : ℕ → RawDecodedRecord t → List α}
    {results : List (Decoded (RawDecodedRecord t))}
    (h : ∀ j raw, results[j]? = some (.ok raw) → f j raw = g j raw) :
    overDecoded f results = overDecoded g results := by
  refine List.flatMap_congr fun p hp => ?_
  obtain ⟨d, j⟩ := p
  cases d with
  | ok raw => exact h j raw (List.mk_mem_zipIdx_iff_getElem?.mp hp)
  | _ => rfl

theorem zipIdx_map_zipIdx {α β : Type*} (l : List α) (f : α × ℕ → β) :
    (l.zipIdx.map f).zipIdx = l.zipIdx.map fun p => (f p, p.2) := by
  refine List.ext_getElem? fun j => ?_
  rw [List.getElem?_zipIdx, List.getElem?_map, List.getElem?_map, List.getElem?_zipIdx]
  cases l[j]? <;> simp

/-- The number of sinks of its logger that record `j` of thread `i` has been through, once
it is taken. -/
def Worker.reached (i j n : ℕ) : Worker t → ℕ
  | .fanout _ _ _ f _ => if f.thread = i ∧ f.index = j then f.position else n
  | _ => n

/-- How often record `j` of thread `i` is to be written to `sink` so far: once for each
occurrence among the sinks it has been through, if its level reaches the sink's. -/
def Config.occurrences (cfg : Config t) (w : Worker t) (i j sink : ℕ) (loggerPtr metadata : t.Ptr) :
    ℕ :=
  let sinks := (cfg.logger loggerPtr).sinks
  (sinks.take (w.reached i j sinks.length)).zipIdx.countP fun p =>
    p.1 = sink && (cfg.sink i j p.2).accepts (cfg.levelOf metadata)

theorem Worker.reached_of_ne {down : Bool} {budget j n : ℕ} {rest sinks : List ℕ} {f : Fanout t}
    (h : ¬ (f.thread = i ∧ f.index = j)) :
    Worker.reached i j n (.fanout down budget rest f sinks) = n := if_neg h

/-- Outside of its fan-out a taken record has been through all sinks. -/
theorem occurrences_of_reached {w : Worker t} {j : ℕ} (h : ∀ n, w.reached i j n = n)
    (loggerPtr metadata : t.Ptr) : cfg.occurrences w i j sink loggerPtr metadata =
      cfg.occurrences .top i j sink loggerPtr metadata := by
  simp only [Config.occurrences, h]
  rfl

/-- All occurrences of `sink` that are to be written in the end. -/
theorem writesTo_callsFor (hquiet : ∀ i j p, (cfg.sink i j p).Quiet) (i j : ℕ)
    (raw : RawDecodedRecord t) : writesTo sink (cfg.callsFor i j raw) =
      List.replicate (cfg.occurrences .top i j sink raw.loggerPtr raw.metadata) j := by
  rw [Config.callsFor, Fanout.writesTo_remaining (hquiet i j), Config.occurrences]
  simp only [Worker.reached, List.take_length]

/-- What has been written and what is to come is a fan-out's share. -/
theorem writesTo_toCome (hquiet : ∀ i j p, (cfg.sink i j p).Quiet) {f : Fanout t}
    {down : Bool} {budget : ℕ} {rest sinks : List ℕ} {raw : RawDecodedRecord t}
    (hrecord : f.record = cfg.logRecord raw)
    (hsinks : sinks = (cfg.logger raw.loggerPtr).sinks.drop f.position) :
    List.replicate (cfg.occurrences .top f.thread f.index sink raw.loggerPtr raw.metadata) f.index =
      List.replicate (cfg.occurrences (.fanout down budget rest f sinks) f.thread f.index sink
        raw.loggerPtr raw.metadata) f.index ++
      writesTo sink (Worker.toCome cfg f.thread (.fanout down budget rest f sinks)) := by
  simp only [Worker.toCome, if_true, hrecord, Fanout.writesTo_remaining (hquiet _ _),
    Config.occurrences, Worker.reached, and_self, List.take_length, List.replicate_append_replicate,
    Config.logRecord]
  congr 1
  subst hsinks
  rcases Nat.le_total f.position (cfg.logger raw.loggerPtr).sinks.length with hle | hge
  · conv_lhs => rw [← List.take_append_drop f.position (cfg.logger raw.loggerPtr).sinks]
    rw [List.zipIdx_append, List.countP_append, List.length_take, Nat.min_eq_left hle,
      Nat.zero_add]
  · rw [List.take_of_length_le hge, List.drop_eq_nil_of_le hge]
    simp

/-- The sinks have been given the records of a prefix of the thread's writes, in order. -/
structure Delivered (cfg : Config t) (s : State t) (i : ℕ) (th : Thread t) : Prop where
  taken : th.TakenInOrder cfg i
  written : ∀ sink, writesTo sink (s.calls.filter fun c => c.thread = i) =
    (th.committed.take th.results.length).zipIdx.flatMap fun p =>
      List.replicate (cfg.occurrences s.worker i p.2 sink p.1.record.loggerPtr
        p.1.record.metadataPtr) p.2
  calls : ∀ c ∈ s.calls, c.thread = i → ∃ e raw, th.committed[c.index]? = some e ∧
    e.record.decoded (cfg.decoders i c.index) = .ok raw ∧ c.record = cfg.logRecord raw ∧
    (cfg.logger e.record.loggerPtr).sinks[c.position]? = some c.sink ∧
    (c.method = .write → e.loggerLevel ≤ cfg.levelOf e.record.metadataPtr ∧
      (cfg.sink i c.index c.position).accepts (cfg.levelOf e.record.metadataPtr) = true)

namespace BackendInv

theorem writesTo_results (h : BackendInv cfg k s) (hquiet : ∀ i j p, (cfg.sink i j p).Quiet)
    (hi : s.threads[i]? = some th) (sink : ℕ) :
    writesTo sink (s.calls.filter fun c => c.thread = i) = overDecoded (fun j raw =>
      List.replicate (cfg.occurrences s.worker i j sink raw.loggerPtr raw.metadata) j)
      th.results := by
  have hcalls := congrArg (writesTo sink) (h.threads i th hi).calls
  rw [writesTo_append, writesTo_overDecoded] at hcalls
  simp only [writesTo_callsFor hquiet] at hcalls
  -- unless a fan-out of this thread is under way, all sinks have been reached
  have hall (hreached : ∀ j n, s.worker.reached i j n = n) (hnil : s.worker.toCome cfg i = []) :
      writesTo sink (s.calls.filter fun c => c.thread = i) = overDecoded (fun j raw =>
        List.replicate (cfg.occurrences s.worker i j sink raw.loggerPtr raw.metadata) j)
        th.results := by
    rw [hnil, writesTo_nil, List.append_nil] at hcalls
    rw [hcalls]
    refine overDecoded_congr fun j raw _ => ?_
    rw [occurrences_of_reached (hreached j)]
  have hok := h.worker
  cases hs : s.worker with
  | fanout down budget rest f sinks =>
    rw [hs] at hok hcalls hall
    by_cases hfi : f.thread = i
    · subst hfi
      obtain ⟨pre, raw, hres, hindex, hrecord, hsinks⟩ := hok.2.2.get hi
      rw [hres] at hcalls ⊢
      rw [overDecoded_concat_ok, ← hindex, writesTo_toCome hquiet hrecord hsinks,
        ← List.append_assoc] at hcalls
      rw [List.append_cancel_right hcalls, overDecoded_concat_ok, ← hindex]
      congr 1
      refine overDecoded_congr fun j raw' hj => ?_
      have hlt := (List.getElem?_eq_some_iff.mp hj).choose
      exact congrArg (List.replicate · j) (occurrences_of_reached
        (fun n => Worker.reached_of_ne (by omega)) _ _).symm
    · exact hall (fun j n => Worker.reached_of_ne fun h => hfi h.1) (if_neg hfi)
  | _ => exact hs ▸ hall (by rw [hs]; intro j n; rfl) (by rw [hs]; rfl)

theorem delivered (h : BackendInv cfg k s)
    (hdec : ∀ i j n decoder payload, ∃ text, cfg.decoders i j n decoder payload = .ok text)
    (hquiet : ∀ i j p, (cfg.sink i j p).Quiet) (hi : s.threads[i]? = some th) :
    Delivered cfg s i th := by
  have hinv := (h.threads i th hi).inv
  refine ⟨hinv.takenInOrder, fun sink => ?_, fun c hc hthread => ?_⟩
  · rw [h.writesTo_results hquiet hi]
    conv_lhs => rw [hinv.takenInOrder.2]
    rw [overDecoded, zipIdx_map_zipIdx, List.flatMap_map]
    refine List.flatMap_congr fun p _ => ?_
    obtain ⟨raw, hraw⟩ : ∃ raw, p.1.record.decoded (cfg.decoders i p.2) = .ok raw :=
      Record.decoded_ok_iff.mpr fun _ _ _ => hdec i p.2 _ _ _
    obtain ⟨hlogger, hmetadata⟩ := Record.decoded_fields hraw
    simp only [hraw, hlogger, hmetadata]
  · have hmem : c ∈ overDecoded (cfg.callsFor i) th.results := by
      rw [← (h.threads i th hi).calls]
      exact List.mem_append_left _ (List.mem_filter.mpr ⟨hc, by simpa using hthread⟩)
    obtain ⟨j, raw, hj, hmem⟩ := mem_overDecoded hmem
    obtain ⟨hindex, hrecord, hsink, hwrite⟩ := Fanout.mem_remaining hmem
    obtain rfl : c.index = j := hindex
    obtain ⟨-, e, he, hd⟩ := hinv.results _ _ hj
    obtain ⟨hlogger, hmetadata⟩ := Record.decoded_fields hd.symm
    refine ⟨e, raw, he, hd.symm, hrecord, ?_, fun hm => ⟨?_, ?_⟩⟩
    · rw [← hlogger]
      exact List.mk_mem_zipIdx_iff_getElem?.mp hsink
    · exact hinv.admitted e (.inl (List.mem_of_getElem? he))
    · rw [← hmetadata]
      exact hwrite hm

end BackendInv

/-- In every interleaving of threads that register, log, set levels and exit with the
steps of the worker, each sink has been given exactly the records it accepts among a
prefix of each thread's writes, in order, once per occurrence of the sink. -/
theorem backend_fifo_exactly_once
    (hdec : ∀ i j n decoder payload, ∃ text, cfg.decoders i j n decoder payload = .ok text)
    (hquiet : ∀ i j p, (cfg.sink i j p).Quiet) (hs : (system cfg level).Reachable s) :
    (∀ (i : ℕ) (th : Thread t), s.threads[i]? = some th → Delivered cfg s i th) ∧
      ∀ c ∈ s.calls, c.thread < s.threads.length := by
  obtain ⟨k, h⟩ := backend_invariant hs
  exact ⟨fun i th hi => h.delivered hdec hquiet hi, h.calls⟩

section Pair

/-- A record of a call site at the level of errors. -/
def errorRecord (decoder : small.Ptr) : LoggedRecord small :=
  { customRecord decoder with metadataPtr := 0x3000 }

/-- One logger with two sinks. The second one takes errors only. -/
def pairConfig (decode : small.Ptr → Outcome Unit String) : Config small :=
  { smallConfig decode with
    logger := fun _ => ⟨"root", [0, 1]⟩
    levelOf := fun metadata => if metadata = 0x3000 then .error else .info
    sink := fun _ _ position => ⟨some (if position = 0 then .trace else .error), .ok (), .ok ()⟩ }

def pairSystem (decode : small.Ptr → Outcome Unit String) :
    StepSystem (State small) (Event small) :=
  system (pairConfig decode) fun _ => .trace

/-- Two threads log two records each. When the first one logs its second record, the worker has
already left its queue. -/
def alternatingRun : List (Event small) :=
  List.flatten [[.spawn, .register 0, .spawn, .register 1], logCall 0 (customRecord 1),
    logCall 1 (errorRecord 2), .replicate 12 .work, logCall 0 (errorRecord 3),
    logCall 1 (customRecord 4)]

end Pair

theorem backend_fifo_exactly_once_alternating :
    ∃ s, (pairSystem fun _ => .ok "one").run (alternatingRun ++ .replicate 34 .work) = some s ∧
      (s.calls.filter fun c => c.method = .write).map (fun c => (c.thread, c.index, c.sink)) =
        [(0, 0, 0), (1, 0, 0), (1, 0, 1), (1, 1, 0), (0, 1, 0), (0, 1, 1)] ∧
      (∀ (i : ℕ) (th : Thread small), s.threads[i]? = some th →
        Delivered (pairConfig fun _ => .ok "one") s i th) ∧
      ∀ c ∈ s.calls, c.thread < s.threads.length := by
  have hrun : ((pairSystem fun _ => .ok "one").run (alternatingRun ++ .replicate 34 .work)).map
      (fun s => (s.calls.filter fun c => c.method = .write).map fun c =>
        (c.thread, c.index, c.sink)) =
      some [(0, 0, 0), (1, 0, 0), (1, 0, 1), (1, 1, 0), (0, 1, 0), (0, 1, 1)] := by
    decide +kernel
  obtain ⟨s, hs, hcalls⟩ := Option.map_eq_some_iff.mp hrun
  have hquiet : ∀ i j p, ((pairConfig fun _ => .ok "one").sink i j p).Quiet := by
    intro i j p
    constructor <;> simp [pairConfig]
  exact ⟨s, hs, hcalls, backend_fifo_exactly_once (fun _ _ _ _ _ => ⟨"one", rfl⟩) hquiet ⟨_, hs⟩⟩

end Insomnilog.Backend
