import Insomnilog.Backend.Fanout
import Insomnilog.Framing.RecordQueue
import Insomnilog.Lib.StepSystem

/-! Producer threads, the consumer registry, and the loop of `BackendRunner::run`. A
step of a thread or of the worker performs at most one load or store of shared state,
apart from the bytes of a record, which nobody else touches meanwhile. -/
namespace Insomnilog.Backend
open ByteStore Wire Queue Framing Frontend

def MAX_BATCH_PER_CONSUMER : ℕ := 32

/-- The options of the backend, the loggers and call sites by address, and the user's
code: decoders and sinks as they behave for the record `index` of a thread. -/
structure Config (t : Target) where
  queueCapacity : BitVec t.bits
  /-- What `queue::new` returns for this capacity, if it does not panic. -/
  queue : Spsc t.bits
  created : Queue.new t.checks queueCapacity = some queue
  fits : 2 * roundUp queueCapacity.toNat < 2 ^ t.bits
  waitForDrain : Bool
  logger : t.Ptr → Logger
  levelOf : t.Ptr → LogLevel
  decoders : (thread index argument : ℕ) → Decoders t
  sink : (thread index position : ℕ) → SinkScript

/-- A record, with the level its logger had at the check. -/
structure Entry (t : Target) where
  record : LoggedRecord t
  loggerLevel : LogLevel
  deriving DecidableEq

/-- Where a thread is in a log call. -/
inductive Phase (t : Target) where
  | idle
  /-- The level check has passed. -/
  | checked (e : Entry t)
  /-- The write has its slice. -/
  | writing (off : ℕ) (e : Entry t)
  /-- The write was refused, and is still to be counted. -/
  | refused (e : Entry t)
  deriving DecidableEq

/-- A thread with its queue, which is in use once it is registered. The last five fields
record history: the committed records and their places, what decoding gave for those
taken, and how many calls passed the level check and were rejected. -/
structure Thread (t : Target) where
  q : Spsc t.bits
  registered : Bool
  alive : Bool
  phase : Phase t
  committed : List (Entry t)
  chunks : List Chunk
  results : List (Decoded (RawDecodedRecord t))
  passed : ℕ
  rejected : ℕ
  deriving DecidableEq

/-- Where the worker is. `down` is the flag as loaded at the top of the pass. -/
inductive Worker (t : Target) where
  | top
  | snapshot (down : Bool)
  /-- Before the next consumer of the snapshot. -/
  | visit (down : Bool) (rest : List ℕ)
  /-- In `drain_consumer`, with `budget` records left in the batch. -/
  | poll (down : Bool) (thread budget : ℕ) (rest : List ℕ)
  /-- In `try_read_one`, after its first `available`. -/
  | peek (down : Bool) (thread budget : ℕ) (avail : BitVec t.bits) (rest : List ℕ)
  /-- There, before `read`. -/
  | read (down : Bool) (thread budget totalLen : ℕ) (rest : List ℕ)
  /-- In `read`, whose closure has returned. -/
  | advance (down : Bool) (thread budget totalLen : ℕ)
      (result : Decoded (RawDecodedRecord t)) (rest : List ℕ)
  | fanout (down : Bool) (budget : ℕ) (rest : List ℕ) (f : Fanout t) (sinks : List ℕ)
  /-- In `retire_dead_consumers`, the registry being locked. -/
  | retire (down : Bool) (kept rest : List ℕ)
  /-- There, after `alive` was found cleared. -/
  | retireDead (down : Bool) (kept : List ℕ) (thread : ℕ) (rest : List ℕ)
  /-- Before `any_queues_pending` takes its lock. -/
  | beforePending
  /-- There, the registry being locked. -/
  | pending (rest : List ℕ)
  | done
  /-- A panic has left `run`. -/
  | unwound
  deriving DecidableEq

def Worker.locksRegistry : Worker t → Bool
  | .retire .. => true
  | .retireDead .. => true
  | .pending .. => true
  | _ => false

/-- `mark` and `calls` and `fanned` record history: how many records each thread had
committed when the flag was first stored, the calls to sinks, and the records given to
`fanout_to_sinks`. -/
structure State (t : Target) where
  threads : List (Thread t)
  consumers : List ℕ
  level : t.Ptr → LogLevel
  shutdownFlag : Bool
  worker : Worker t
  writeErrors : ℕ
  flushErrors : ℕ
  panicCount : ℕ
  droppedRecords : ℕ
  mark : Option (List ℕ)
  calls : List (SinkCall t)
  fanned : List (ℕ × ℕ)

/-- A step of one thread that does not touch the registry. -/
inductive Action (t : Target) where
  | check (r : LoggedRecord t)
  | reserve
  | commit
  | count
  | exit
  deriving DecidableEq

inductive Event (t : Target) where
  | spawn
  | register (thread : ℕ)
  | act (thread : ℕ) (a : Action t)
  | setLevel (logger : t.Ptr) (level : LogLevel)
  | shutdown
  | work
  deriving DecidableEq

variable {t : Target}

/-- The enriched record built in `process_record`. -/
def Config.logRecord (cfg : Config t) (raw : RawDecodedRecord t) : LogRecord t :=
  ⟨raw.timestampNs, (cfg.logger raw.loggerPtr).name, raw.metadata, raw.args⟩

namespace Thread

def withConsumer (th : Thread t) (c : Consumer t.bits) : Thread t :=
  { th with q := { th.q with consumer := c } }

def available (th : Thread t) : BitVec t.bits × Thread t :=
  let (avail, c) := Queue.available th.q.inner th.q.consumer
  (avail, th.withConsumer c)

/-- The read position moves over a record for which decoding gave `result`. -/
def advance (th : Thread t) (totalLen : ℕ) (result : Decoded (RawDecodedRecord t)) : Thread t :=
  let (inner, c) := Queue.advance th.q.inner th.q.consumer (BitVec.ofNat t.bits totalLen)
  { th with q := { th.q with inner, consumer := c }, results := th.results ++ [result] }

@[simp] theorem advance_results (th : Thread t) (totalLen : ℕ)
    (result : Decoded (RawDecodedRecord t)) :
    (th.advance totalLen result).results = th.results ++ [result] := rfl

/-- The level check of a log call, for a call site at `level`. -/
def check (th : Thread t) (level loggerLevel : LogLevel) (r : LoggedRecord t) : Thread t :=
  if loggerLevel ≤ level then
    { th with phase := .checked ⟨r, loggerLevel⟩, passed := th.passed + 1 }
  else th

def reserve (th : Thread t) (e : Entry t) : Thread t :=
  match tryReserve th.q.inner th.q.producer (BitVec.ofNat t.bits e.record.size) with
  | (none, p) => { th with q := { th.q with producer := p }, phase := .refused e }
  | (some off, p) =>
      { th with q := { th.q with producer := p }, phase := .writing off.toNat e }

/-- The closure's stores into the reserved slice, and the commit. -/
def commit (th : Thread t) (off : ℕ) (e : Entry t) : Thread t :=
  let bytes := applyStores (slice th.q.inner.buf off e.record.size) e.record.stores
  let stored := { th.q.inner with buf := splice th.q.inner.buf off bytes }
  let (inner, p) := Queue.commit stored th.q.producer (BitVec.ofNat t.bits e.record.size)
  { th with
    q := { th.q with inner, producer := p }
    phase := .idle
    committed := th.committed ++ [e]
    chunks := th.chunks ++ [⟨off, bytes⟩] }

def act (cfg : Config t) (level : t.Ptr → LogLevel) (th : Thread t) :
    Action t → Option (Thread t)
  | .check r =>
    match th.phase with
    | .idle =>
        if th.alive then some (th.check (cfg.levelOf r.metadataPtr) (level r.loggerPtr) r) else none
    | _ => none
  | .reserve =>
    match th.phase with
    | .checked e => if th.registered then some (th.reserve e) else none
    | _ => none
  | .commit =>
    match th.phase with
    | .writing off e => some (th.commit off e)
    | _ => none
  | .count =>
    match th.phase with
    | .refused _ => some { th with phase := .idle, rejected := th.rejected + 1 }
    | _ => none
  | .exit =>
    match th.phase with
    | .idle => some { th with alive := false }
    | _ => none

end Thread

namespace State

def setThread (s : State t) (i : ℕ) (th : Thread t) : State t :=
  { s with threads := s.threads.set i th }

def spawn (cfg : Config t) (s : State t) : State t :=
  { s with threads := s.threads ++ [⟨cfg.queue, false, true, .idle, [], [], [], 0, 0⟩] }

/-- The push in `create_producer`. -/
def register (s : State t) (i : ℕ) (th : Thread t) : Option (State t) :=
  if s.worker.locksRegistry || th.registered || !th.alive then none
  else some { s.setThread i { th with registered := true } with consumers := s.consumers ++ [i] }

/-- The store of the flag. The mark is set by the first one. -/
def shutdown (s : State t) : State t :=
  { s with
    shutdownFlag := true
    mark := s.mark.or (some (s.threads.map fun th => th.committed.length)) }

/-- `process_record` up to the fan-out. -/
def processRecord (cfg : Config t) (s : State t) (down : Bool) (thread index budget : ℕ)
    (rest : List ℕ) (raw : RawDecodedRecord t) : State t :=
  { s with
    fanned := s.fanned ++ [(thread, index)]
    worker := .fanout down budget rest ⟨thread, index, cfg.logRecord raw, 0⟩
      (cfg.logger raw.loggerPtr).sinks }

/-- The `peek` of the header, and the early return on the length it announces. -/
def peekHeader (s : State t) (down : Bool) (thread budget : ℕ) (avail : BitVec t.bits)
    (rest : List ℕ) (th : Thread t) : State t :=
  match peek t.checks th.q.inner th.q.consumer (BitVec.ofNat t.bits (RecordHeader.SIZE t)) with
  | none => { s with worker := .unwound }
  | some (headerBytes, c) =>
    let s := s.setThread thread (th.withConsumer c)
    let header := RecordHeader.readUnaligned t headerBytes
    match (t.add (RecordHeader.SIZE t) header.encodedArgsSize.toNat : Outcome Unit ℕ) with
    | .ok totalLen => { s with
        worker := if avail.toNat < totalLen then .visit down rest
          else .read down thread budget totalLen rest }
    | _ => { s with worker := .unwound }

/-- `read` up to the return of its closure. A panic of the decoder leaves the read
position where it was. -/
def readRecord (cfg : Config t) (s : State t) (down : Bool) (thread budget totalLen : ℕ)
    (rest : List ℕ) (th : Thread t) : State t :=
  let (avail, c) := Queue.available th.q.inner th.q.consumer
  let s := s.setThread thread (th.withConsumer c)
  if t.checks && decide (avail.toNat < totalLen) then { s with worker := .unwound }
  else
    let bytes := slice th.q.inner.buf (readOffset th.q.inner c) totalLen
    match decodeRecord t (cfg.decoders thread th.results.length) bytes with
    | .panic => { s with worker := .unwound }
    | result => { s with worker := .advance down thread budget totalLen result rest }

/-- The rest of `read`, the final `.ok()`, and what `drain_consumer` does with the value. -/
def finishRead (cfg : Config t) (s : State t) (down : Bool) (thread budget totalLen : ℕ)
    (result : Decoded (RawDecodedRecord t)) (rest : List ℕ) (th : Thread t) : State t :=
  let index := th.results.length
  let s := s.setThread thread (th.advance totalLen result)
  match result with
  | .ok raw => s.processRecord cfg down thread index budget rest raw
  | _ => { s with worker := .visit down rest }

/-- One sink of a fan-out, or its end. -/
def fanoutStep (cfg : Config t) (s : State t) (down : Bool) (budget : ℕ) (rest : List ℕ)
    (f : Fanout t) : List ℕ → State t
  | [] => { s with worker := .poll down f.thread budget rest }
  | sink :: sinks =>
      let v := visitSink (cfg.sink f.thread f.index f.position) (cfg.levelOf f.record.metadata)
      { s with
        calls := s.calls ++ f.calls sink v
        writeErrors := s.writeErrors + v.writeErrors
        flushErrors := s.flushErrors + v.flushErrors
        panicCount := s.panicCount + v.panicked.toNat
        worker :=
          if v.panicked then .poll down f.thread budget rest
          else .fanout down budget rest f.next sinks }

/-- The worker's next step. -/
def work (cfg : Config t) (s : State t) : Option (State t) :=
  match s.worker with
  | .top => some { s with
      worker := if s.shutdownFlag && !cfg.waitForDrain then .done else .snapshot s.shutdownFlag }
  | .snapshot down => some { s with worker := .visit down s.consumers }
  | .visit down [] => some { s with worker := .retire down [] s.consumers }
  | .visit down (i :: rest) => some { s with worker := .poll down i MAX_BATCH_PER_CONSUMER rest }
  | .poll down _ 0 rest => some { s with worker := .visit down rest }
  | .poll down i (budget + 1) rest =>
      (s.threads[i]?).map fun th =>
        let (avail, th) := th.available
        { s.setThread i th with
          worker :=
            if avail.toNat < RecordHeader.SIZE t then .visit down rest
            else .peek down i budget avail rest }
  | .peek down i budget avail rest =>
      (s.threads[i]?).map (s.peekHeader down i budget avail rest)
  | .read down i budget totalLen rest =>
      (s.threads[i]?).map (s.readRecord cfg down i budget totalLen rest)
  | .advance down i budget totalLen result rest =>
      (s.threads[i]?).map (s.finishRead cfg down i budget totalLen result rest)
  | .fanout down budget rest f sinks => some (s.fanoutStep cfg down budget rest f sinks)
  | .retire down kept [] => some { s with
      consumers := kept
      worker := if down then .beforePending else .top }
  | .retire down kept (i :: rest) =>
      (s.threads[i]?).map fun th => { s with
        worker :=
          if th.alive then .retire down (kept ++ [i]) rest else .retireDead down kept i rest }
  | .retireDead down kept i rest =>
      (s.threads[i]?).map fun th =>
        let (avail, th) := th.available
        { s.setThread i th with
          worker := .retire down (if 0 < avail.toNat then kept ++ [i] else kept) rest }
  | .beforePending => some { s with worker := .pending s.consumers }
  | .pending [] => some { s with worker := .done }
  | .pending (i :: rest) =>
      (s.threads[i]?).map fun th =>
        let (avail, th) := th.available
        { s.setThread i th with worker := if 0 < avail.toNat then .top else .pending rest }
  | .done => none
  | .unwound => none

end State

/-- What a step of a thread adds to `dropped_records`. -/
def Action.dropped : Action t → ℕ
  | .count => 1
  | _ => 0

def step (cfg : Config t) (s : State t) : Event t → Option (State t)
  | .spawn => some (s.spawn cfg)
  | .register i => (s.threads[i]?).bind (s.register i)
  | .act i a =>
      (s.threads[i]?).bind fun th => (th.act cfg s.level a).map fun th =>
        { s.setThread i th with droppedRecords := s.droppedRecords + a.dropped }
  | .setLevel logger level => some { s with level := Function.update s.level logger level }
  | .shutdown => some s.shutdown
  | .work => s.work cfg

/-- All runs of a started backend whose loggers have the given levels at first. -/
def system (cfg : Config t) (level : t.Ptr → LogLevel) : StepSystem (State t) (Event t) where
  init :=
    { threads := []
      consumers := []
      level
      shutdownFlag := false
      worker := .top
      writeErrors := 0
      flushErrors := 0
      panicCount := 0
      droppedRecords := 0
      mark := none
      calls := []
      fanned := [] }
  step := step cfg

end Insomnilog.Backend
