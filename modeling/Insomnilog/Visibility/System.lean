import Insomnilog.Lib.ReleaseAcquire
import Insomnilog.Queue.Interleaving

/-! One per-thread queue on three threads: the one that logs, the worker, and one that calls
`Backend::shutdown`, with `wait_for_drain`. The atomics are those of the C++20 memory model, which
Rust has as well: a load may return an older store, within what its ordering and that of the store
allow. -/
namespace Insomnilog.Visibility
open ByteStore Queue ReleaseAcquire

inductive Location where
  | writePos
  | readPos
  | alive
  | shutdownFlag
  deriving DecidableEq, Repr

abbrev Location.Value (w : ℕ) : Location → Type
  | .writePos => BitVec w
  | .readPos => BitVec w
  | .alive => Bool
  | .shutdownFlag => Bool

def Location.initial (w : ℕ) : (l : Location) → l.Value w
  | .writePos => 0
  | .readPos => 0
  | .alive => true
  | .shutdownFlag => false

inductive Thread where
  | producer
  | worker
  | closer
  deriving DecidableEq, Repr

instance : Fintype Thread :=
  ⟨{.producer, .worker, .closer}, fun a => by cases a <;> decide⟩

/-- The orderings of the stores to a location and of the loads from it. -/
structure Orders where
  store : StoreOrder
  load : LoadOrder
  deriving DecidableEq

/-- What the code has at each of the four locations. -/
def inCode : Location → Orders := fun _ => ⟨.release, .acquire⟩

/-- `queue` has the bytes and the newest positions. `dead` is what the last test of `alive` found,
`shuttingDown` the flag as it was last loaded. `promised` and `heard` record history: how many
commits happened before each store of the flag, and before the one that was loaded. -/
structure State (w : ℕ) where
  queue : Queue.State w
  memory : Memory Location Thread ℕ (Location.Value w)
  alive : Bool
  dead : Bool
  shuttingDown : Bool
  retired : Bool
  stopped : Bool
  promised : List ℕ
  heard : ℕ

/-- `nth` is the store that the load returns, if there is a load. -/
inductive Event (w : ℕ) where
  | reserve (n : BitVec w) (nth : ℕ)
  | store (i : ℕ) (b : UInt8)
  | closureReturn
  | commit
  | drop
  | available (nth : ℕ)
  | acquire (a : Access) (len : BitVec w) (nth : ℕ)
  | observe (i : ℕ)
  | release
  | checkAlive (nth : ℕ)
  | retain (nth : ℕ)
  | loadFlag (nth : ℕ)
  /-- The queue's part of `any_queues_pending`. -/
  | pending (nth : ℕ) (others : Bool)
  /-- What the producer has done happens before what the closer does next. -/
  | hear
  | shutdown
  deriving DecidableEq

variable {w : ℕ}

/-- Start of `Producer::write`, where a load of `read_pos` returns `readPos`. -/
def reserveWith (q : Queue.State w) (readPos : BitVec w) (n : BitVec w) : Queue.State w :=
  match tryReserve { q.q.inner with readPos } q.q.producer n with
  | (none, p) => { q with q := { q.q with producer := p } }
  | (some off, p) => { q with q := { q.q with producer := p }, producer := .writing off.toNat n }

/-- `Consumer::available`, where a load of `write_pos` returns `writePos`. -/
def availableWith (q : Queue.State w) (writePos : BitVec w) : BitVec w × Queue.State w :=
  let (avail, c) := available { q.q.inner with writePos } q.q.consumer
  (avail, { q with q := { q.q with consumer := c } })

/-- Start of a `peek` or `read`. -/
def acquireWith (q : Queue.State w) (writePos : BitVec w) (a : Access) (len : BitVec w) :
    Option (Queue.State w) :=
  match q.consumer, q.written[q.reads.length]? with
  | .idle, some chunk =>
      let (avail, q) := availableWith q writePos
      if len ≤ avail ∧ a.Permits len.toNat chunk then
        some { q with consumer := .holding a (readOffset q.q.inner q.q.consumer) len [] }
      else none
  | _, _ => none

namespace State

/-- Whether `try_reserve` loads `read_pos`, and what it gets. -/
def loadReadPos (o : Location → Orders) (s : State w) (n : BitVec w) (nth : ℕ) :
    Option (BitVec w × Memory Location Thread ℕ (Location.Value w)) :=
  let inner := s.queue.q.inner
  let p := s.queue.q.producer
  if ¬ inner.capacity < n ∧ inner.capacity - (p.write - p.cachedRead) < n then
    s.memory.load (o .readPos).load .producer .readPos nth
  else some (inner.readPos, s.memory)

/-- Whether `available` loads `write_pos`, and what it gets. -/
def loadWritePos (o : Location → Orders) (s : State w) (nth : ℕ) :
    Option (BitVec w × Memory Location Thread ℕ (Location.Value w)) :=
  let c := s.queue.q.consumer
  if c.read < c.cachedWrite then some (s.queue.q.inner.writePos, s.memory)
  else s.memory.load (o .writePos).load .worker .writePos nth

/-- The queue is off the worker's list, or the worker has left its loop, or it is about to decide
whether the queue stays. -/
def busy (s : State w) : Bool := s.retired || s.stopped || s.dead

/-- A step on the queue without load or store of an atomic. -/
def plain (s : State w) (e : Queue.Event w) : Option (State w) :=
  (Queue.step s.queue e).map fun queue => { s with queue }

/-- The address of a byte of the slice that is being written. -/
def written (s : State w) (i : ℕ) : Option (Plain ℕ) :=
  match s.queue.producer with
  | .writing off _ => some ⟨off + i, .write⟩
  | _ => none

/-- The address of a byte of the slice that is being read. -/
def observed (s : State w) (i : ℕ) : Option (Plain ℕ) :=
  match s.queue.consumer with
  | .holding _ off _ _ => some ⟨off + i, .read⟩
  | .idle => none

def access (s : State w) (a : Thread) (x : Plain ℕ) : State w :=
  { s with memory := s.memory.access a x }

def put (o : Location → Orders) (s : State w) (a : Thread) (l : Location) (value : l.Value w) :
    State w :=
  { s with memory := s.memory.store (o l).store a l value }

end State

def step (o : Location → Orders) (s : State w) : Event w → Option (State w)
  | .reserve n nth =>
    match s.queue.producer, s.alive with
    | .idle, true =>
        (s.loadReadPos o n nth).map fun (readPos, memory) =>
          { s with queue := reserveWith s.queue readPos n, memory }
    | _, _ => none
  | .store i b => (s.written i).bind fun x => (s.access .producer x).plain (.store i b)
  | .closureReturn => s.plain .closureReturn
  | .commit =>
      (s.plain .commit).map fun s' => s'.put o .producer .writePos s'.queue.q.inner.writePos
  | .drop =>
    match s.queue.producer, s.alive with
    | .idle, true => some { s.put o .producer .alive false with alive := false }
    | _, _ => none
  | .available nth =>
    match s.queue.consumer, s.busy with
    | .idle, false =>
        (s.loadWritePos o nth).map fun (writePos, memory) =>
          { s with queue := (availableWith s.queue writePos).2, memory }
    | _, _ => none
  | .acquire a len nth =>
      if s.busy then none
      else
        (s.loadWritePos o nth).bind fun (writePos, memory) =>
          (acquireWith s.queue writePos a len).map fun queue => { s with queue, memory }
  | .observe i => (s.observed i).bind fun x => (s.access .worker x).plain (.observe i)
  | .release =>
    match s.queue.consumer with
    | .holding .peek _ _ _ => s.plain .release
    | .holding .read _ _ _ =>
        (s.plain .release).map fun s' => s'.put o .worker .readPos s'.queue.q.inner.readPos
    | .idle => none
  | .checkAlive nth =>
    match s.queue.consumer, s.busy with
    | .idle, false =>
        (s.memory.load (o .alive).load .worker .alive nth).map fun (alive, memory) =>
          { s with memory, dead := !alive }
    | _, _ => none
  | .retain nth =>
    match s.queue.consumer, s.dead with
    | .idle, true =>
        (s.loadWritePos o nth).map fun (writePos, memory) =>
          let (avail, queue) := availableWith s.queue writePos
          { s with queue, memory, dead := false, retired := decide (avail = 0) }
    | _, _ => none
  | .loadFlag nth =>
    match s.queue.consumer, s.busy with
    | .idle, false =>
        (s.memory.load (o .shutdownFlag).load .worker .shutdownFlag nth).map fun (flag, memory) =>
          { s with memory, shuttingDown := flag, heard := s.promised.getD nth 0 }
    | _, _ => none
  | .pending nth others =>
    match s.queue.consumer, s.busy, s.shuttingDown with
    | .idle, false, true =>
        (s.loadWritePos o nth).map fun (writePos, memory) =>
          let (avail, queue) := availableWith s.queue writePos
          { s with queue, memory, stopped := decide (avail = 0) && !others }
    | _, _, _ => none
  | .hear => some { s with memory := s.memory.join .producer .closer }
  | .shutdown =>
      some { s.put o .closer .shutdownFlag true with
        promised := s.promised ++ [(s.memory.view .closer).seen .writePos] }

/-- All runs of the three threads on the queue `q`. -/
def system (o : Location → Orders) (q : Spsc w) : StepSystem (State w) (Event w) where
  init :=
    { queue := (Queue.system q).init
      memory := Memory.init (Location.initial w)
      alive := true
      dead := false
      shuttingDown := false
      retired := false
      stopped := false
      promised := [0]
      heard := 0 }
  step := step o

end Insomnilog.Visibility
