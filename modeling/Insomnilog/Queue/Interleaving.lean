import Insomnilog.Lib.StepSystem
import Insomnilog.Queue.Invariant

/-! One producer and one consumer running interleaved. A step performs at most one
access to shared state: a load or store of a position, one byte stored by the
write closure, or one byte read from a slice the consumer holds. -/
namespace Insomnilog.Queue
open ByteStore RingPosition

/-- Where the producer is inside `Producer::write`. -/
inductive ProducerPhase (w : ℕ) where
  | idle
  /-- The closure is running on its reserved slice. -/
  | writing (off : ℕ) (n : BitVec w)
  /-- The closure has returned and left `bytes`; the commit is still to come. -/
  | returned (off : ℕ) (n : BitVec w) (bytes : List UInt8)
  deriving DecidableEq

inductive Access where
  | peek
  | read
  deriving DecidableEq, Repr

/-- Single bytes read from a slice so far, as index and value. -/
abbrev Observations := List (ℕ × UInt8)

inductive ConsumerPhase (w : ℕ) where
  | idle
  | holding (a : Access) (off : ℕ) (len : BitVec w) (seen : Observations)
  deriving DecidableEq

/-- A finished `peek` or `read`: the requested length and what was seen of it. -/
structure View where
  len : ℕ
  seen : Observations
  deriving DecidableEq

/-- `written`, `reads` and `peeks` record history; no step of the code reads them
apart from the caller's obligation on the lengths it asks for. A peek is recorded
with the number of reads completed before it. -/
structure State (w : ℕ) where
  q : Spsc w
  producer : ProducerPhase w
  consumer : ConsumerPhase w
  written : List Chunk
  reads : List View
  peeks : List (ℕ × View)
  deriving DecidableEq

inductive Event (w : ℕ) where
  | reserve (n : BitVec w)
  | store (i : ℕ) (b : UInt8)
  | closureReturn
  | commit
  | available
  | acquire (a : Access) (len : BitVec w)
  | observe (i : ℕ)
  | release
  deriving DecidableEq

/-- The read granularity contract: a `read` takes exactly the next chunk, a `peek`
any prefix of it. -/
def Access.Permits (a : Access) (len : ℕ) (c : Chunk) : Prop :=
  match a with
  | .peek => len ≤ c.len
  | .read => len = c.len

instance (a : Access) (len : ℕ) (c : Chunk) : Decidable (a.Permits len c) := by
  unfold Access.Permits
  split <;> infer_instance

variable {w : ℕ}

/-- Start of `Producer::write`: reserve, on success enter the closure. -/
def State.reserve (s : State w) (n : BitVec w) : State w :=
  match tryReserve s.q.inner s.q.producer n with
  | (none, p) => { s with q := { s.q with producer := p } }
  | (some off, p) => { s with q := { s.q with producer := p }, producer := .writing off.toNat n }

def State.commit (s : State w) (off : ℕ) (n : BitVec w) (bytes : List UInt8) : State w :=
  let (inner, p) := Queue.commit s.q.inner s.q.producer n
  { s with
    q := { s.q with inner, producer := p }
    producer := .idle
    written := s.written ++ [⟨off, bytes⟩] }

/-- End of a peek, or end of a read's closure followed by the store of `read_pos`. -/
def State.release (s : State w) (a : Access) (len : BitVec w) (seen : Observations) : State w :=
  match a with
  | .peek => { s with
      consumer := .idle
      peeks := s.peeks ++ [(s.reads.length, ⟨len.toNat, seen⟩)] }
  | .read =>
      let (inner, c) := advance s.q.inner s.q.consumer len
      { s with
        q := { s.q with inner, consumer := c }
        consumer := .idle
        reads := s.reads ++ [⟨len.toNat, seen⟩] }

def step (s : State w) : Event w → Option (State w)
  | .reserve n =>
    match s.producer with
    | .idle => some (s.reserve n)
    | _ => none
  | .store i b =>
    match s.producer with
    | .writing off n =>
        if i < n.toNat then
          some { s with q := { s.q with inner := { s.q.inner with
            buf := s.q.inner.buf.set (off + i) b } } }
        else none
    | _ => none
  | .closureReturn =>
    match s.producer with
    | .writing off n =>
        some { s with producer := .returned off n (slice s.q.inner.buf off n.toNat) }
    | _ => none
  | .commit =>
    match s.producer with
    | .returned off n bytes => some (s.commit off n bytes)
    | _ => none
  | .available =>
    match s.consumer with
    | .idle => some { s with q := { s.q with consumer := (available s.q.inner s.q.consumer).2 } }
    | _ => none
  | .acquire a len =>
    match s.consumer, s.written[s.reads.length]? with
    | .idle, some chunk =>
        let (avail, c) := available s.q.inner s.q.consumer
        if len ≤ avail ∧ a.Permits len.toNat chunk then
          some { s with
            q := { s.q with consumer := c }
            consumer := .holding a (readOffset s.q.inner c) len [] }
        else none
    | _, _ => none
  | .observe i =>
    match s.consumer with
    | .holding a off len seen =>
        match s.q.inner.buf[off + i]? with
        | some b =>
            if i < len.toNat then
              some { s with consumer := .holding a off len (seen ++ [(i, b)]) }
            else none
        | none => none
    | .idle => none
  | .release =>
    match s.consumer with
    | .holding a _ len seen => some (s.release a len seen)
    | .idle => none

/-- All runs of one producer and one consumer on the queue `q`. -/
def system (q : Spsc w) : StepSystem (State w) (Event w) where
  init := ⟨q, .idle, .idle, [], [], []⟩
  step := step

end Insomnilog.Queue
