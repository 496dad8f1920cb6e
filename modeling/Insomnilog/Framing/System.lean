import Insomnilog.Framing.RecordQueue
import Insomnilog.Lib.StepSystem

/-! Log calls on one thread's queue interleaved with `try_read_one` on its other end.
A step performs at most one access to shared state: a load or store of a position,
one byte stored by the writer's closure, or one byte read by the worker. -/
namespace Insomnilog.Framing
open ByteStore Wire Queue

variable {t : Target}

/-- Where a log call is: not in its write, or inside its closure with stores left. -/
inductive Writer (t : Target) where
  | idle
  | writing (off : ℕ) (r : LoggedRecord t) (pending : Stores)
  deriving DecidableEq

/-- Where `try_read_one` is. `unread` is the number of records that were committed
and unread when its first `available` returned. -/
inductive Reader (t : Target) where
  | idle
  | checked (avail : BitVec t.bits) (unread : ℕ)
  /-- Reading the peeked header bytes. -/
  | header (off : ℕ) (seen : List UInt8) (avail : BitVec t.bits) (unread : ℕ)
  | measured (totalLen : ℕ) (unread : ℕ)
  /-- In the closure of `read`, reading its bytes. -/
  | body (off totalLen : ℕ) (seen : List UInt8) (unread : ℕ)
  | decoded (result : Decoded (RawDecodedRecord t)) (totalLen : ℕ) (unread : ℕ)
  /-- A debug assertion, an overflow check or the decoder panicked. -/
  | panicked
  deriving DecidableEq

/-- How a call of `try_read_one` returned. -/
inductive Exit (t : Target) where
  /-- Fewer bytes than a header. -/
  | short
  /-- Fewer bytes than the record the header announces. -/
  | early
  | read (result : Decoded (RawDecodedRecord t))
  deriving DecidableEq

/-- The result of `decode_record`, when it came to that. -/
def Exit.result : Exit t → Option (Decoded (RawDecodedRecord t))
  | .read d => some d
  | _ => none

/-- The value returned, with the final `.ok()`. -/
def Exit.value : Exit t → Option (RawDecodedRecord t)
  | .read (.ok r) => some r
  | _ => none

namespace Exit

@[simp] theorem result_short : (short : Exit t).result = none := rfl
@[simp] theorem result_read (d : Decoded (RawDecodedRecord t)) : (read d).result = some d := rfl
@[simp] theorem value_short : (short : Exit t).value = none := rfl
@[simp] theorem value_read_ok (r : RawDecodedRecord t) : (read (.ok r)).value = some r := rfl

end Exit

structure Call (t : Target) where
  unread : ℕ
  exit : Exit t
  deriving DecidableEq

/-- `written`, `chunks` and `calls` record history: the committed records, their
places in the buffer, and the finished calls of `try_read_one`. -/
structure State (t : Target) where
  q : Spsc t.bits
  writer : Writer t
  reader : Reader t
  written : List (LoggedRecord t)
  chunks : List Chunk
  calls : List (Call t)
  deriving DecidableEq

/-- What `decode_record` gave for the records read so far. -/
def State.results (s : State t) : List (Decoded (RawDecodedRecord t)) :=
  s.calls.filterMap fun c => c.exit.result

def State.taken (s : State t) : ℕ := s.results.length

inductive Event (t : Target) where
  | log (r : LoggedRecord t)
  | store
  | commit
  | available
  | peek
  | observe
  | measure
  | read
  | decode
  | advance
  deriving DecidableEq

/-- `log_write`: a refused write only counts the record as dropped. -/
def State.log (s : State t) (r : LoggedRecord t) : State t :=
  match tryReserve s.q.inner s.q.producer (BitVec.ofNat t.bits r.size) with
  | (none, p) => { s with q := { s.q with producer := p } }
  | (some off, p) => { s with
      q := { s.q with producer := p }
      writer := .writing off.toNat r r.stores }

def State.commit (s : State t) (off : ℕ) (r : LoggedRecord t) : State t :=
  let (inner, p) := Queue.commit s.q.inner s.q.producer (BitVec.ofNat t.bits r.size)
  { s with
    q := { s.q with inner, producer := p }
    writer := .idle
    written := s.written ++ [r]
    chunks := s.chunks ++ [⟨off, slice s.q.inner.buf off r.size⟩] }

/-- The call of `try_read_one` returns. -/
def State.finish (s : State t) (unread : ℕ) (exit : Exit t) : State t :=
  { s with reader := .idle, calls := s.calls ++ [⟨unread, exit⟩] }

/-- The first `available`, and the return when not even a header is there. -/
def State.available (s : State t) : State t :=
  let (avail, c) := Queue.available s.q.inner s.q.consumer
  let s' := { s with q := { s.q with consumer := c } }
  let unread := s.written.length - s.taken
  if avail.toNat < RecordHeader.SIZE t then s'.finish unread .short
  else { s' with reader := .checked avail unread }

/-- The common start of `peek` and `read`: the debug assertion and the offset. -/
def State.acquire (s : State t) (len : ℕ) (hold : ℕ → Reader t) : State t :=
  let (avail, c) := Queue.available s.q.inner s.q.consumer
  let s' := { s with q := { s.q with consumer := c } }
  if t.checks && decide (avail.toNat < len) then { s' with reader := .panicked }
  else { s' with reader := hold (readOffset s.q.inner c) }

/-- The length computed from the header, and the early return on it. -/
def State.measure (s : State t) (seen : List UInt8) (avail : BitVec t.bits) (unread : ℕ) :
    State t :=
  let header := RecordHeader.readUnaligned t seen
  match (t.add (RecordHeader.SIZE t) header.encodedArgsSize.toNat : Outcome Unit ℕ) with
  | .ok totalLen =>
      if avail.toNat < totalLen then s.finish unread .early
      else { s with reader := .measured totalLen unread }
  | _ => { s with reader := .panicked }

/-- The call into `decode_record`, whose panic unwinds before the position advances. -/
def State.decode (dec : ℕ → ℕ → Decoders t) (s : State t) (totalLen : ℕ) (seen : List UInt8)
    (unread : ℕ) : State t :=
  match decodeRecord t (dec s.taken) seen with
  | .panic => { s with reader := .panicked }
  | result => { s with reader := .decoded result totalLen unread }

def State.advance (s : State t) (result : Decoded (RawDecodedRecord t)) (totalLen unread : ℕ) :
    State t :=
  let (inner, c) := Queue.advance s.q.inner s.q.consumer (BitVec.ofNat t.bits totalLen)
  { s with q := { s.q with inner, consumer := c } }.finish unread (.read result)

/-- `dec k j` is the user's code as it decodes argument `j` of the `k`-th record read. -/
def step (dec : ℕ → ℕ → Decoders t) (s : State t) : Event t → Option (State t)
  | .log r =>
    match s.writer with
    | .idle => some (s.log r)
    | _ => none
  | .store =>
    match s.writer with
    | .writing off r ((a, b) :: pending) =>
        some { s with
          q := { s.q with inner := { s.q.inner with buf := s.q.inner.buf.set (off + a) b } }
          writer := .writing off r pending }
    | _ => none
  | .commit =>
    match s.writer with
    | .writing off r [] => some (s.commit off r)
    | _ => none
  | .available =>
    match s.reader with
    | .idle => some s.available
    | _ => none
  | .peek =>
    match s.reader with
    | .checked avail unread =>
        some (s.acquire (RecordHeader.SIZE t) fun off => .header off [] avail unread)
    | _ => none
  | .observe =>
    match s.reader with
    | .header off seen avail unread =>
        if seen.length < RecordHeader.SIZE t then
          (s.q.inner.buf[off + seen.length]?).map fun b =>
            { s with reader := .header off (seen ++ [b]) avail unread }
        else none
    | .body off totalLen seen unread =>
        if seen.length < totalLen then
          (s.q.inner.buf[off + seen.length]?).map fun b =>
            { s with reader := .body off totalLen (seen ++ [b]) unread }
        else none
    | _ => none
  | .measure =>
    match s.reader with
    | .header _ seen avail unread =>
        if seen.length = RecordHeader.SIZE t then some (s.measure seen avail unread) else none
    | _ => none
  | .read =>
    match s.reader with
    | .measured totalLen unread =>
        some (s.acquire totalLen fun off => .body off totalLen [] unread)
    | _ => none
  | .decode =>
    match s.reader with
    | .body _ totalLen seen unread =>
        if seen.length = totalLen then some (s.decode dec totalLen seen unread) else none
    | _ => none
  | .advance =>
    match s.reader with
    | .decoded result totalLen unread => some (s.advance result totalLen unread)
    | _ => none

/-- All runs of log calls and `try_read_one` calls on the queue `q`. -/
def system (dec : ℕ → ℕ → Decoders t) (q : Spsc t.bits) : StepSystem (State t) (Event t) where
  init := ⟨q, .idle, .idle, [], [], []⟩
  step := step dec

end Insomnilog.Framing
