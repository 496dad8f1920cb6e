import Insomnilog.Queue.Invariant
import Insomnilog.Wire.Record

/-! A queue whose chunks are the written records, one each. What the consumer learns
from `available` is then about whole records. -/
namespace Insomnilog.Framing
open ByteStore Wire Queue

/-- A record whose encoded sizes sum to less than `2 ^ 32`, with room for the header in
`usize`. -/
structure LoggedRecord (t : Target) extends Record t where
  argsSize_lt : argsSize args < 2 ^ 32
  size_lt : RecordHeader.SIZE t + argsSize args < 2 ^ t.bits
  deriving DecidableEq

variable {t : Target} {k taken reserved : ℕ} {q : Spsc t.bits} {chunks : List Chunk}
  {written : List (LoggedRecord t)} {r : LoggedRecord t}

theorem LoggedRecord.size_toNat (r : LoggedRecord t) :
    (BitVec.ofNat t.bits r.size).toNat = r.size := by
  rw [BitVec.toNat_ofNat]
  exact Nat.mod_eq_of_lt r.size_lt

/-- The header, as the reader finds it, announces the size of the record. -/
theorem LoggedRecord.announces (r : LoggedRecord t) :
    (t.add (RecordHeader.SIZE t)
      (RecordHeader.readUnaligned t r.header.toBytes).encodedArgsSize.toNat : Outcome Unit ℕ) =
        .ok r.size := by
  have hheader : RecordHeader.readUnaligned t r.header.toBytes = r.header := by
    simpa using RecordHeader.readUnaligned_toBytes r.header []
  rw [hheader, Record.header_encodedArgsSize r.argsSize_lt]
  exact Target.add_of_lt r.size_lt

theorem LoggedRecord.decodeRecord (r : LoggedRecord t) (dec : ℕ → Decoders t) :
    Wire.decodeRecord t dec r.bytes = r.decoded dec := by
  simpa using decodeRecord_bytes dec r.argsSize_lt []

theorem header_le_size (r : LoggedRecord t) : RecordHeader.SIZE t ≤ r.size := Nat.le_add_right _ _

theorem SIZE_pos (t : Target) : 0 < RecordHeader.SIZE t := by
  unfold RecordHeader.SIZE
  omega

/-- Record `i` is `r`, and its bytes start at `off`. -/
structure Placed (written : List (LoggedRecord t)) (chunks : List Chunk) (i : ℕ)
    (r : LoggedRecord t) (off : ℕ) : Prop where
  record : written[i]? = some r
  chunk : chunks[i]? = some ⟨off, r.bytes⟩

/-- The cached write position lies beyond record `i`. -/
def Ahead (chunks : List Chunk) (i : ℕ) (c : Consumer t.bits) : Prop :=
  ∃ j, i + 1 ≤ j ∧ j ≤ chunks.length ∧ c.cachedWrite = BitVec.ofNat t.bits (start chunks j)

/-- The queue invariant, for chunks that are records. -/
structure RecordQueue (k : ℕ) (q : Spsc t.bits) (chunks : List Chunk)
    (written : List (LoggedRecord t)) (taken reserved : ℕ) : Prop where
  queue : Inv k q chunks taken reserved
  framed : chunks.map Chunk.bytes = written.map fun r => r.bytes

theorem Placed.start_succ {i off : ℕ} (h : Placed written chunks i r off) :
    start chunks (i + 1) = start chunks i + r.size := by
  rw [Queue.start_succ h.chunk, Chunk.len, Record.bytes_length]

theorem Placed.mono {written' : List (LoggedRecord t)} {chunks' : List Chunk} {i off : ℕ}
    (h : Placed written chunks i r off) (hw : written <+: written') (hc : chunks <+: chunks') :
    Placed written' chunks' i r off := by
  obtain ⟨ws, rfl⟩ := hw
  obtain ⟨cs, rfl⟩ := hc
  constructor
  · rw [List.getElem?_append_left (List.getElem?_eq_some_iff.mp h.record).choose]
    exact h.record
  · rw [List.getElem?_append_left (List.getElem?_eq_some_iff.mp h.chunk).choose]
    exact h.chunk

theorem Ahead.mono {chunks' : List Chunk} {i : ℕ} {c : Consumer t.bits} (h : Ahead chunks i c)
    (hc : chunks <+: chunks') : Ahead chunks' i c := by
  obtain ⟨j, hj, hjl, hcw⟩ := h
  obtain ⟨cs, rfl⟩ := hc
  refine ⟨j, hj, by rw [List.length_append]; omega, ?_⟩
  rw [hcw, start, start, List.take_append_of_le_length hjl]

namespace RecordQueue

theorem length_eq (h : RecordQueue k q chunks written taken reserved) :
    chunks.length = written.length := by
  simpa using congrArg List.length h.framed

theorem taken_le (h : RecordQueue k q chunks written taken reserved) :
    taken ≤ written.length := by
  rw [← h.length_eq]
  exact h.queue.taken_le

theorem placed (h : RecordQueue k q chunks written taken reserved) {i : ℕ}
    (hlt : i < written.length) : ∃ r off, Placed written chunks i r off := by
  have hc : i < chunks.length := by rw [h.length_eq]; exact hlt
  have hb : (chunks.map Chunk.bytes)[i]? = (written.map fun r => r.bytes)[i]? := by
    rw [h.framed]
  rw [List.getElem?_map, List.getElem?_map, List.getElem?_eq_getElem hc,
    List.getElem?_eq_getElem hlt] at hb
  have hbytes : chunks[i].bytes = written[i].bytes := Option.some.inj hb
  refine ⟨written[i], chunks[i].off, List.getElem?_eq_getElem hlt, ?_⟩
  rw [List.getElem?_eq_getElem hc, ← hbytes]

/-- `available` answers nothing exactly when nothing is unread, and otherwise at least
the oldest unread record, even from a stale cached position. -/
theorem available (h : RecordQueue k q chunks written taken reserved) {avail : BitVec t.bits}
    {c : Consumer t.bits} (ha : Queue.available q.inner q.consumer = (avail, c)) :
    RecordQueue k { q with consumer := c } chunks written taken reserved ∧
      ((taken = written.length ∧ avail.toNat = 0) ∨
        ∃ r off, Placed written chunks taken r off ∧ r.size ≤ avail.toNat ∧
          Ahead chunks taken c) := by
  obtain ⟨-, hq, ⟨j, hj, hjl, hcw, hav⟩, hzero⟩ := h.queue.available ha
  refine ⟨⟨hq, h.framed⟩, ?_⟩
  have hlen := h.length_eq
  rcases Nat.lt_or_ge taken written.length with hlt | hge
  · right
    obtain ⟨r, off, hp⟩ := h.placed hlt
    have hend := hp.start_succ
    have hpos : 0 < r.size := (SIZE_pos t).trans_le (header_le_size r)
    have htotal : start chunks (taken + 1) ≤ total chunks := start_le_total (by omega)
    have hne : taken ≠ j := by
      rintro rfl
      have := hzero (BitVec.eq_of_toNat_eq (by rw [hav, Nat.sub_self]; rfl))
      omega
    have hj' : taken + 1 ≤ j := by omega
    have hmono : start chunks (taken + 1) ≤ start chunks j := start_mono _ hj'
    exact ⟨r, off, hp, by omega, j, hj', hjl, hcw⟩
  · left
    have htaken := h.taken_le
    obtain rfl : j = taken := by omega
    exact ⟨by omega, by rw [hav, Nat.sub_self]⟩

/-- The slice of a consumer that stands before a record starts at the record. -/
theorem readOffset_eq (h : RecordQueue k q chunks written taken reserved) {off : ℕ}
    (hp : Placed written chunks taken r off) : readOffset q.inner q.consumer = off := by
  rw [h.queue.read_offset, ← (h.queue.live _ _ le_rfl hp.chunk).1]

theorem slice_eq (h : RecordQueue k q chunks written taken reserved) {off : ℕ}
    (hp : Placed written chunks taken r off) : slice q.inner.buf off r.size = r.bytes := by
  have hs := (h.queue.live _ _ le_rfl hp.chunk).2
  simp only [Chunk.len, Record.bytes_length] at hs
  exact hs

theorem tryReserve_some (h : RecordQueue k q chunks written taken 0) {off : BitVec t.bits}
    {p : Producer t.bits}
    (hr : tryReserve q.inner q.producer (BitVec.ofNat t.bits r.size) = (some off, p)) :
    off.toNat = total chunks % 2 ^ k ∧
      RecordQueue k { q with producer := p } chunks written taken r.size := by
  obtain ⟨hoff, hq⟩ := h.queue.tryReserve_some hr
  rw [r.size_toNat] at hq
  exact ⟨(congrArg BitVec.toNat hoff).trans h.queue.write_offset, hq, h.framed⟩

theorem tryReserve_none (h : RecordQueue k q chunks written taken 0) {n : BitVec t.bits}
    {p : Producer t.bits} (hr : tryReserve q.inner q.producer n = (none, p)) :
    RecordQueue k { q with producer := p } chunks written taken 0 :=
  ⟨h.queue.tryReserve_none hr, h.framed⟩

/-- Committing a slice that holds the bytes of a record. -/
theorem commit (h : RecordQueue k q chunks written taken r.size)
    (hs : slice q.inner.buf (total chunks % 2 ^ k) r.size = r.bytes) :
    RecordQueue k { q with
        inner := (Queue.commit q.inner q.producer (BitVec.ofNat t.bits r.size)).1
        producer := (Queue.commit q.inner q.producer (BitVec.ofNat t.bits r.size)).2 }
      (chunks ++ [⟨total chunks % 2 ^ k, r.bytes⟩]) (written ++ [r]) taken 0 := by
  refine ⟨h.queue.commit r.size_toNat (Record.bytes_length _) hs, ?_⟩
  simp only [List.map_append, h.framed, List.map_cons, List.map_nil]

/-- Filling the reserved slice with the bytes of a record and committing it. -/
theorem fill_commit (h : RecordQueue k q chunks written taken r.size) :
    let off := total chunks % 2 ^ k
    let bytes := applyStores (slice q.inner.buf off r.size) r.stores
    let stored := { q.inner with buf := splice q.inner.buf off bytes }
    RecordQueue k { q with
        inner := (Queue.commit stored q.producer (BitVec.ofNat t.bits r.size)).1
        producer := (Queue.commit stored q.producer (BitVec.ofNat t.bits r.size)).2 }
      (chunks ++ [⟨off, bytes⟩]) (written ++ [r]) taken 0 := by
  intro off bytes stored
  have hfits := h.queue.reserved_fits
  have hbytes : bytes = r.bytes := Record.applyStores_stores (slice_length_of_le hfits)
  have hlen : bytes.length = r.size := by rw [hbytes, Record.bytes_length]
  have hstored : RecordQueue k { q with inner := stored } chunks written taken r.size :=
    ⟨h.queue.splice hlen, h.framed⟩
  have hslice : slice stored.buf off r.size = r.bytes := by
    rw [← hbytes, ← hlen]
    exact slice_splice_self (by rw [hlen]; exact hfits)
  rw [hbytes]
  exact hstored.commit hslice

/-- Advancing over the oldest unread record. -/
theorem advance (h : RecordQueue k q chunks written taken reserved) {off : ℕ}
    (hp : Placed written chunks taken r off) (ha : Ahead chunks taken q.consumer) :
    RecordQueue k { q with
        inner := (Queue.advance q.inner q.consumer (BitVec.ofNat t.bits r.size)).1
        consumer := (Queue.advance q.inner q.consumer (BitVec.ofNat t.bits r.size)).2 }
      chunks written (taken + 1) reserved :=
  ⟨h.queue.advance hp.chunk (by rw [r.size_toNat, Chunk.len, Record.bytes_length]) ha, h.framed⟩

/-- `peek` and `read` do not fail their assertion on a length within the oldest unread
record, and take their slice from its first byte. -/
theorem acquire (h : RecordQueue k q chunks written taken reserved) {off len : ℕ}
    (hp : Placed written chunks taken r off) (hlen : len ≤ r.size) :
    ∃ avail c, Queue.available q.inner q.consumer = (avail, c) ∧ len ≤ avail.toNat ∧
      readOffset q.inner c = off ∧
      RecordQueue k { q with consumer := c } chunks written taken reserved ∧
      Ahead chunks taken c := by
  cases hac : Queue.available q.inner q.consumer with
  | mk avail c =>
    obtain ⟨hq, hcases⟩ := h.available hac
    rcases hcases with ⟨htaken, -⟩ | ⟨r', off', hp', hle, hahead⟩
    · have := (List.getElem?_eq_some_iff.mp hp.record).choose
      omega
    · obtain rfl := Option.some.inj (hp.record.symm.trans hp'.record)
      exact ⟨avail, c, rfl, hlen.trans hle, hq.readOffset_eq hp, hq, hahead⟩

/-- `peek` of a header before a record. -/
theorem peek_header (h : RecordQueue k q chunks written taken reserved) {off : ℕ}
    (hp : Placed written chunks taken r off) :
    ∃ c, peek t.checks q.inner q.consumer (BitVec.ofNat t.bits (RecordHeader.SIZE t)) =
        some (r.header.toBytes, c) ∧
      RecordQueue k { q with consumer := c } chunks written taken reserved ∧
      Ahead chunks taken c := by
  obtain ⟨avail, c, hac, hle, hoff, hq, hahead⟩ := h.acquire hp (header_le_size r)
  have hsize : (BitVec.ofNat t.bits (RecordHeader.SIZE t)).toNat = RecordHeader.SIZE t := by
    rw [BitVec.toNat_ofNat, Nat.mod_eq_of_lt ((header_le_size r).trans_lt r.size_lt)]
  have hbytes : slice q.inner.buf off (RecordHeader.SIZE t) = r.header.toBytes := by
    rw [← slice_take (header_le_size r), h.slice_eq hp, Record.bytes,
      List.take_left' (RecordHeader.toBytes_length _)]
  have hpass : decide (avail < BitVec.ofNat t.bits (RecordHeader.SIZE t)) = false :=
    decide_eq_false (by rw [BitVec.lt_def, hsize]; exact Nat.not_lt.mpr hle)
  refine ⟨c, ?_, hq, hahead⟩
  simp only [peek, hac, hpass, Bool.and_false, Bool.false_eq_true, ↓reduceIte, hoff, hsize, hbytes]

end RecordQueue

/-- A new queue holds no records. -/
theorem RecordQueue.new {checks : Bool} {capacity : BitVec t.bits}
    (hnew : Queue.new checks capacity = some q) (hfit : 2 * roundUp capacity.toNat < 2 ^ t.bits) :
    ∃ k, roundUp capacity.toNat = 2 ^ k ∧ RecordQueue k q [] [] 0 0 := by
  obtain ⟨k, hk, hq⟩ := new_inv hnew hfit
  exact ⟨k, hk, hq, rfl⟩

end Insomnilog.Framing
