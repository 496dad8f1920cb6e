import Insomnilog.Queue.Fifo

/-! The queue against a bounded queue without cached positions. Here the consumer may read
any number of bytes that `available` has reported, so that reads need not match writes, and
closures may panic. -/
namespace Insomnilog.Queue
open ByteStore RingPosition

/-- A write to a bounded queue of which `unread` bytes are in use: the bytes in use
afterwards. -/
def boundedWrite (capacity unread n : ℕ) : Except WriteError ℕ :=
  if capacity < n then .error .oversizedWrite
  else if n ≤ capacity - unread then .ok (unread + n)
  else .error .queueFull

inductive FreeEvent (w : ℕ) where
  | strict (e : Event w)
  /-- A `peek` or `read` of any length that `available` reports. -/
  | acquire (a : Access) (len : BitVec w)
  | producerPanic
  | consumerPanic
  deriving DecidableEq

variable {w k : ℕ}

def freeStep (s : State w) : FreeEvent w → Option (State w)
  | .strict e => step s e
  | .acquire a len =>
    match s.consumer with
    | .idle =>
        let (avail, c) := available s.q.inner s.q.consumer
        if len ≤ avail then
          some { s with
            q := { s.q with consumer := c }
            consumer := .holding a (readOffset s.q.inner c) len [] }
        else none
    | .holding .. => none
  | .producerPanic =>
    match s.producer with
    | .writing .. => some { s with producer := .idle }
    | _ => none
  | .consumerPanic =>
    match s.consumer with
    | .holding .. => some { s with consumer := .idle }
    | .idle => none

def freeSystem (q : Spsc w) : StepSystem (State w) (FreeEvent w) where
  init := ⟨q, .idle, .idle, [], [], []⟩
  step := freeStep

/-- Unread bytes, from the shared positions. -/
def used (inner : QueueInner w) : ℕ := (inner.writePos - inner.readPos).toNat

/-- Unbounded stream position of the consumer. -/
def readTotal (reads : List View) : ℕ := (reads.map View.len).sum

/-- Bytes the consumer may still advance over. -/
def ConsumerPhase.held : ConsumerPhase w → ℕ
  | .idle => 0
  | .holding _ _ len _ => len.toNat

/-- The positions of a queue after `chunks` have been written and `r` bytes consumed.
The cached write position is always the end of a chunk. -/
structure Positions (k : ℕ) (q : Spsc w) (chunks : List Chunk) (r reserved held : ℕ) : Prop where
  geometry : Geometry q.inner k
  write : q.producer.write = BitVec.ofNat w (total chunks)
  writePos : q.inner.writePos = BitVec.ofNat w (total chunks)
  read : q.consumer.read = BitVec.ofNat w r
  readPos : q.inner.readPos = BitVec.ofNat w r
  cachedRead : ∃ x ≤ r, q.producer.cachedRead = BitVec.ofNat w x ∧
    total chunks + reserved ≤ x + 2 ^ k
  cachedWrite : ∃ j ≤ chunks.length, r + held ≤ start chunks j ∧
    q.consumer.cachedWrite = BitVec.ofNat w (start chunks j)

namespace Positions
variable {q : Spsc w} {chunks : List Chunk} {r reserved held : ℕ}

theorem read_le_total (h : Positions k q chunks r reserved held) : r + held ≤ total chunks := by
  obtain ⟨j, hj, hle, -⟩ := h.cachedWrite
  exact hle.trans (start_le_total hj)

theorem window (h : Positions k q chunks r reserved held) :
    total chunks + reserved ≤ r + 2 ^ k := by
  obtain ⟨x, hx, -, hw⟩ := h.cachedRead
  omega

theorem pow_lt (h : Positions k q chunks r reserved held) : 2 * 2 ^ k < 2 ^ w := by
  rw [← pow_succ']
  exact Nat.pow_lt_pow_right (by norm_num) h.geometry.wide

/-- How far the producer is ahead of a position at most one lap behind. -/
theorem ahead (h : Positions k q chunks r reserved held) {x : ℕ} (hx : x ≤ total chunks)
    (hlap : total chunks ≤ x + 2 ^ k) :
    (q.producer.write - BitVec.ofNat w x).toNat = total chunks - x := by
  have hpow := h.pow_lt
  rw [h.write]
  exact ofNat_sub_toNat hx (by omega)

/-- The room beyond such a position; the subtraction does not underflow. -/
theorem room (h : Positions k q chunks r reserved held) {x : ℕ} (hx : x ≤ total chunks)
    (hlap : total chunks ≤ x + 2 ^ k) :
    q.producer.write - BitVec.ofNat w x ≤ q.inner.capacity ∧
      (q.inner.capacity - (q.producer.write - BitVec.ofNat w x)).toNat =
        x + 2 ^ k - total chunks := by
  have hle : q.producer.write - BitVec.ofNat w x ≤ q.inner.capacity := by
    rw [BitVec.le_def, h.ahead hx hlap, h.geometry.capacity]
    omega
  refine ⟨hle, ?_⟩
  rw [BitVec.toNat_sub_of_le hle, h.geometry.capacity, h.ahead hx hlap]
  omega

/-- Both subtractions of `try_reserve` are exact, and the cached position never shows more
room than there is. -/
theorem rooms (h : Positions k q chunks r reserved held) :
    ∃ x ≤ r, q.producer.cachedRead = BitVec.ofNat w x ∧
      total chunks + reserved ≤ x + 2 ^ k ∧
      (q.inner.capacity - (q.producer.write - q.producer.cachedRead)).toNat =
        x + 2 ^ k - total chunks ∧
      (q.inner.capacity - (q.producer.write - q.inner.readPos)).toNat =
        r + 2 ^ k - total chunks := by
  obtain ⟨x, hx, hc, hw⟩ := h.cachedRead
  have hle := h.read_le_total
  have hwin := h.window
  refine ⟨x, hx, hc, hw, ?_, ?_⟩
  · rw [hc]
    exact (h.room (by omega) (by omega)).2
  · rw [h.readPos]
    exact (h.room (by omega) (by omega)).2

/-- `try_reserve` grants exactly what fits beside the unread bytes, and changes at most the
cached read position. -/
theorem tryReserve (h : Positions k q chunks r 0 held) (n : BitVec w) :
    let res := Queue.tryReserve q.inner q.producer n
    res.2 = { q.producer with cachedRead := res.2.cachedRead } ∧
      (res.1.isSome = true ↔ n.toNat ≤ 2 ^ k - (total chunks - r)) ∧
      (∀ off, res.1 = some off → off = q.producer.write &&& q.inner.mask) ∧
      Positions k { q with producer := res.2 } chunks r
        (if res.1.isSome = true then n.toNat else 0) held := by
  have hle := h.read_le_total
  have hwin := h.window
  obtain ⟨x, hx, hc, hw, hfast, hslow⟩ := h.rooms
  have hcap := h.geometry.capacity
  unfold Queue.tryReserve
  simp only [BitVec.lt_def, hfast, hslow, hcap]
  split
  · refine ⟨rfl, ?_, by rintro _ ⟨⟩, h⟩
    simp only [Option.isSome_none, Bool.false_eq_true, false_iff]
    omega
  · split
    · split
      · refine ⟨rfl, ?_, by rintro _ ⟨⟩, { h with cachedRead := ⟨r, le_rfl, h.readPos, hwin⟩ }⟩
        simp only [Option.isSome_none, Bool.false_eq_true, false_iff]
        omega
      · refine ⟨rfl, ?_, by rintro _ ⟨⟩; rfl, ?_⟩
        · simp only [Option.isSome_some, true_iff]
          omega
        · exact { h with cachedRead := ⟨r, le_rfl, h.readPos, by
            simp only [Option.isSome_some, ↓reduceIte]
            omega⟩ }
    · refine ⟨rfl, ?_, by rintro _ ⟨⟩; rfl, ?_⟩
      · simp only [Option.isSome_some, true_iff]
        omega
      · exact { h with cachedRead := ⟨x, hx, hc, by
          simp only [Option.isSome_some, ↓reduceIte]
          omega⟩ }

/-- `available` reports bytes up to the end of some chunk, and none only when nothing was
unread at its load. -/
theorem available (h : Positions k q chunks r reserved 0) :
    let res := Queue.available q.inner q.consumer
    res.2.read = q.consumer.read ∧
      ∃ j ≤ chunks.length, r ≤ start chunks j ∧ res.1.toNat = start chunks j - r ∧
        res.2.cachedWrite = BitVec.ofNat w (start chunks j) ∧ (res.1 = 0 → r = total chunks) := by
  have hpow := h.pow_lt
  have hwin := h.window
  have hdist {j : ℕ} (hj : j ≤ chunks.length) (hr : r ≤ start chunks j) :
      (BitVec.ofNat w (start chunks j) - q.consumer.read).toNat = start chunks j - r := by
    have := start_le_total hj
    rw [h.read]
    exact ofNat_sub_toNat hr (by omega)
  obtain ⟨j, hj, hr, hc⟩ := h.cachedWrite
  unfold Queue.available
  split
  next hlt =>
    refine ⟨rfl, j, hj, hr, ?_, hc, fun hz => ?_⟩
    · rw [hc]
      exact hdist hj hr
    · have he : q.consumer.cachedWrite = q.consumer.read := by
        simpa using BitVec.sub_eq_iff_eq_add.mp hz
      rw [he] at hlt
      exact absurd hlt (BitVec.lt_irrefl _)
  next =>
    have hle : r ≤ start chunks chunks.length := hr.trans (start_le_total hj)
    have hav : (q.inner.writePos - q.consumer.read).toNat = start chunks chunks.length - r := by
      rw [h.writePos]
      exact hdist le_rfl hle
    refine ⟨rfl, chunks.length, le_rfl, hle, hav, h.writePos, fun hz => ?_⟩
    have hzero : start chunks chunks.length - r = 0 :=
      hav.symm.trans (congrArg BitVec.toNat hz)
    exact Nat.le_antisymm hle (Nat.sub_eq_zero_iff_le.mp hzero)

/-- Committing a reservation. -/
theorem commit (h : Positions k q chunks r reserved held) {off : ℕ} {n : BitVec w}
    {bytes : List UInt8} (hn : n.toNat = reserved) (hlen : bytes.length = reserved) :
    Positions k { q with inner := (Queue.commit q.inner q.producer n).1,
                         producer := (Queue.commit q.inner q.producer n).2 }
      (chunks ++ [⟨off, bytes⟩]) r 0 held := by
  have htot : total (chunks ++ [⟨off, bytes⟩]) = total chunks + reserved := by
    rw [total_append, Chunk.len, hlen]
  have hpos : q.producer.write + n = BitVec.ofNat w (total (chunks ++ [⟨off, bytes⟩])) := by
    rw [h.write, htot, BitVec.ofNat_add, ← hn, BitVec.ofNat_toNat, BitVec.setWidth_eq]
  constructor
  · exact ⟨h.geometry.wide, h.geometry.capacity, h.geometry.mask, h.geometry.buf⟩
  · exact hpos
  · exact hpos
  · exact h.read
  · exact h.readPos
  · obtain ⟨x, hx, hc, hw⟩ := h.cachedRead
    exact ⟨x, hx, hc, by rw [htot]; omega⟩
  · obtain ⟨j, hj, hle, hc⟩ := h.cachedWrite
    refine ⟨j, by rw [List.length_append]; omega, ?_⟩
    rw [start_append _ hj]
    exact ⟨hle, hc⟩

/-- The consumer takes hold of bytes that `available` reports. -/
theorem hold (h : Positions k q chunks r reserved 0) {n : ℕ}
    (hn : n ≤ (Queue.available q.inner q.consumer).1.toNat) :
    Positions k { q with consumer := (Queue.available q.inner q.consumer).2 } chunks r
      reserved n := by
  obtain ⟨hread, j, hj, hr, hav, hc, -⟩ := h.available
  exact { h with
    read := hread.trans h.read
    cachedWrite := ⟨j, hj, by omega, hc⟩ }

theorem advance (h : Positions k q chunks r reserved held) {n : BitVec w} (hn : n.toNat = held) :
    Positions k { q with inner := (Queue.advance q.inner q.consumer n).1,
                         consumer := (Queue.advance q.inner q.consumer n).2 }
      chunks (r + held) reserved 0 := by
  have hpos : q.consumer.read + n = BitVec.ofNat w (r + held) := by
    rw [h.read, BitVec.ofNat_add, ← hn, BitVec.ofNat_toNat, BitVec.setWidth_eq]
  obtain ⟨x, hx, hcr, hw⟩ := h.cachedRead
  exact
    { geometry := ⟨h.geometry.wide, h.geometry.capacity, h.geometry.mask, h.geometry.buf⟩
      write := h.write
      writePos := h.writePos
      read := hpos
      readPos := hpos
      cachedRead := ⟨x, by omega, hcr, hw⟩
      cachedWrite := h.cachedWrite }

/-- Giving up a reservation or a hold. -/
theorem mono (h : Positions k q chunks r reserved held) {reserved' held' : ℕ}
    (hres : reserved' ≤ reserved) (hheld : held' ≤ held) :
    Positions k q chunks r reserved' held' := by
  obtain ⟨x, hx, hcr, hw⟩ := h.cachedRead
  obtain ⟨j, hj, hle, hcw⟩ := h.cachedWrite
  exact { h with
    cachedRead := ⟨x, hx, hcr, by omega⟩
    cachedWrite := ⟨j, hj, by omega, hcw⟩ }

theorem set (h : Positions k q chunks r reserved held) (i : ℕ) (b : UInt8) :
    Positions k { q with inner := { q.inner with buf := q.inner.buf.set i b } } chunks r
      reserved held :=
  { h with
    geometry := ⟨h.geometry.wide, h.geometry.capacity, h.geometry.mask, by
      rw [List.length_set]
      exact h.geometry.buf⟩ }

theorem write_offset (h : Positions k q chunks r reserved held) :
    (q.producer.write &&& q.inner.mask).toNat = total chunks % 2 ^ k := by
  rw [h.write]
  exact and_mask_toNat (by have := h.geometry.wide; omega) h.geometry.mask

end Positions

/-- The invariant of the free system. -/
structure FreeInv (k : ℕ) (s : State w) : Prop where
  positions : Positions k s.q s.written (readTotal s.reads) s.producer.reserved s.consumer.held
  producer : match s.producer with
    | .idle => True
    | .writing off _ => off = total s.written % 2 ^ k
    | .returned _ n bytes => bytes.length = n.toNat

namespace FreeInv
variable {s s' : State w}

theorem reserve (h : FreeInv k s) (hp : s.producer = .idle) (n : BitVec w) :
    FreeInv k (s.reserve n) := by
  have hpos := h.positions
  rw [hp] at hpos
  obtain ⟨-, -, hoff, hq⟩ := hpos.tryReserve n
  unfold State.reserve
  split
  next p hr =>
    rw [hr] at hq
    constructor
    · rw [hp]
      exact hq
    · simp only [hp]
  next off p hr =>
    rw [hr] at hq hoff
    constructor
    · exact hq
    · show off.toNat = total s.written % 2 ^ k
      rw [hoff off rfl, hpos.write_offset]

theorem commit (h : FreeInv k s) {off : ℕ} {n : BitVec w} {bytes : List UInt8}
    (hp : s.producer = .returned off n bytes) : FreeInv k (s.commit off n bytes) := by
  obtain ⟨hpos, hprod⟩ := h
  simp only [hp] at hprod
  rw [hp] at hpos
  exact ⟨hpos.commit rfl hprod, trivial⟩

theorem closureReturn (h : FreeInv k s) {off : ℕ} {n : BitVec w}
    (hp : s.producer = .writing off n) :
    FreeInv k { s with producer := .returned off n (slice s.q.inner.buf off n.toNat) } := by
  obtain ⟨hpos, hprod⟩ := h
  simp only [hp] at hprod
  rw [hp] at hpos
  refine ⟨hpos, ?_⟩
  have hn : n.toNat ≤ 2 ^ k := by
    have := hpos.window
    have := hpos.read_le_total
    simp only [ProducerPhase.reserved] at *
    omega
  apply slice_length_of_le
  rw [hprod, hpos.geometry.buf]
  exact fits_twice (Nat.two_pow_pos k) _ hn

theorem release (h : FreeInv k s) {a : Access} {off : ℕ} {len : BitVec w} {seen : Observations}
    (hc : s.consumer = .holding a off len seen) : FreeInv k (s.release a len seen) := by
  obtain ⟨hpos, hprod⟩ := h
  rw [hc] at hpos
  cases a with
  | peek => exact ⟨hpos.mono le_rfl (Nat.zero_le _), hprod⟩
  | read =>
    refine ⟨?_, hprod⟩
    have htot : readTotal (s.reads ++ [⟨len.toNat, seen⟩]) = readTotal s.reads + len.toNat := by
      simp [readTotal]
    show Positions k _ s.written (readTotal (s.reads ++ [⟨len.toNat, seen⟩])) _ _
    rw [htot]
    exact hpos.advance rfl

/-- Both kinds of acquisition end in this state. -/
theorem hold (h : FreeInv k s) (hc : s.consumer = .idle) {a : Access} {len : BitVec w} {off : ℕ}
    (hlen : len ≤ (Queue.available s.q.inner s.q.consumer).1) :
    FreeInv k { s with
      q := { s.q with consumer := (Queue.available s.q.inner s.q.consumer).2 }
      consumer := .holding a off len [] } := by
  obtain ⟨hpos, hprod⟩ := h
  rw [hc] at hpos
  exact ⟨hpos.hold (BitVec.le_def.mp hlen), hprod⟩

theorem strict (h : FreeInv k s) {e : Event w} (hs : step s e = some s') : FreeInv k s' := by
  cases e with
  | reserve n =>
    simp only [step] at hs
    split at hs
    next hp => exact Option.some.inj hs ▸ h.reserve hp n
    · cases hs
  | store i b =>
    simp only [step] at hs
    split at hs
    · split at hs
      · obtain rfl := Option.some.inj hs
        exact ⟨h.positions.set _ b, h.producer⟩
      · cases hs
    · cases hs
  | closureReturn =>
    simp only [step] at hs
    split at hs
    next hp => exact Option.some.inj hs ▸ h.closureReturn hp
    · cases hs
  | commit =>
    simp only [step] at hs
    split at hs
    next hp => exact Option.some.inj hs ▸ h.commit hp
    · cases hs
  | available =>
    simp only [step] at hs
    split at hs
    next hc =>
      obtain rfl := Option.some.inj hs
      refine ⟨?_, h.producer⟩
      have hpos := h.positions
      rw [hc] at hpos ⊢
      exact hpos.hold (Nat.zero_le _)
    · cases hs
  | acquire a len =>
    simp only [step] at hs
    split at hs
    next hc _ =>
      split at hs
      next hlen => exact Option.some.inj hs ▸ h.hold hc hlen.1
      · cases hs
    · cases hs
  | observe i =>
    simp only [step] at hs
    split at hs
    next hc =>
      split at hs
      · split at hs
        · obtain rfl := Option.some.inj hs
          have hpos := h.positions
          rw [hc] at hpos
          exact ⟨hpos, h.producer⟩
        · cases hs
      · cases hs
    · cases hs
  | release =>
    simp only [step] at hs
    split at hs
    next hc => exact Option.some.inj hs ▸ h.release hc
    · cases hs

theorem step (h : FreeInv k s) {e : FreeEvent w} (hs : freeStep s e = some s') : FreeInv k s' := by
  cases e with
  | strict e => exact h.strict hs
  | acquire a len =>
    simp only [freeStep] at hs
    split at hs
    next hc =>
      split at hs
      next hlen => exact Option.some.inj hs ▸ h.hold hc hlen
      · cases hs
    · cases hs
  | producerPanic =>
    simp only [freeStep] at hs
    split at hs
    next hp =>
      obtain rfl := Option.some.inj hs
      exact ⟨h.positions.mono (Nat.zero_le _) le_rfl, trivial⟩
    · cases hs
  | consumerPanic =>
    simp only [freeStep] at hs
    split at hs
    next hc =>
      obtain rfl := Option.some.inj hs
      exact ⟨h.positions.mono le_rfl (Nat.zero_le _), h.producer⟩
    · cases hs

end FreeInv

theorem free_invariant {checks : Bool} {capacity : BitVec w} {q : Spsc w} {s : State w}
    (hnew : new checks capacity = some q) (hfit : 2 * roundUp capacity.toNat < 2 ^ w)
    (h : (freeSystem q).Reachable s) :
    ∃ k, roundUp capacity.toNat = 2 ^ k ∧ FreeInv k s := by
  obtain ⟨k, hk, hg, hw, hr, hp, hc⟩ := new_spec hnew hfit
  refine ⟨k, hk, ?_⟩
  apply h.invariant
  · refine ⟨?_, trivial⟩
    constructor
    · exact hg
    · simp [freeSystem, hp, total]
    · simp [freeSystem, hw, total]
    · simp [freeSystem, hc, readTotal]
    · simp [freeSystem, hr, readTotal]
    · exact ⟨0, le_rfl, by simp [freeSystem, hp],
        by simp [freeSystem, total, ProducerPhase.reserved]⟩
    · exact ⟨0, le_rfl, by simp [freeSystem, readTotal, ConsumerPhase.held],
        by simp [freeSystem, hc]⟩
  · intro s e s' _ hs hstep
    exact hs.step hstep

namespace Positions
variable {q : Spsc w} {chunks : List Chunk} {r reserved held : ℕ}

theorem used_eq (h : Positions k q chunks r reserved held) : used q.inner = total chunks - r := by
  have hle := h.read_le_total
  have hwin := h.window
  rw [used, h.writePos, ← h.write, h.readPos]
  exact h.ahead (by omega) (by omega)

/-- A reservation is refused, and changes at most the cached position, or it finds room. -/
theorem tryReserve_cases (h : Positions k q chunks r 0 held) (n : BitVec w) :
    (∃ cachedRead, Queue.tryReserve q.inner q.producer n =
        (none, { q.producer with cachedRead }) ∧ 2 ^ k - used q.inner < n.toNat) ∨
      ∃ off p, Queue.tryReserve q.inner q.producer n = (some off, p) ∧
        p.write = q.producer.write ∧ n.toNat ≤ 2 ^ k - used q.inner := by
  obtain ⟨hp, hsome, -, -⟩ := h.tryReserve n
  rw [← h.used_eq] at hsome
  cases hr : Queue.tryReserve q.inner q.producer n with
  | mk off p =>
    rw [hr] at hp hsome
    cases off with
    | none =>
      left
      refine ⟨p.cachedRead, congrArg (Prod.mk none) hp, ?_⟩
      have hno : ¬ n.toNat ≤ 2 ^ k - used q.inner := by
        rw [← hsome]
        exact Bool.false_ne_true
      omega
    | some off =>
      right
      refine ⟨off, p, rfl, ?_, hsome.mp rfl⟩
      exact (congrArg Producer.write hp).trans rfl

/-- `write` with nothing in between is a write to the bounded queue; if it fails it changes
at most the cached read position, whatever the closure. -/
theorem write_bounded (h : Positions k q chunks r 0 held) (n : BitVec w)
    (f : List UInt8 → List UInt8) :
    ((Queue.write q n f).1.map fun _ => used (Queue.write q n f).2.inner) =
        boundedWrite (2 ^ k) (used q.inner) n.toNat ∧
      ∀ e, (Queue.write q n f).1 = .error e → ∃ cachedRead, ∀ g, Queue.write q n g =
        (.error e, { q with producer := { q.producer with cachedRead } }) := by
  have hover : q.inner.capacity < n ↔ 2 ^ k < n.toNat := by
    rw [BitVec.lt_def, h.geometry.capacity]
  rcases h.tryReserve_cases n with ⟨cachedRead, hr, hroom⟩ | ⟨off, p, hr, hwrite, hroom⟩
  · simp only [Queue.write, hr, boundedWrite, hover, if_neg (Nat.not_le.mpr hroom)]
    constructor
    · split <;> rfl
    · intro e he
      refine ⟨cachedRead, fun _ => ?_⟩
      rw [he]
  · simp only [Queue.write, hr]
    constructor
    · have hle := h.read_le_total
      have hwin := h.window
      have hpow := h.pow_lt
      rw [boundedWrite, if_neg (by omega), if_pos hroom, h.used_eq]
      have hsum : p.write + n = BitVec.ofNat w (total chunks + n.toNat) := by
        rw [hwrite, h.write, BitVec.ofNat_add, BitVec.ofNat_toNat, BitVec.setWidth_eq]
      have hused : (p.write + n - q.inner.readPos).toNat = total chunks - r + n.toNat := by
        rw [h.used_eq] at hroom
        rw [hsum, h.readPos, ofNat_sub_toNat (by omega) (by omega)]
        omega
      exact congrArg Except.ok hused
    · intro e he
      cases he

/-- With reads that match writes, `available` reports the lengths of whole chunks. -/
theorem available_whole (h : Positions k q chunks r reserved 0) {taken : ℕ}
    (hr : r = start chunks taken) (htaken : taken ≤ chunks.length) :
    ∃ j, taken ≤ j ∧ j ≤ chunks.length ∧ (Queue.available q.inner q.consumer).1.toNat =
      (((chunks.drop taken).take (j - taken)).map Chunk.len).sum := by
  obtain ⟨-, j, hj, hle, hav, -⟩ := h.available
  have hmax : taken ≤ max j taken := le_max_right _ _
  have hstart : start chunks (max j taken) = start chunks j := by
    by_cases hjt : taken ≤ j
    · rw [max_eq_left hjt]
    · rw [max_eq_right (by omega)]
      exact le_antisymm (hr ▸ hle) (start_mono chunks (by omega))
  refine ⟨max j taken, hmax, by omega, ?_⟩
  have hsplit : start chunks (max j taken) =
      start chunks taken +
        (((chunks.drop taken).take (max j taken - taken)).map Chunk.len).sum := by
    have htake : chunks.take (max j taken) =
        chunks.take taken ++ (chunks.drop taken).take (max j taken - taken) := by
      rw [← List.take_add, Nat.add_sub_cancel' hmax]
    rw [start, htake, List.map_append, List.sum_append]
    rfl
  omega

end Positions

/-- Every read so far has taken as much as the write of the same number put in. -/
def ReadsMatch (s : State w) : Prop :=
  s.reads.map View.len = (s.written.take s.reads.length).map Chunk.len

theorem ReadsMatch.readTotal_eq {s : State w} (h : ReadsMatch s) :
    readTotal s.reads = start s.written s.reads.length := congrArg List.sum h

theorem ReadsMatch.length_le {s : State w} (h : ReadsMatch s) :
    s.reads.length ≤ s.written.length := by
  have := congrArg List.length h
  rw [List.length_map, List.length_map, List.length_take] at this
  omega

/-- Whatever the interleaving and however often the positions have wrapped, the decisions
taken on cached positions are those of a bounded queue without them. -/
theorem cached_paths_agree {checks : Bool} {capacity : BitVec w} {q : Spsc w} {s : State w}
    (hnew : new checks capacity = some q) (hfit : 2 * roundUp capacity.toNat < 2 ^ w)
    (h : (freeSystem q).Reachable s) :
    let inner := s.q.inner
    let p := s.q.producer
    inner.capacity.toNat = roundUp capacity.toNat ∧
      used inner = total s.written - readTotal s.reads ∧
      (p.write - p.cachedRead ≤ inner.capacity ∧ p.write - inner.readPos ≤ inner.capacity) ∧
      (∀ n, n ≤ inner.capacity - (p.write - p.cachedRead) →
        n ≤ inner.capacity - (p.write - inner.readPos)) ∧
      (s.producer = .idle → ∀ n f,
        ((write s.q n f).1.map fun _ => used (write s.q n f).2.inner) =
            boundedWrite (roundUp capacity.toNat) (used inner) n.toNat ∧
          ∀ e, (write s.q n f).1 = .error e → ∃ cachedRead, ∀ g, write s.q n g =
            (.error e, { s.q with producer := { p with cachedRead } })) ∧
      (s.consumer = .idle → ∀ avail c, available inner s.q.consumer = (avail, c) →
        avail.toNat ≤ used inner ∧ (avail = 0 → used inner = 0) ∧
          (ReadsMatch s → ∃ j, s.reads.length ≤ j ∧ j ≤ s.written.length ∧ avail.toNat =
            (((s.written.drop s.reads.length).take (j - s.reads.length)).map Chunk.len).sum)) := by
  intro inner p
  obtain ⟨k, hk, hinv⟩ := free_invariant hnew hfit h
  have hpos := hinv.positions
  have hle := hpos.read_le_total
  have hwin := hpos.window
  obtain ⟨x, hx, hc, hw, hfast, hslow⟩ := hpos.rooms
  refine ⟨by rw [hk]; exact hpos.geometry.capacity, hpos.used_eq, ⟨?_, ?_⟩, ?_, ?_, ?_⟩
  · rw [hc]
    exact (hpos.room (by omega) (by omega)).1
  · rw [show inner.readPos = _ from hpos.readPos]
    exact (hpos.room (by omega) (by omega)).1
  · intro n hn
    rw [BitVec.le_def] at hn ⊢
    rw [hfast] at hn
    rw [hslow]
    omega
  · intro hidle n f
    rw [hidle] at hpos
    rw [hk]
    exact hpos.write_bounded n f
  · intro hidle avail c ha
    rw [hidle] at hpos
    obtain ⟨-, j, hj, hr, hav, -, hz⟩ := hpos.available
    rw [ha] at hav hz
    rw [hpos.used_eq]
    refine ⟨?_, fun h0 => ?_, fun hm => ?_⟩
    · have := start_le_total hj
      rw [hav]
      omega
    · rw [hz h0]
      exact Nat.sub_self _
    · obtain ⟨j, hj, hjl, hsum⟩ := hpos.available_whole hm.readTotal_eq hm.length_le
      rw [ha] at hsum
      exact ⟨j, hj, hjl, hsum⟩

/-- A queue of two bytes whose positions are four bits wide. -/
def nibbleQueue : Spsc 4 := ⟨⟨[0, 0, 0, 0], 2, 1, 0, 0⟩, ⟨0, 0⟩, ⟨0, 0⟩⟩

/-- Eight writes and seven reads of two bytes, then a call of `available`. -/
def wrappedRun : List (FreeEvent 4) :=
  (List.replicate 7 [.strict (.reserve 2), .strict .closureReturn, .strict .commit,
    .acquire .read 2, .strict .release]).flatten ++
  [.strict (.reserve 2), .strict .closureReturn, .strict .commit, .strict .available]

/-- The write position has wrapped, so that the cached one is numerically behind the read
position although it has bytes to show. -/
theorem cached_paths_agree_wrapped :
    ∃ s, (freeSystem nibbleQueue).run wrappedRun = some s ∧ s.q.consumer = ⟨0, 14⟩ ∧
      used s.q.inner = 2 ∧ (available s.q.inner s.q.consumer).1.toNat ≤ used s.q.inner ∧
      boundedWrite 2 2 1 = .error .queueFull ∧
      (write s.q 1 id).1 = .error .queueFull := by
  have hnew : new true (2 : BitVec 4) = some nibbleQueue := by decide
  refine ⟨_, rfl, rfl, by decide, ?_, rfl, by rfl⟩
  have hagree := cached_paths_agree hnew (by decide) ⟨wrappedRun, rfl⟩
  exact (hagree.2.2.2.2.2 rfl _ _ rfl).1

end Insomnilog.Queue
