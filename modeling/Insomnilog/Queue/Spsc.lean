import Insomnilog.Lib.ByteStore
import Insomnilog.Lib.RingPosition

/-! The bounded single-producer single-consumer byte queue. Positions are `usize`
values that wrap; `checks` stands for a build with debug assertions and overflow
checks. Atomics are read and written by the steps that use these functions, each
of which performs at most one load or store of a shared position. -/
namespace Insomnilog.Queue
open ByteStore

inductive WriteError where
  | oversizedWrite
  | queueFull
  deriving DecidableEq, Repr

/-- Shared state: a ring of `capacity` bytes over an allocation of twice that size. -/
structure QueueInner (w : ℕ) where
  buf : List UInt8
  capacity : BitVec w
  mask : BitVec w
  writePos : BitVec w
  readPos : BitVec w
  deriving DecidableEq

structure Producer (w : ℕ) where
  cachedRead : BitVec w
  write : BitVec w
  deriving DecidableEq

structure Consumer (w : ℕ) where
  cachedWrite : BitVec w
  read : BitVec w
  deriving DecidableEq

/-- The two halves returned by `new`, around the state they share. -/
structure Spsc (w : ℕ) where
  inner : QueueInner w
  producer : Producer w
  consumer : Consumer w
  deriving DecidableEq

variable {w : ℕ}

/-- The least power of two that is not below `n`. -/
def roundUp (n : ℕ) : ℕ := if n ≤ 1 then 1 else 2 ^ ((n - 1).log2 + 1)

/-- `usize::next_power_of_two`: on overflow a panic with checks, zero without. -/
def nextPowerOfTwo (checks : Bool) (n : BitVec w) : Option (BitVec w) :=
  if roundUp n.toNat < 2 ^ w then some (BitVec.ofNat w (roundUp n.toNat))
  else if checks then none else some 0

/-- The product `2 * n` in `usize`. -/
def double (checks : Bool) (n : BitVec w) : Option (BitVec w) :=
  if checks && decide (2 ^ w ≤ 2 * n.toNat) then none else some (2 * n)

/-- Collecting `len` zero bytes; a request above `isize::MAX` bytes panics. -/
def zeroed (len : BitVec w) : Option (List UInt8) :=
  if len.toNat < 2 ^ (w - 1) then some (List.replicate len.toNat 0) else none

/-- `none` is a panic. -/
def new (checks : Bool) (capacity : BitVec w) : Option (Spsc w) :=
  if capacity = 0 then none else do
    let capacity ← nextPowerOfTwo checks capacity
    let len ← double checks capacity
    let buf ← zeroed len
    some {
      inner := { buf, capacity, mask := capacity - 1, writePos := 0, readPos := 0 }
      producer := { cachedRead := 0, write := 0 }
      consumer := { cachedWrite := 0, read := 0 } }

/-- The offset of `n` writable bytes, with the producer's updated cached position.
The shared read position is loaded only when the cached one leaves too little room. -/
def tryReserve (inner : QueueInner w) (p : Producer w) (n : BitVec w) :
    Option (BitVec w) × Producer w :=
  if inner.capacity < n then (none, p)
  else
    let available := inner.capacity - (p.write - p.cachedRead)
    if available < n then
      let p := { p with cachedRead := inner.readPos }
      let available := inner.capacity - (p.write - p.cachedRead)
      if available < n then (none, p) else (some (p.write &&& inner.mask), p)
    else (some (p.write &&& inner.mask), p)

def commit (inner : QueueInner w) (p : Producer w) (n : BitVec w) :
    QueueInner w × Producer w :=
  let p := { p with write := p.write + n }
  ({ inner with writePos := p.write }, p)

/-- `Producer::write` with nothing in between: `f` maps the reserved slice as it
is handed to the closure to the slice as the closure leaves it. -/
def write (q : Spsc w) (n : BitVec w) (f : List UInt8 → List UInt8) :
    Except WriteError Unit × Spsc w :=
  match tryReserve q.inner q.producer n with
  | (none, p) =>
      (if q.inner.capacity < n then .error .oversizedWrite else .error .queueFull,
        { q with producer := p })
  | (some off, p) =>
      let buf := splice q.inner.buf off.toNat (f (slice q.inner.buf off.toNat n.toNat))
      let (inner, p) := commit { q.inner with buf } p n
      (.ok (), { q with inner, producer := p })

/-- Bytes available, answered from the cached write position while it is
numerically ahead of the read position. -/
def available (inner : QueueInner w) (c : Consumer w) : BitVec w × Consumer w :=
  if c.read < c.cachedWrite then (c.cachedWrite - c.read, c)
  else
    let c := { c with cachedWrite := inner.writePos }
    (c.cachedWrite - c.read, c)

/-- The offset `peek` and `read` take their slice from. -/
def readOffset (inner : QueueInner w) (c : Consumer w) : ℕ := (c.read &&& inner.mask).toNat

/-- `none` is the failed debug assertion. -/
def peek (checks : Bool) (inner : QueueInner w) (c : Consumer w) (len : BitVec w) :
    Option (List UInt8 × Consumer w) :=
  let (avail, c) := available inner c
  if checks && decide (avail < len) then none
  else some (slice inner.buf (readOffset inner c) len.toNat, c)

def advance (inner : QueueInner w) (c : Consumer w) (n : BitVec w) :
    QueueInner w × Consumer w :=
  let c := { c with read := c.read + n }
  ({ inner with readPos := c.read }, c)

theorem le_roundUp (n : ℕ) : n ≤ roundUp n := by
  unfold roundUp
  split
  · assumption
  · have := Nat.lt_log2_self (n := n - 1)
    omega

theorem roundUp_eq_two_pow (n : ℕ) : ∃ k, roundUp n = 2 ^ k := by
  unfold roundUp
  split
  · exact ⟨0, rfl⟩
  · exact ⟨_, rfl⟩

/-- The fixed shape of a queue with rounded capacity `2 ^ k`. -/
structure Geometry (inner : QueueInner w) (k : ℕ) : Prop where
  wide : k + 1 < w
  capacity : inner.capacity.toNat = 2 ^ k
  mask : inner.mask.toNat = 2 ^ k - 1
  buf : inner.buf.length = 2 * 2 ^ k

/-- What `new` returns, when twice the rounded capacity fits `usize`. -/
theorem new_spec {checks : Bool} {capacity : BitVec w} {q : Spsc w}
    (h : new checks capacity = some q) (hfit : 2 * roundUp capacity.toNat < 2 ^ w) :
    ∃ k, roundUp capacity.toNat = 2 ^ k ∧ Geometry q.inner k ∧
      q.inner.writePos = 0 ∧ q.inner.readPos = 0 ∧
      q.producer = ⟨0, 0⟩ ∧ q.consumer = ⟨0, 0⟩ := by
  obtain ⟨k, hk⟩ := roundUp_eq_two_pow capacity.toNat
  rw [hk, ← pow_succ'] at hfit
  have hwide : k + 1 < w := (Nat.pow_lt_pow_iff_right (by norm_num)).mp hfit
  have hlt : 2 ^ k < 2 ^ w := Nat.pow_lt_pow_right (by norm_num) (by omega)
  have hcap : (BitVec.ofNat w (2 ^ k)).toNat = 2 ^ k := by
    rw [BitVec.toNat_ofNat, Nat.mod_eq_of_lt hlt]
  have hdouble : (2 * BitVec.ofNat w (2 ^ k)).toNat = 2 * 2 ^ k := by
    have h2 : (2 : BitVec w).toNat = 2 := by
      apply Nat.mod_eq_of_lt
      calc 2 = 2 ^ 1 := rfl
        _ < 2 ^ w := Nat.pow_lt_pow_right (by norm_num) (by omega)
    rw [BitVec.toNat_mul, hcap, h2, Nat.mod_eq_of_lt (by rw [← pow_succ']; exact hfit)]
  have hmask : (BitVec.ofNat w (2 ^ k) - 1).toNat = 2 ^ k - 1 := by
    have h1 : (1 : BitVec w) = BitVec.ofNat w 1 := rfl
    rw [h1, RingPosition.ofNat_sub_toNat Nat.one_le_two_pow (by omega)]
  unfold new at h
  split at h
  · contradiction
  · simp only [nextPowerOfTwo, hk, hlt, ↓reduceIte, Option.bind_eq_bind, Option.bind_some] at h
    obtain ⟨len, hlen, h⟩ := Option.bind_eq_some_iff.mp h
    obtain ⟨buf, hbuf, h⟩ := Option.bind_eq_some_iff.mp h
    unfold double at hlen
    split at hlen
    · contradiction
    · obtain rfl := Option.some.inj hlen
      unfold zeroed at hbuf
      split at hbuf
      · obtain rfl := Option.some.inj hbuf
        obtain rfl := Option.some.inj h
        refine ⟨k, hk, ⟨hwide, hcap, hmask, ?_⟩, rfl, rfl, rfl, rfl⟩
        rw [List.length_replicate, hdouble]
      · contradiction

end Insomnilog.Queue
