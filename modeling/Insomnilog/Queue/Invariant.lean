import Insomnilog.Queue.Spsc

/-! The invariant that ties the wrapped positions and the physical bytes of a
queue to the sequence of chunks written so far, and its preservation by each
queue operation. -/
namespace Insomnilog.Queue
open ByteStore RingPosition

/-- A committed write: the physical start of its reserved slice and the bytes the
slice held when the closure returned. -/
structure Chunk where
  off : ℕ
  bytes : List UInt8
  deriving DecidableEq

def Chunk.len (c : Chunk) : ℕ := c.bytes.length

/-- Unbounded stream position at which chunk `i` starts. -/
def start (chunks : List Chunk) (i : ℕ) : ℕ := ((chunks.take i).map Chunk.len).sum

/-- Unbounded stream position of the producer. -/
def total (chunks : List Chunk) : ℕ := start chunks chunks.length

variable {w k taken reserved : ℕ} {q : Spsc w} {chunks : List Chunk}

@[simp] theorem start_zero (chunks : List Chunk) : start chunks 0 = 0 := rfl

theorem start_succ {i : ℕ} {c : Chunk} (h : chunks[i]? = some c) :
    start chunks (i + 1) = start chunks i + c.len := by
  simp [start, List.take_add_one, h]

theorem start_le_succ (chunks : List Chunk) (i : ℕ) :
    start chunks i ≤ start chunks (i + 1) := by
  cases h : chunks[i]? with
  | none => simp [start, List.take_add_one, h]
  | some c =>
    rw [start_succ h]
    exact Nat.le_add_right _ _

theorem start_mono (chunks : List Chunk) : Monotone (start chunks) :=
  monotone_nat_of_le_succ (start_le_succ chunks)

theorem start_le_total {i : ℕ} (h : i ≤ chunks.length) : start chunks i ≤ total chunks :=
  start_mono chunks h

theorem start_append {i : ℕ} (c : Chunk) (h : i ≤ chunks.length) :
    start (chunks ++ [c]) i = start chunks i := by
  rw [start, start, List.take_append_of_le_length h]

@[simp] theorem total_append (chunks : List Chunk) (c : Chunk) :
    total (chunks ++ [c]) = total chunks + c.len := by
  simp [total, start]

/-- `taken` chunks have been read; `reserved` bytes beyond the committed ones are
handed to a write closure. The cached positions may be stale, but each is the
start of a chunk on the right side of the current positions. -/
structure Inv (k : ℕ) (q : Spsc w) (chunks : List Chunk) (taken reserved : ℕ) : Prop where
  geometry : Geometry q.inner k
  taken_le : taken ≤ chunks.length
  write : q.producer.write = BitVec.ofNat w (total chunks)
  writePos : q.inner.writePos = BitVec.ofNat w (total chunks)
  read : q.consumer.read = BitVec.ofNat w (start chunks taken)
  readPos : q.inner.readPos = BitVec.ofNat w (start chunks taken)
  cachedRead : ∃ i ≤ taken, q.producer.cachedRead = BitVec.ofNat w (start chunks i) ∧
    total chunks + reserved ≤ start chunks i + 2 ^ k
  cachedWrite : ∃ j, taken ≤ j ∧ j ≤ chunks.length ∧
    q.consumer.cachedWrite = BitVec.ofNat w (start chunks j)
  live : ∀ i c, taken ≤ i → chunks[i]? = some c →
    c.off = start chunks i % 2 ^ k ∧ slice q.inner.buf c.off c.len = c.bytes

namespace Inv

theorem pow_lt (h : Inv k q chunks taken reserved) : 2 * 2 ^ k < 2 ^ w := by
  rw [← pow_succ']
  exact Nat.pow_lt_pow_right (by norm_num) h.geometry.wide

/-- Unread and reserved bytes together fit one lap of the ring. -/
theorem window (h : Inv k q chunks taken reserved) :
    total chunks + reserved ≤ start chunks taken + 2 ^ k := by
  obtain ⟨i, hi, _, hw⟩ := h.cachedRead
  have := start_mono chunks hi
  omega

theorem start_taken_le (h : Inv k q chunks taken reserved) :
    start chunks taken ≤ total chunks := start_le_total h.taken_le

/-- A live chunk ends before the producer's position. -/
theorem chunk_end_le {i : ℕ} {c : Chunk} (hc : chunks[i]? = some c) :
    start chunks i + c.len ≤ total chunks := by
  rw [← start_succ hc]
  exact start_mono chunks (List.getElem?_eq_some_iff.mp hc).choose

theorem live_window (h : Inv k q chunks taken reserved) {i : ℕ} (hi : taken ≤ i) :
    total chunks + reserved ≤ start chunks i + 2 ^ k :=
  h.window.trans (Nat.add_le_add_right (start_mono chunks hi) _)

/-- The reserved range starts in the first half and stays inside the allocation. -/
theorem reserved_fits (h : Inv k q chunks taken reserved) :
    total chunks % 2 ^ k + reserved ≤ q.inner.buf.length := by
  rw [h.geometry.buf]
  apply fits_twice (Nat.two_pow_pos k)
  have := h.window
  have := h.start_taken_le
  omega

/-- The reserved range meets no chunk that is committed and not yet read. -/
theorem reserved_disjoint (h : Inv k q chunks taken reserved) {i : ℕ} {c : Chunk}
    (hi : taken ≤ i) (hc : chunks[i]? = some c) :
    Disjoint c.off c.len (total chunks % 2 ^ k) reserved := by
  rw [(h.live i c hi hc).1]
  exact disjoint_of_window (Nat.two_pow_pos k) (chunk_end_le hc) (h.live_window hi)

theorem live_fits (h : Inv k q chunks taken reserved) {i : ℕ} {c : Chunk}
    (hi : taken ≤ i) (hc : chunks[i]? = some c) : c.off + c.len ≤ q.inner.buf.length := by
  rw [(h.live i c hi hc).1, h.geometry.buf]
  apply fits_twice (Nat.two_pow_pos k)
  have := chunk_end_le hc
  have := h.live_window hi
  omega

theorem write_offset (h : Inv k q chunks taken reserved) :
    (q.producer.write &&& q.inner.mask).toNat = total chunks % 2 ^ k := by
  rw [h.write]
  exact and_mask_toNat (by have := h.geometry.wide; omega) h.geometry.mask

theorem read_offset (h : Inv k q chunks taken reserved) :
    readOffset q.inner q.consumer = start chunks taken % 2 ^ k := by
  rw [readOffset, h.read]
  exact and_mask_toNat (by have := h.geometry.wide; omega) h.geometry.mask

/-- `capacity - write.wrapping_sub(position)` does not underflow, and is the room
left beyond a position at most one lap behind. -/
theorem room (h : Inv k q chunks taken reserved) {x : ℕ} (hx : x ≤ total chunks)
    (hlap : total chunks ≤ x + 2 ^ k) :
    (q.inner.capacity - (q.producer.write - BitVec.ofNat w x)).toNat =
      x + 2 ^ k - total chunks := by
  have hd : (q.producer.write - BitVec.ofNat w x).toNat = total chunks - x := by
    rw [h.write]
    exact ofNat_sub_toNat hx (by have := h.pow_lt; omega)
  rw [BitVec.toNat_sub_of_le (by rw [BitVec.le_def, hd, h.geometry.capacity]; omega),
    h.geometry.capacity, hd]
  omega

/-- A granted reservation: the masked write position, and room for `n` bytes. -/
theorem tryReserve_some (h : Inv k q chunks taken 0) {n off : BitVec w} {p : Producer w}
    (hr : tryReserve q.inner q.producer n = (some off, p)) :
    off = q.producer.write &&& q.inner.mask ∧
      Inv k { q with producer := p } chunks taken n.toNat := by
  obtain ⟨i, hi, hc, hw⟩ := h.cachedRead
  have hil := (start_mono chunks hi).trans h.start_taken_le
  have hfast := h.room hil hw
  have hslow := h.room h.start_taken_le h.window
  rw [← hc] at hfast
  rw [← h.readPos] at hslow
  unfold tryReserve at hr
  simp only [BitVec.lt_def, hfast, hslow] at hr
  split at hr
  · cases hr
  · split at hr
    · split at hr
      · cases hr
      · cases hr
        exact ⟨rfl, { h with cachedRead := ⟨taken, le_rfl, h.readPos, by omega⟩ }⟩
    · cases hr
      exact ⟨rfl, { h with cachedRead := ⟨i, hi, hc, by omega⟩ }⟩

/-- A refused reservation changes at most the cached read position. -/
theorem tryReserve_none (h : Inv k q chunks taken 0) {n : BitVec w} {p : Producer w}
    (hr : tryReserve q.inner q.producer n = (none, p)) :
    Inv k { q with producer := p } chunks taken 0 := by
  unfold tryReserve at hr
  simp only at hr
  split at hr
  · cases hr
    exact h
  · split at hr
    · split at hr
      · cases hr
        exact { h with cachedRead := ⟨taken, le_rfl, h.readPos, h.window⟩ }
      · cases hr
    · cases hr

/-- A store into the reserved slice leaves every live chunk as it is. -/
theorem store (h : Inv k q chunks taken reserved) {i : ℕ} (hi : i < reserved) (b : UInt8) :
    Inv k { q with inner := { q.inner with
      buf := q.inner.buf.set (total chunks % 2 ^ k + i) b } } chunks taken reserved := by
  refine { h with
    geometry := ⟨h.geometry.wide, h.geometry.capacity, h.geometry.mask, ?_⟩
    live := ?_ }
  · rw [List.length_set]
    exact h.geometry.buf
  · intro j c hj hc
    obtain ⟨hoff, hs⟩ := h.live j c hj hc
    refine ⟨hoff, ?_⟩
    rw [slice_set_outside, hs]
    rintro ⟨h₁, h₂⟩
    exact h.reserved_disjoint hj hc _ h₁ h₂ (Nat.le_add_right _ _) (by omega)

/-- Replacing the whole reserved slice leaves every live chunk as it is. -/
theorem splice (h : Inv k q chunks taken reserved) {bytes : List UInt8}
    (hlen : bytes.length = reserved) :
    Inv k { q with inner := { q.inner with
      buf := ByteStore.splice q.inner.buf (total chunks % 2 ^ k) bytes } }
      chunks taken reserved := by
  have hfits := h.reserved_fits
  rw [← hlen] at hfits
  refine { h with
    geometry := ⟨h.geometry.wide, h.geometry.capacity, h.geometry.mask, ?_⟩
    live := ?_ }
  · rw [splice_length hfits]
    exact h.geometry.buf
  · intro j c hj hc
    obtain ⟨hoff, hs⟩ := h.live j c hj hc
    refine ⟨hoff, ?_⟩
    rw [slice_splice_outside hfits, hs]
    rw [hlen]
    exact fun i h₁ h₂ h₃ h₄ => h.reserved_disjoint hj hc i h₃ h₄ h₁ h₂

/-- Committing the reserved slice appends it as a chunk. -/
theorem commit (h : Inv k q chunks taken reserved) {n : BitVec w} {bytes : List UInt8}
    (hn : n.toNat = reserved) (hlen : bytes.length = reserved)
    (hs : slice q.inner.buf (total chunks % 2 ^ k) reserved = bytes) :
    Inv k { q with inner := (Queue.commit q.inner q.producer n).1,
                   producer := (Queue.commit q.inner q.producer n).2 }
      (chunks ++ [⟨total chunks % 2 ^ k, bytes⟩]) taken 0 := by
  have hpos : q.producer.write + n = BitVec.ofNat w (total chunks + reserved) := by
    rw [h.write, BitVec.ofNat_add, ← hn, BitVec.ofNat_toNat, BitVec.setWidth_eq]
  have htot : total (chunks ++ [⟨total chunks % 2 ^ k, bytes⟩]) = total chunks + reserved := by
    rw [total_append, Chunk.len, hlen]
  refine
    { geometry := ⟨h.geometry.wide, h.geometry.capacity, h.geometry.mask, h.geometry.buf⟩
      taken_le := by rw [List.length_append]; exact h.taken_le.trans (Nat.le_add_right _ _)
      write := by rw [htot]; exact hpos
      writePos := by rw [htot]; exact hpos
      read := by rw [start_append _ h.taken_le]; exact h.read
      readPos := by rw [start_append _ h.taken_le]; exact h.readPos
      cachedRead := ?_
      cachedWrite := ?_
      live := ?_ }
  · obtain ⟨i, hi, hc, hw⟩ := h.cachedRead
    refine ⟨i, hi, ?_, ?_⟩
    · rw [start_append _ (hi.trans h.taken_le)]
      exact hc
    · rw [htot, start_append _ (hi.trans h.taken_le)]
      exact hw
  · obtain ⟨j, hj, hjl, hc⟩ := h.cachedWrite
    refine ⟨j, hj, by rw [List.length_append]; omega, ?_⟩
    rw [start_append _ hjl]
    exact hc
  · intro i c hi hc
    by_cases hlt : i < chunks.length
    · rw [start_append _ hlt.le]
      rw [List.getElem?_append_left hlt] at hc
      exact h.live i c hi hc
    · have hil := (List.getElem?_eq_some_iff.mp hc).choose
      rw [List.length_append, List.length_singleton] at hil
      obtain rfl : i = chunks.length := by omega
      rw [List.getElem?_concat_length] at hc
      obtain rfl := Option.some.inj hc
      rw [start_append _ le_rfl]
      exact ⟨rfl, by rw [Chunk.len, hlen]; exact hs⟩

/-- `available` reports a total of whole chunks, all committed and unread; it
reports nothing only when nothing was unread at its load. -/
theorem available (h : Inv k q chunks taken reserved) {avail : BitVec w} {c : Consumer w}
    (ha : available q.inner q.consumer = (avail, c)) :
    c.read = q.consumer.read ∧ Inv k { q with consumer := c } chunks taken reserved ∧
      (∃ j, taken ≤ j ∧ j ≤ chunks.length ∧ c.cachedWrite = BitVec.ofNat w (start chunks j) ∧
        avail.toNat = start chunks j - start chunks taken) ∧
      (avail = 0 → start chunks taken = total chunks) := by
  have hdist {j : ℕ} (hj : taken ≤ j) (hjl : j ≤ chunks.length) :
      (BitVec.ofNat w (start chunks j) - q.consumer.read).toNat =
        start chunks j - start chunks taken := by
    rw [h.read]
    apply ofNat_sub_toNat (start_mono chunks hj)
    have := h.window
    have := start_le_total hjl
    have := h.pow_lt
    omega
  unfold Queue.available at ha
  split at ha
  · obtain ⟨j, hj, hjl, hc⟩ := h.cachedWrite
    cases ha
    refine ⟨rfl, h, ⟨j, hj, hjl, hc, by rw [hc, hdist hj hjl]⟩, fun hz => ?_⟩
    have hlt : q.consumer.read < q.consumer.cachedWrite := by assumption
    have he : q.consumer.cachedWrite = q.consumer.read := by
      simpa using BitVec.sub_eq_iff_eq_add.mp hz
    rw [he] at hlt
    exact absurd hlt (BitVec.lt_irrefl _)
  · cases ha
    have hav : (q.inner.writePos - q.consumer.read).toNat =
        start chunks chunks.length - start chunks taken := by
      rw [h.writePos]
      exact hdist h.taken_le le_rfl
    refine ⟨rfl, { h with cachedWrite := ⟨chunks.length, h.taken_le, le_rfl, h.writePos⟩ },
      ⟨chunks.length, h.taken_le, le_rfl, h.writePos, hav⟩, fun hz => ?_⟩
    have hz' : start chunks chunks.length - start chunks taken = 0 :=
      hav.symm.trans (congrArg BitVec.toNat hz)
    exact Nat.le_antisymm h.start_taken_le (Nat.sub_eq_zero_iff_le.mp hz')

/-- Advancing over exactly the next chunk. -/
theorem advance (h : Inv k q chunks taken reserved) {c : Chunk} {n : BitVec w}
    (hc : chunks[taken]? = some c) (hn : n.toNat = c.len)
    (hcw : ∃ j, taken + 1 ≤ j ∧ j ≤ chunks.length ∧
      q.consumer.cachedWrite = BitVec.ofNat w (start chunks j)) :
    Inv k { q with inner := (Queue.advance q.inner q.consumer n).1,
                   consumer := (Queue.advance q.inner q.consumer n).2 }
      chunks (taken + 1) reserved := by
  have hpos : q.consumer.read + n = BitVec.ofNat w (start chunks (taken + 1)) := by
    rw [h.read, start_succ hc, BitVec.ofNat_add, ← hn, BitVec.ofNat_toNat, BitVec.setWidth_eq]
  obtain ⟨i, hi, hcr, hw⟩ := h.cachedRead
  exact
    { geometry := ⟨h.geometry.wide, h.geometry.capacity, h.geometry.mask, h.geometry.buf⟩
      taken_le := (List.getElem?_eq_some_iff.mp hc).choose
      write := h.write
      writePos := h.writePos
      read := hpos
      readPos := hpos
      cachedRead := ⟨i, hi.trans (Nat.le_succ _), hcr, hw⟩
      cachedWrite := hcw
      live := fun i c hi hc => h.live i c (by omega) hc }

end Inv

/-- A new queue is empty. -/
theorem new_inv {checks : Bool} {capacity : BitVec w} (hnew : new checks capacity = some q)
    (hfit : 2 * roundUp capacity.toNat < 2 ^ w) :
    ∃ k, roundUp capacity.toNat = 2 ^ k ∧ Inv k q [] 0 0 := by
  obtain ⟨k, hk, hg, hw, hr, hp, hc⟩ := new_spec hnew hfit
  refine ⟨k, hk, ?_⟩
  exact
    { geometry := hg
      taken_le := le_rfl
      write := by simp [hp, total]
      writePos := by simp [hw, total]
      read := by simp [hc]
      readPos := by simp [hr]
      cachedRead := ⟨0, le_rfl, by simp [hp], by simp [total]⟩
      cachedWrite := ⟨0, le_rfl, le_rfl, by simp [hc]⟩
      live := by simp }

end Insomnilog.Queue
