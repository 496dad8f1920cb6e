import Insomnilog.Queue.Interleaving

/-! Every interleaving of the producer with the consumer keeps the queue invariant.
From it: reads return the written chunks in order, and the bytes handed to a write
closure are disjoint from every byte a reader may still look at. -/
namespace Insomnilog.Queue
open ByteStore RingPosition

variable {w k : ℕ} {s s' : State w}

/-- Bytes beyond the committed ones that a write closure holds. -/
def ProducerPhase.reserved : ProducerPhase w → ℕ
  | .idle => 0
  | .writing _ n => n.toNat
  | .returned _ n _ => n.toNat

/-- Every observed byte is the chunk's byte at that index. -/
def Sees (c : Chunk) (seen : Observations) : Prop := ∀ p ∈ seen, c.bytes[p.1]? = some p.2

theorem Sees.append {c : Chunk} {seen : Observations} {i : ℕ} {b : UInt8} (h : Sees c seen)
    (hb : c.bytes[i]? = some b) : Sees c (seen ++ [(i, b)]) := by
  intro p hp
  rcases List.mem_append.mp hp with hp | hp
  · exact h p hp
  · rw [List.mem_singleton.mp hp]
    exact hb

theorem Access.Permits.le {a : Access} {len : ℕ} {c : Chunk} (h : a.Permits len c) :
    len ≤ c.len := by
  cases a
  · exact h
  · exact Nat.le_of_eq h

/-- The producer's slice starts at the masked write position. -/
def ProducerOk (k : ℕ) (s : State w) : Prop :=
  match s.producer with
  | .idle => True
  | .writing off _ => off = total s.written % 2 ^ k
  | .returned off n bytes =>
      off = total s.written % 2 ^ k ∧ slice s.q.inner.buf off n.toNat = bytes

/-- The consumer holds a prefix of the next chunk; while it reads, its cached write
position lies beyond that chunk. -/
def ConsumerOk (s : State w) : Prop :=
  match s.consumer with
  | .idle => True
  | .holding a off len seen => ∃ c, s.written[s.reads.length]? = some c ∧
      off = c.off ∧ a.Permits len.toNat c ∧ Sees c seen ∧
      (a = .read → ∃ j, s.reads.length + 1 ≤ j ∧ j ≤ s.written.length ∧
        s.q.consumer.cachedWrite = BitVec.ofNat w (start s.written j))

/-- A finished access saw only bytes of the chunk it was meant for. -/
def Saw (written : List Chunk) (i : ℕ) (v : View) (rel : ℕ → ℕ → Prop) : Prop :=
  ∃ c, written[i]? = some c ∧ rel v.len c.len ∧ Sees c v.seen

theorem Saw.append {written : List Chunk} {i : ℕ} {v : View} {rel : ℕ → ℕ → Prop}
    (h : Saw written i v rel) (c : Chunk) : Saw (written ++ [c]) i v rel := by
  obtain ⟨d, hd, hv⟩ := h
  refine ⟨d, ?_, hv⟩
  rw [List.getElem?_append_left (List.getElem?_eq_some_iff.mp hd).choose]
  exact hd

structure StateInv (k : ℕ) (s : State w) : Prop where
  queue : Inv k s.q s.written s.reads.length s.producer.reserved
  producer : ProducerOk k s
  consumer : ConsumerOk s
  reads : ∀ i v, s.reads[i]? = some v → Saw s.written i v (· = ·)
  peeks : ∀ p ∈ s.peeks, Saw s.written p.1 p.2 (· ≤ ·)

namespace StateInv

theorem reserve (h : StateInv k s) (hp : s.producer = .idle) (n : BitVec w) :
    StateInv k (s.reserve n) := by
  have hq := h.queue
  rw [hp] at hq
  unfold State.reserve
  split
  next p hr =>
    exact ⟨hp ▸ hq.tryReserve_none hr, by simp only [ProducerOk, hp], h.consumer, h.reads,
      h.peeks⟩
  next off p hr =>
    obtain ⟨hoff, hq'⟩ := hq.tryReserve_some hr
    refine ⟨hq', ?_, h.consumer, h.reads, h.peeks⟩
    exact (congrArg BitVec.toNat hoff).trans hq.write_offset

theorem store (h : StateInv k s) {off i : ℕ} {n : BitVec w} (hp : s.producer = .writing off n)
    (hi : i < n.toNat) (b : UInt8) :
    StateInv k { s with q := { s.q with inner := { s.q.inner with
      buf := s.q.inner.buf.set (off + i) b } } } := by
  have hprod := h.producer
  simp only [ProducerOk, hp] at hprod
  have hlt : i < s.producer.reserved := by
    rw [hp]
    exact hi
  refine ⟨?_, ?_, h.consumer, h.reads, h.peeks⟩
  · rw [hprod]
    exact h.queue.store hlt b
  · simp only [ProducerOk, hp]
    exact hprod

theorem closureReturn (h : StateInv k s) {off : ℕ} {n : BitVec w}
    (hp : s.producer = .writing off n) :
    StateInv k { s with producer := .returned off n (slice s.q.inner.buf off n.toNat) } := by
  have hprod := h.producer
  have hq := h.queue
  simp only [ProducerOk, hp] at hprod
  rw [hp] at hq
  exact ⟨hq, ⟨hprod, rfl⟩, h.consumer, h.reads, h.peeks⟩

theorem commit (h : StateInv k s) {off : ℕ} {n : BitVec w} {bytes : List UInt8}
    (hp : s.producer = .returned off n bytes) : StateInv k (s.commit off n bytes) := by
  have hprod := h.producer
  have hq := h.queue
  simp only [ProducerOk, hp] at hprod
  obtain ⟨rfl, hs⟩ := hprod
  rw [hp] at hq
  have hlen : bytes.length = n.toNat := by
    rw [← hs]
    exact slice_length_of_le hq.reserved_fits
  refine ⟨hq.commit rfl hlen hs, trivial, ?_, fun i v hv => (h.reads i v hv).append _,
    fun p hm => (h.peeks p hm).append _⟩
  have hc := h.consumer
  simp only [ConsumerOk, State.commit] at hc ⊢
  split at hc
  · trivial
  next a off' len seen hh =>
    obtain ⟨c, hc, hoff, hperm, hseen, hcw⟩ := hc
    have hlt := (List.getElem?_eq_some_iff.mp hc).choose
    refine ⟨c, ?_, hoff, hperm, hseen, fun ha => ?_⟩
    · rw [List.getElem?_append_left hlt]
      exact hc
    · obtain ⟨j, hj, hjl, hje⟩ := hcw ha
      refine ⟨j, hj, by rw [List.length_append]; omega, ?_⟩
      rw [start_append _ hjl]
      exact hje

theorem available (h : StateInv k s) (hc : s.consumer = .idle) :
    StateInv k { s with q := { s.q with
      consumer := (Queue.available s.q.inner s.q.consumer).2 } } :=
  ⟨(h.queue.available rfl).2.1, h.producer, by simp only [ConsumerOk, hc], h.reads, h.peeks⟩

theorem acquire (h : StateInv k s) {a : Access} {len avail : BitVec w} {chunk : Chunk}
    {c : Consumer w} (hnext : s.written[s.reads.length]? = some chunk)
    (ha : Queue.available s.q.inner s.q.consumer = (avail, c)) (hle : len ≤ avail)
    (hperm : a.Permits len.toNat chunk) :
    StateInv k { s with
      q := { s.q with consumer := c }
      consumer := .holding a (readOffset s.q.inner c) len [] } := by
  obtain ⟨hread, hq, ⟨j, hj, hjl, hcw, hav⟩, _⟩ := h.queue.available ha
  have hlt := (List.getElem?_eq_some_iff.mp hnext).choose
  refine ⟨hq, h.producer, ⟨chunk, hnext, ?_, hperm, by simp [Sees], ?_⟩, h.reads, h.peeks⟩
  · have hoff := hq.read_offset
    rw [(h.queue.live _ _ le_rfl hnext).1]
    exact hoff
  · rintro rfl
    rcases Nat.lt_or_ge s.reads.length j with hlt' | hge
    · exact ⟨j, hlt', hjl, hcw⟩
    · -- nothing was reported, so the chunk is empty and its end is its start
      obtain rfl : j = s.reads.length := by omega
      rw [BitVec.le_def, hav, Nat.sub_self] at hle
      have hz : chunk.len = 0 := hperm.symm.trans (Nat.le_zero.mp hle)
      refine ⟨s.reads.length + 1, le_rfl, hlt, ?_⟩
      rw [start_succ hnext, hz]
      exact hcw

theorem observe (h : StateInv k s) {a : Access} {off i : ℕ} {len : BitVec w}
    {seen : Observations} {b : UInt8} (hc : s.consumer = .holding a off len seen)
    (hb : s.q.inner.buf[off + i]? = some b) (hi : i < len.toNat) :
    StateInv k { s with consumer := .holding a off len (seen ++ [(i, b)]) } := by
  have hcons := h.consumer
  simp only [ConsumerOk, hc] at hcons
  obtain ⟨c, hnext, rfl, hperm, hseen, hcw⟩ := hcons
  have hs := (h.queue.live _ _ le_rfl hnext).2
  refine ⟨h.queue, h.producer, ⟨c, hnext, rfl, hperm, hseen.append ?_, hcw⟩, h.reads, h.peeks⟩
  rw [← hs, slice_getElem?, if_pos (hi.trans_le hperm.le)]
  exact hb

theorem release (h : StateInv k s) {a : Access} {off : ℕ} {len : BitVec w}
    {seen : Observations} (hc : s.consumer = .holding a off len seen) :
    StateInv k (s.release a len seen) := by
  have hcons := h.consumer
  simp only [ConsumerOk, hc] at hcons
  obtain ⟨c, hnext, _, hperm, hseen, hcw⟩ := hcons
  cases a with
  | peek =>
    refine ⟨h.queue, h.producer, trivial, h.reads, fun p hm => ?_⟩
    rcases List.mem_append.mp hm with hm | hm
    · exact h.peeks p hm
    · rw [List.mem_singleton.mp hm]
      exact ⟨c, hnext, hperm, hseen⟩
  | read =>
    have hlen : (s.release .read len seen).reads.length = s.reads.length + 1 := by
      simp [State.release]
    refine ⟨?_, h.producer, trivial, fun i v hv => ?_, h.peeks⟩
    · rw [hlen]
      exact h.queue.advance hnext hperm (hcw rfl)
    · simp only [State.release] at hv
      by_cases hi : i < s.reads.length
      · rw [List.getElem?_append_left hi] at hv
        exact h.reads i v hv
      · have hil := (List.getElem?_eq_some_iff.mp hv).choose
        rw [List.length_append, List.length_singleton] at hil
        obtain rfl : i = s.reads.length := by omega
        rw [List.getElem?_concat_length] at hv
        rw [← Option.some.inj hv]
        exact ⟨c, hnext, hperm, hseen⟩

/-- One step of either side keeps the invariant. -/
theorem step (h : StateInv k s) {e : Event w} (hs : Queue.step s e = some s') :
    StateInv k s' := by
  cases e with
  | reserve n =>
    simp only [Queue.step] at hs
    split at hs <;> cases hs
    exact h.reserve (by assumption) n
  | store i b =>
    simp only [Queue.step] at hs
    split at hs
    · split at hs <;> cases hs
      exact h.store (by assumption) (by assumption) b
    · cases hs
  | closureReturn =>
    simp only [Queue.step] at hs
    split at hs <;> cases hs
    exact h.closureReturn (by assumption)
  | commit =>
    simp only [Queue.step] at hs
    split at hs <;> cases hs
    exact h.commit (by assumption)
  | available =>
    simp only [Queue.step] at hs
    split at hs <;> cases hs
    exact h.available (by assumption)
  | acquire a len =>
    simp only [Queue.step] at hs
    split at hs
    next chunk _ hnext =>
      split at hs <;> cases hs
      next hg => exact h.acquire hnext rfl hg.1 hg.2
    · cases hs
  | observe i =>
    simp only [Queue.step] at hs
    split at hs
    · split at hs
      · split at hs <;> cases hs
        exact h.observe (by assumption) (by assumption) (by assumption)
      · cases hs
    · cases hs
  | release =>
    simp only [Queue.step] at hs
    split at hs <;> cases hs
    exact h.release (by assumption)

end StateInv

theorem init_inv {checks : Bool} {capacity : BitVec w} {q : Spsc w}
    (hnew : new checks capacity = some q) (hfit : 2 * roundUp capacity.toNat < 2 ^ w) :
    ∃ k, roundUp capacity.toNat = 2 ^ k ∧ StateInv k (system q).init := by
  obtain ⟨k, hk, hq⟩ := new_inv hnew hfit
  exact ⟨k, hk, hq, trivial, trivial, by simp [system], by simp [system]⟩

theorem reachable_inv {checks : Bool} {capacity : BitVec w} {q : Spsc w}
    (hnew : new checks capacity = some q) (hfit : 2 * roundUp capacity.toNat < 2 ^ w)
    (hs : (system q).Reachable s) : ∃ k, roundUp capacity.toNat = 2 ^ k ∧ StateInv k s := by
  obtain ⟨k, hk, hi⟩ := init_inv hnew hfit
  exact ⟨k, hk, hs.invariant hi fun _ _ _ _ h hstep => h.step hstep⟩

/-- The queue delivers chunks: read `i` took chunk `i` and saw its bytes, every peek
saw a prefix of the chunk then next, and the chunks still unread lie intact in the
ring of `C` bytes where the reads will look for them. -/
structure LosslessFifo (C : ℕ) (s : State w) : Prop where
  reads_le : s.reads.length ≤ s.written.length
  read : ∀ (i : ℕ) (v : View), s.reads[i]? = some v →
    ∃ c, s.written[i]? = some c ∧ v.len = c.len ∧ Sees c v.seen
  peek : ∀ p ∈ s.peeks, ∃ c, s.written[p.1]? = some c ∧ p.2.len ≤ c.len ∧ Sees c p.2.seen
  holding : ∀ a off len seen, s.consumer = .holding a off len seen →
    ∃ c, s.written[s.reads.length]? = some c ∧ a.Permits len.toNat c ∧
      slice s.q.inner.buf off len.toNat = c.bytes.take len.toNat
  unread : ∀ i c, s.reads.length ≤ i → s.written[i]? = some c →
    slice s.q.inner.buf (start s.written i % C) c.len = c.bytes

theorem StateInv.losslessFifo (h : StateInv k s) : LosslessFifo (2 ^ k) s where
  reads_le := h.queue.taken_le
  read := h.reads
  peek := h.peeks
  holding a off len seen hc := by
    have hcons := h.consumer
    simp only [ConsumerOk, hc] at hcons
    obtain ⟨c, hnext, rfl, hperm, _, _⟩ := hcons
    refine ⟨c, hnext, hperm, ?_⟩
    rw [← (h.queue.live _ _ le_rfl hnext).2, slice_take hperm.le]
  unread i c hi hc := by
    obtain ⟨hoff, hs⟩ := h.queue.live i c hi hc
    rw [← hoff]
    exact hs

/-- Lossless first-in first-out delivery of chunks in every interleaving. -/
theorem spsc_lossless_fifo {checks : Bool} {capacity : BitVec w} {q : Spsc w}
    (hnew : new checks capacity = some q) (hfit : 2 * roundUp capacity.toNat < 2 ^ w)
    (hs : (system q).Reachable s) : LosslessFifo (roundUp capacity.toNat) s := by
  obtain ⟨k, hk, h⟩ := reachable_inv hnew hfit hs
  rw [hk]
  exact h.losslessFifo

/-- A ring of four bytes with five-bit positions. -/
def smallRing : Spsc 5 :=
  ⟨⟨List.replicate 8 0, 4, 3, 0, 0⟩, ⟨0, 0⟩, ⟨0, 0⟩⟩

/-- Two chunks of three bytes: the second starts at offset 3 and crosses the end of
the ring while it is written and read. -/
def crossingRun : List (Event 5) :=
  [.reserve 3, .store 0 1, .store 1 2, .store 2 3, .closureReturn, .commit,
    .acquire .read 3, .observe 0, .reserve 3, .observe 2, .release, .reserve 3,
    .store 0 4, .store 2 6, .closureReturn, .commit,
    .acquire .peek 1, .observe 0, .release, .acquire .read 3, .observe 2, .release]

theorem spsc_lossless_fifo_crossing :
    ∃ s, (system smallRing).run crossingRun = some s ∧ s.reads.length = 2 ∧
      LosslessFifo 4 s := by
  have hnew : new true (3 : BitVec 5) = some smallRing := by decide
  have hlen : ((system smallRing).run crossingRun).map (·.reads.length) = some 2 := by decide
  obtain ⟨s, hs, hlen⟩ := Option.map_eq_some_iff.mp hlen
  exact ⟨s, hs, hlen, spsc_lossless_fifo hnew (by decide) ⟨crossingRun, hs⟩⟩

/-- `[off, off + n)` is handed to a write closure in `s`: one that is running or has
just returned, or the one a reservation granted in `s` would start. -/
def Grants (s : State w) (off n : ℕ) : Prop :=
  match s.producer with
  | .idle => ∃ m o p, tryReserve s.q.inner s.q.producer m = (some o, p) ∧
      off = o.toNat ∧ n = m.toNat
  | .writing off' m => off = off' ∧ n = m.toNat
  | .returned off' m _ => off = off' ∧ n = m.toNat

theorem StateInv.grants (h : StateInv k s) {off n : ℕ} (hg : Grants s off n) :
    off = (s.q.producer.write &&& s.q.inner.mask).toNat ∧ off + n ≤ s.q.inner.buf.length ∧
      ∀ i c, s.reads.length ≤ i → s.written[i]? = some c → Disjoint off n c.off c.len := by
  have key {q : Spsc w} (hq : Inv k q s.written s.reads.length n)
      (hoff : off = total s.written % 2 ^ k) : off + n ≤ q.inner.buf.length ∧
      ∀ i c, s.reads.length ≤ i → s.written[i]? = some c → Disjoint off n c.off c.len := by
    rw [hoff]
    exact ⟨hq.reserved_fits, fun i c hi hc => (hq.reserved_disjoint hi hc).symm⟩
  have hprod := h.producer
  have hq := h.queue
  have hwo := hq.write_offset
  unfold Grants at hg
  unfold ProducerOk at hprod
  split at hg
  next hp =>
    obtain ⟨m, o, p, hr, rfl, rfl⟩ := hg
    rw [hp] at hq
    obtain ⟨ho, hq'⟩ := hq.tryReserve_some hr
    have ho' := congrArg BitVec.toNat ho
    have hres := key hq' (ho'.trans hwo)
    exact ⟨ho', hres⟩
  next off' m hp =>
    obtain ⟨rfl, rfl⟩ := hg
    rw [hp] at hq hprod
    exact ⟨hprod.trans hwo.symm, key hq hprod⟩
  next off' m bytes hp =>
    obtain ⟨rfl, rfl⟩ := hg
    rw [hp] at hq hprod
    exact ⟨hprod.1.trans hwo.symm, key hq hprod.1⟩

/-- The physical range of a slice the consumer holds. -/
def Holds (s : State w) (off len : ℕ) : Prop :=
  ∃ a m seen, s.consumer = .holding a off m seen ∧ len = m.toNat

theorem StateInv.holds (h : StateInv k s) {off len : ℕ} (hh : Holds s off len) :
    ∃ c, s.written[s.reads.length]? = some c ∧ off = c.off ∧ len ≤ c.len := by
  obtain ⟨a, m, seen, hc, rfl⟩ := hh
  have hcons := h.consumer
  simp only [ConsumerOk, hc] at hcons
  obtain ⟨c, hnext, hoff, hperm, _⟩ := hcons
  exact ⟨c, hnext, hoff, hperm.le⟩

theorem buf_length_lt {checks : Bool} {capacity : BitVec w} {q : Spsc w}
    (hnew : new checks capacity = some q) : q.inner.buf.length < 2 ^ w := by
  unfold new at hnew
  split at hnew
  · contradiction
  · obtain ⟨cap, _, hnew⟩ := Option.bind_eq_some_iff.mp hnew
    obtain ⟨len, _, hnew⟩ := Option.bind_eq_some_iff.mp hnew
    obtain ⟨buf, hbuf, hnew⟩ := Option.bind_eq_some_iff.mp hnew
    unfold zeroed at hbuf
    split at hbuf
    · obtain rfl := Option.some.inj hbuf
      obtain rfl := Option.some.inj hnew
      rw [List.length_replicate]
      exact len.isLt
    · contradiction

theorem StateInv.buf_length (h : StateInv k s) : s.q.inner.buf.length = 2 * 2 ^ k :=
  h.queue.geometry.buf

/-- The slice of a write closure lies in the allocation and meets neither a chunk that
is committed and unread nor a slice the consumer holds, which lies in it as well. -/
theorem reservation_disjoint {checks : Bool} {capacity : BitVec w} {q : Spsc w}
    (hnew : new checks capacity = some q)
    (hbuf : q.inner.buf.length = 2 * roundUp capacity.toNat)
    (hs : (system q).Reachable s) :
    (∀ off n, Grants s off n →
      off = (s.q.producer.write &&& s.q.inner.mask).toNat ∧
      off + n ≤ 2 * roundUp capacity.toNat ∧
      (∀ i c, s.reads.length ≤ i → s.written[i]? = some c → Disjoint off n c.off c.len) ∧
      ∀ off' len, Holds s off' len → Disjoint off n off' len) ∧
    (∀ i c, s.reads.length ≤ i → s.written[i]? = some c →
      c.off + c.len ≤ 2 * roundUp capacity.toNat) ∧
    ∀ off len, Holds s off len → off + len ≤ 2 * roundUp capacity.toNat := by
  obtain ⟨k, hk, h⟩ := reachable_inv hnew (hbuf ▸ buf_length_lt hnew) hs
  rw [hk, ← h.buf_length]
  refine ⟨fun off n hg => ?_, fun i c hi hc => h.queue.live_fits hi hc, fun off len hh => ?_⟩
  · obtain ⟨hoff, hfit, hd⟩ := h.grants hg
    refine ⟨hoff, hfit, hd, fun off' len hh => ?_⟩
    obtain ⟨c, hnext, rfl, hle⟩ := h.holds hh
    exact (hd _ c le_rfl hnext).mono_right hle
  · obtain ⟨c, hnext, rfl, hle⟩ := h.holds hh
    have := h.queue.live_fits le_rfl hnext
    omega

/-- A closure runs on offset 3 while the consumer reads offsets 0 to 2. -/
theorem reservation_disjoint_overlapping :
    ∃ s, (system smallRing).run [.reserve 3, .closureReturn, .commit, .acquire .read 3,
        .observe 1, .reserve 1] = some s ∧
      Grants s 3 1 ∧ Holds s 0 3 ∧ Disjoint 3 1 0 3 := by
  have hnew : new true (3 : BitVec 5) = some smallRing := by decide
  have hphase : ((system smallRing).run [.reserve 3, .closureReturn, .commit, .acquire .read 3,
      .observe 1, .reserve 1]).map (fun s => (s.producer, s.consumer)) =
      some (.writing 3 1, .holding .read 0 3 [(1, 0)]) := by decide
  obtain ⟨s, hs, hphase⟩ := Option.map_eq_some_iff.mp hphase
  obtain ⟨hp, hc⟩ := Prod.mk.inj hphase
  have hg : Grants s 3 1 := by
    unfold Grants
    rw [hp]
    exact ⟨rfl, rfl⟩
  have hh : Holds s 0 3 := ⟨.read, 3, [(1, 0)], hc, rfl⟩
  exact ⟨s, hs, hg, hh, ((reservation_disjoint hnew (by decide) ⟨_, hs⟩).1 3 1 hg).2.2.2 0 3 hh⟩

end Insomnilog.Queue
