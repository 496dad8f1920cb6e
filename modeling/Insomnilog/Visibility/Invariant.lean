import Insomnilog.Visibility.Positions

/-! What holds in every run with the orderings of the code: where the plain accesses lie, which
stores hand them on, and how old a position may be that is still in use. -/
namespace Insomnilog.Visibility
open ByteStore Queue ReleaseAcquire RingPosition

variable {w k taken reserved i m address address' : ℕ} {written : List Chunk} {q : Spsc w}

/-- The address belongs to chunk `m`, or to the slice that is reserved for it. -/
def InChunk (k : ℕ) (written : List Chunk) (reserved m address : ℕ) : Prop :=
  ∃ i n, address = start written m % 2 ^ k + i ∧ i < n ∧
    ((∃ c, written[m]? = some c ∧ n = c.len) ∨ m = written.length ∧ n = reserved)

theorem InChunk.le (h : InChunk k written reserved m address) : m ≤ written.length := by
  obtain ⟨i, n, -, -, ⟨c, hc, -⟩ | ⟨hm, -⟩⟩ := h
  · exact (List.getElem?_eq_some_iff.mp hc).choose.le
  · exact hm.le

/-- Nothing was reserved before. -/
theorem InChunk.reserve (h : InChunk k written 0 m address) (reserved : ℕ) :
    InChunk k written reserved m address := by
  obtain ⟨i, n, haddress, hi, hchunk | ⟨-, rfl⟩⟩ := h
  · exact ⟨i, n, haddress, hi, .inl hchunk⟩
  · exact absurd hi (Nat.not_lt_zero i)

theorem InChunk.commit (h : InChunk k written reserved m address) {c : Chunk}
    (hc : c.len = reserved) : InChunk k (written ++ [c]) 0 m address := by
  have hm := h.le
  obtain ⟨i, n, haddress, hi, hchunk⟩ := h
  rw [← start_append c hm] at haddress
  refine ⟨i, n, haddress, hi, .inl ?_⟩
  obtain ⟨d, hd, hn⟩ | ⟨rfl, rfl⟩ := hchunk
  · refine ⟨d, ?_, hn⟩
    rw [List.getElem?_append_left (List.getElem?_eq_some_iff.mp hd).choose]
    exact hd
  · exact ⟨c, List.getElem?_concat_length, hc.symm⟩

/-- Chunks that lie within one lap of the ring share no address. -/
theorem InChunk.ne (h : InChunk k written reserved i address)
    (h' : InChunk k written reserved m address') (him : i < m)
    (hwindow : total written + reserved ≤ start written i + 2 ^ k) : address ≠ address' := by
  have hm := h'.le
  obtain ⟨x, n, rfl, hx, ⟨c, hc, rfl⟩ | ⟨rfl, -⟩⟩ := h
  · obtain ⟨y, n', rfl, hy, hchunk⟩ := h'
    have hend : start written m + n' ≤ total written + reserved := by
      obtain ⟨d, hd, rfl⟩ | ⟨rfl, rfl⟩ := hchunk
      · have hle := start_mono written (List.getElem?_eq_some_iff.mp hd).choose
        have hnext := start_succ hd
        have htotal : total written = start written written.length := rfl
        simp only [Nat.succ_eq_add_one] at hle
        omega
      · exact le_rfl
    have hnext : start written i + c.len ≤ start written m := by
      rw [← start_succ hc]
      exact start_mono written him
    intro heq
    exact disjoint_of_window (Nat.two_pow_pos k) hnext (hend.trans hwindow) _ (Nat.le_add_right _ x)
      (by omega) (heq ▸ Nat.le_add_right _ y) (by omega)
  · omega

/-- The stores to the two positions, one for each commit and one for each finished read. -/
structure Histories (written : List Chunk) (taken : ℕ)
    (memory : Memory Location Thread ℕ (Location.Value w)) : Prop where
  writes : (memory.history .writePos).length = written.length + 1
  reads : (memory.history .readPos).length = taken + 1
  write : ∀ j msg, (memory.history .writePos)[j]? = some msg →
    msg.value = BitVec.ofNat w (start written j)
  read : ∀ r msg, (memory.history .readPos)[r]? = some msg →
    msg.value = BitVec.ofNat w (start written r)

theorem Histories.write_le {memory : Memory Location Thread ℕ (Location.Value w)}
    (h : Histories written taken memory) {a : Thread} {j : ℕ} (hj : memory.Acquired a .writePos j) :
    j ≤ written.length := by
  obtain ⟨-, msg, hmsg, -⟩ := hj
  have hlt := (List.getElem?_eq_some_iff.mp hmsg).choose
  rw [h.writes] at hlt
  exact Nat.le_of_lt_succ hlt

theorem Histories.read_le {memory : Memory Location Thread ℕ (Location.Value w)}
    (h : Histories written taken memory) {a : Thread} {r : ℕ} (hr : memory.Acquired a .readPos r) :
    r ≤ taken := by
  obtain ⟨-, msg, hmsg, -⟩ := hr
  have hlt := (List.getElem?_eq_some_iff.mp hmsg).choose
  rw [h.reads] at hlt
  exact Nat.le_of_lt_succ hlt

/-- Each plain access lies in a chunk. Of a byte that was written, the store of `write_pos` that
commits the chunk hands it on, of a byte that was read, the store of `read_pos` that gives the
chunk back. -/
structure Accesses (k : ℕ) (written : List Chunk) (taken reserved : ℕ)
    (memory : Memory Location Thread ℕ (Location.Value w)) : Prop where
  closer : memory.accesses .closer = []
  producer : ∀ n x, (memory.accesses .producer)[n]? = some x → ∃ i,
    InChunk k written reserved i x.address ∧ memory.HandedOn .producer n .writePos i
  worker : ∀ n x, (memory.accesses .worker)[n]? = some x → x.kind = .read ∧ ∃ i,
    i ≤ taken ∧ i < written.length ∧ InChunk k written reserved i x.address ∧
    memory.HandedOn .worker n .readPos i

/-- The cached positions come from stores that have been acquired. -/
structure Caches (k : ℕ) (s : State w) : Prop where
  producer : ∃ r, s.memory.Acquired .producer .readPos r ∧
    s.queue.q.producer.cachedRead = BitVec.ofNat w (start s.queue.written r) ∧
    total s.queue.written + s.queue.producer.reserved ≤ start s.queue.written r + 2 ^ k
  worker : ∃ j, s.memory.Acquired .worker .writePos j ∧
    s.queue.q.consumer.cachedWrite = BitVec.ofNat w (start s.queue.written j) ∧
    start s.queue.written s.queue.reads.length ≤ start s.queue.written j ∧
    ∀ a off len seen, s.queue.consumer = .holding a off len seen →
      start s.queue.written s.queue.reads.length + len.toNat ≤ start s.queue.written j

/-- What is known with `alive` and with the flag. -/
structure Flags (s : State w) : Prop where
  commits : s.queue.written.length ≤ (s.memory.view .producer).seen .writePos
  idle : s.alive = false → s.queue.producer = .idle
  cleared : ∀ (n : ℕ) msg, (s.memory.history .alive)[n]? = some msg → msg.value = false →
    s.alive = false ∧ s.queue.written.length ≤ msg.view.seen .writePos
  dead : s.dead = true →
    s.alive = false ∧ s.queue.written.length ≤ (s.memory.view .worker).seen .writePos
  retired : s.retired = true → s.alive = false ∧
    start s.queue.written s.queue.written.length ≤ start s.queue.written s.queue.reads.length
  promises : s.promised.length = (s.memory.history .shutdownFlag).length
  promised : ∀ (n : ℕ) msg p, (s.memory.history .shutdownFlag)[n]? = some msg →
    s.promised[n]? = some p → p ≤ msg.view.seen .writePos
  heard : s.heard ≤ (s.memory.view .worker).seen .writePos
  stopped : s.stopped = true →
    start s.queue.written s.heard ≤ start s.queue.written s.queue.reads.length

structure Visible (k : ℕ) (s : State w) : Prop where
  queue : StateInv k s.queue
  clocked : s.memory.Clocked
  closed : s.memory.Closed
  raceFree : s.memory.raced = false
  histories : Histories s.queue.written s.queue.reads.length s.memory
  accesses : Accesses k s.queue.written s.queue.reads.length s.queue.producer.reserved s.memory
  caches : Caches k s
  flags : Flags s

theorem Caches.raise {s : State w} (h : Caches k s) (a : Thread) (v : View Location Thread) :
    Caches k { s with memory := s.memory.raise a v } := by
  obtain ⟨⟨r, hr, hproducer⟩, j, hj, hworker⟩ := h
  exact ⟨⟨r, hr.raise a v, hproducer⟩, j, hj.raise a v, hworker⟩

theorem Flags.raise {s : State w} (h : Flags s) (a : Thread) (v : View Location Thread) :
    Flags { s with memory := s.memory.raise a v } := by
  have hseen (b : Thread) := View.seen_mono (s.memory.le_raise a b v) .writePos
  exact { h with
    commits := h.commits.trans (hseen .producer)
    dead := fun hd => ⟨(h.dead hd).1, (h.dead hd).2.trans (hseen .worker)⟩
    heard := h.heard.trans (hseen .worker) }

namespace Visible
variable {s : State w}

/-- To know more does no harm. -/
theorem raise (h : Visible k s) {a : Thread} {v : View Location Thread}
    (hclosed : (s.memory.raise a v).Closed) :
    Visible k { s with memory := s.memory.raise a v } where
  queue := h.queue
  clocked := h.clocked.raise a v
  closed := hclosed
  raceFree := h.raceFree
  histories := ⟨h.histories.writes, h.histories.reads, h.histories.write, h.histories.read⟩
  accesses := ⟨h.accesses.closer, h.accesses.producer, h.accesses.worker⟩
  caches := h.caches.raise a v
  flags := h.flags.raise a v

theorem load (h : Visible k s) {o : LoadOrder} {a : Thread} {l : Location} {n : ℕ} {v : l.Value w}
    {memory : Memory Location Thread ℕ (Location.Value w)}
    (hload : s.memory.load o a l n = some (v, memory)) : Visible k { s with memory } := by
  have hclosed := h.closed.load hload
  obtain ⟨msg, -, -, -, rfl⟩ := Memory.load_cases hload
  exact h.raise hclosed

/-- A load of `read_pos` returns a position between the cached one and the newest. -/
theorem loadReadPos (h : Visible k s) {n readPos : BitVec w} {nth r₀ : ℕ}
    {memory : Memory Location Thread ℕ (Location.Value w)}
    (hr₀ : s.memory.Acquired .producer .readPos r₀)
    (hload : s.loadReadPos inCode n nth = some (readPos, memory)) :
    Visible k { s with memory } ∧ memory.Acquired .producer .readPos r₀ ∧
      (NeedsReadPos s.queue.q n → readPos = BitVec.ofNat w (start s.queue.written nth) ∧
        r₀ ≤ nth ∧ nth ≤ s.queue.reads.length ∧ memory.Acquired .producer .readPos nth) := by
  unfold State.loadReadPos at hload
  dsimp only at hload
  split at hload
  next hneeds =>
    have hacquired := Memory.load_acquired hload
    obtain ⟨msg, hmsg, rfl, hseen, hmemory⟩ := Memory.load_cases hload
    have hlt := (List.getElem?_eq_some_iff.mp hmsg).choose
    rw [h.histories.reads] at hlt
    refine ⟨h.load hload, ?_, fun _ => ⟨h.histories.read nth msg hmsg, hr₀.1.trans hseen,
      Nat.le_of_lt_succ hlt, hacquired⟩⟩
    rw [hmemory]
    exact hr₀.raise _ _
  next hneeds =>
    cases hload
    exact ⟨h, hr₀, fun hn => absurd hn hneeds⟩

/-- A load of `write_pos` returns a position between the cached one and the newest. -/
theorem loadWritePos (h : Visible k s) {writePos : BitVec w} {nth j₀ : ℕ}
    {memory : Memory Location Thread ℕ (Location.Value w)}
    (hj₀ : s.memory.Acquired .worker .writePos j₀)
    (hload : s.loadWritePos inCode nth = some (writePos, memory)) :
    Visible k { s with memory } ∧ memory.Acquired .worker .writePos j₀ ∧
      (¬ s.queue.q.consumer.read < s.queue.q.consumer.cachedWrite →
        writePos = BitVec.ofNat w (start s.queue.written nth) ∧
        (s.memory.view .worker).seen .writePos ≤ nth ∧ nth ≤ s.queue.written.length ∧
        memory.Acquired .worker .writePos nth) := by
  unfold State.loadWritePos at hload
  dsimp only at hload
  split at hload
  next hlt =>
    cases hload
    exact ⟨h, hj₀, fun hn => absurd hlt hn⟩
  next =>
    have hacquired := Memory.load_acquired hload
    obtain ⟨msg, hmsg, rfl, hseen, hmemory⟩ := Memory.load_cases hload
    have hlt := (List.getElem?_eq_some_iff.mp hmsg).choose
    rw [h.histories.writes] at hlt
    refine ⟨h.load hload, ?_, fun _ => ⟨h.histories.write nth msg hmsg, hseen,
      Nat.le_of_lt_succ hlt, hacquired⟩⟩
    rw [hmemory]
    exact hj₀.raise _ _

end Visible

end Insomnilog.Visibility
