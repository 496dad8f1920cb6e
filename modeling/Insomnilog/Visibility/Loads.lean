import Insomnilog.Visibility.Invariant

/-! Loads keep the invariant, when the orderings are those of the code. -/
namespace Insomnilog.Visibility
open ByteStore Queue ReleaseAcquire RingPosition

variable {w k : ℕ} {s s' : State w}

/-- The stream of chunks and the reads are as before. -/
theorem Flags.sameStream (h : Flags s) {queue : Queue.State w}
    (hwritten : queue.written = s.queue.written) (hreads : queue.reads = s.queue.reads)
    (hidle : s.alive = false → queue.producer = .idle) : Flags { s with queue } := by
  refine ⟨?_, hidle, ?_, ?_, ?_, h.promises, h.promised, h.heard, ?_⟩
  all_goals
    dsimp only
    try rw [hwritten]
    try rw [hreads]
  · exact h.commits
  · exact h.cleared
  · exact h.dead
  · exact h.retired
  · exact h.stopped

theorem Accesses.reserve {written : List Chunk} {taken : ℕ}
    {memory : Memory Location Thread ℕ (Location.Value w)} (h : Accesses k written taken 0 memory)
    (reserved : ℕ) : Accesses k written taken reserved memory := by
  refine ⟨h.closer, fun n x hx => ?_, fun n x hx => ?_⟩
  · obtain ⟨i, hi, hhanded⟩ := h.producer n x hx
    exact ⟨i, hi.reserve reserved, hhanded⟩
  · obtain ⟨hkind, i, hle, hlt, hi, hhanded⟩ := h.worker n x hx
    exact ⟨hkind, i, hle, hlt, hi.reserve reserved, hhanded⟩

theorem State.not_stopped (s : State w) (h : s.busy = false) : s.stopped = false := by
  unfold State.busy at h
  cases hs : s.stopped with
  | false => rfl
  | true => simp [hs] at h

namespace Visible

/-- A step on the queue that keeps the stream, the positions and the slice that is read. -/
theorem sameStream (h : Visible k s) {queue : Queue.State w} (hqueue : StateInv k queue)
    (hwritten : queue.written = s.queue.written) (hreads : queue.reads = s.queue.reads)
    (hreserved : queue.producer.reserved = s.queue.producer.reserved)
    (hproducer : queue.q.producer = s.queue.q.producer)
    (hconsumer : queue.q.consumer = s.queue.q.consumer)
    (hidle : s.alive = false → queue.producer = .idle)
    (hholding : ∀ a off len seen, queue.consumer = .holding a off len seen →
      ∃ seen', s.queue.consumer = .holding a off len seen') : Visible k { s with queue } := by
  refine ⟨hqueue, h.clocked, h.closed, h.raceFree, ?_, ?_, ⟨?_, ?_⟩,
    h.flags.sameStream hwritten hreads hidle⟩
  all_goals
    dsimp only
    rw [hwritten]
  · rw [hreads]
    exact h.histories
  · rw [hreads, hreserved]
    exact h.accesses
  · rw [hproducer, hreserved]
    exact h.caches.producer
  · obtain ⟨j, hj, hcached, hle, hslice⟩ := h.caches.worker
    rw [hconsumer, hreads]
    refine ⟨j, hj, hcached, hle, fun a off len seen hc => ?_⟩
    obtain ⟨seen', hc'⟩ := hholding a off len seen hc
    exact hslice a off len seen' hc'

/-- The producer goes on with the cached read position, or with one it has just acquired. -/
theorem reserve (h : Visible k s) (hidle : s.queue.producer = .idle) (halive : s.alive = true)
    {n readPos : BitVec w} {nth : ℕ} {memory : Memory Location Thread ℕ (Location.Value w)}
    (hload : s.loadReadPos inCode n nth = some (readPos, memory)) :
    Visible k { s with queue := reserveWith s.queue readPos n, memory } := by
  obtain ⟨r₀, hr₀, hcached, hroom⟩ := h.caches.producer
  have hq := h.queue.queue
  rw [hidle] at hroom hq
  obtain ⟨h', hr₀', hv⟩ := h.loadReadPos hr₀ hload
  have hbound {r : ℕ} (hr : memory.Acquired .producer .readPos r) :
      r ≤ s.queue.reads.length := h'.histories.read_le hr
  have haccesses := h'.accesses
  have hoff := hq.write_offset
  have hdead : s.alive = false → False := fun hf => by rw [halive] at hf; cases hf
  unfold reserveWith
  cases hres : tryReserve { s.queue.q.inner with readPos } s.queue.q.producer n with
  | mk res p =>
    obtain ⟨r, hr, rfl, hmatch⟩ := reserve_with hq hcached (hbound hr₀') hroom
      (fun hn => ⟨(hv hn).1, (hv hn).2.1, (hv hn).2.2.1⟩) hres
    have hacquired : memory.Acquired .producer .readPos r := by
      rcases hr with rfl | ⟨hn, rfl⟩
      · exact hr₀'
      · exact (hv hn).2.2.2
    have hinv {reserved : ℕ}
        (hfits : total s.queue.written + reserved ≤ start s.queue.written r + 2 ^ k) :
        Inv k { s.queue.q with producer := { s.queue.q.producer with
          cachedRead := BitVec.ofNat w (start s.queue.written r) } }
          s.queue.written s.queue.reads.length reserved :=
      { hq with cachedRead := ⟨r, hbound hacquired, rfl, hfits⟩ }
    cases res with
    | none =>
      have hqueue : StateInv k { s.queue with q := { s.queue.q with
          producer := { s.queue.q.producer with
            cachedRead := BitVec.ofNat w (start s.queue.written r) } } } :=
        ⟨hidle ▸ hinv hmatch, by simp only [ProducerOk, hidle], h.queue.consumer, h.queue.reads,
          h.queue.peeks⟩
      refine ⟨hqueue, h'.clocked, h'.closed, h'.raceFree, h'.histories, haccesses,
        ⟨⟨r, hacquired, rfl, ?_⟩, h'.caches.worker⟩,
        h'.flags.sameStream rfl rfl fun hf => (hdead hf).elim⟩
      dsimp only
      rw [hidle]
      exact hmatch
    | some off =>
      obtain ⟨rfl, hfits⟩ := hmatch
      have hqueue : StateInv k { s.queue with
          q := { s.queue.q with producer := { s.queue.q.producer with
            cachedRead := BitVec.ofNat w (start s.queue.written r) } }
          producer := .writing (s.queue.q.producer.write &&& s.queue.q.inner.mask).toNat n } :=
        ⟨hinv hfits, hoff, h.queue.consumer, h.queue.reads, h.queue.peeks⟩
      dsimp only at haccesses
      rw [hidle] at haccesses
      exact ⟨hqueue, h'.clocked, h'.closed, h'.raceFree, h'.histories, haccesses.reserve n.toNat,
        ⟨⟨r, hacquired, rfl, hfits⟩, h'.caches.worker⟩,
        h'.flags.sameStream rfl rfl fun hf => (hdead hf).elim⟩

/-- What `available` returns are the bytes up to a store of `write_pos` that the worker has
acquired, and that is as new as any it knows of if nothing is left before it. -/
theorem availableWith_cases (h : Visible k s) {writePos avail : BitVec w} {nth : ℕ}
    {memory : Memory Location Thread ℕ (Location.Value w)} {queue : Queue.State w}
    (hload : s.loadWritePos inCode nth = some (writePos, memory))
    (ha : availableWith s.queue writePos = (avail, queue)) :
    Visible k { s with memory } ∧ ∃ j, memory.Acquired .worker .writePos j ∧
      j ≤ s.queue.written.length ∧
      start s.queue.written s.queue.reads.length ≤ start s.queue.written j ∧
      avail.toNat = start s.queue.written j - start s.queue.written s.queue.reads.length ∧
      queue = withCachedWrite s.queue j ∧
      (avail = 0 → start s.queue.written ((s.memory.view .worker).seen .writePos) ≤
        start s.queue.written s.queue.reads.length) := by
  obtain ⟨j₀, hj₀, hcached, hle, -⟩ := h.caches.worker
  obtain ⟨h', hj₀', hv⟩ := h.loadWritePos hj₀ hload
  unfold availableWith at ha
  cases hres : Queue.available { s.queue.q.inner with writePos } s.queue.q.consumer with
  | mk avail' c =>
    rw [hres] at ha
    obtain ⟨rfl, rfl⟩ := Prod.mk.inj ha
    have hj₀le := h.histories.write_le hj₀
    obtain ⟨j, hj, rfl, havail⟩ := available_with h.queue.queue hcached hj₀le hle
      (fun hn => ⟨(hv hn).1, hj₀.1.trans (hv hn).2.1, (hv hn).2.2.1⟩) hres
    refine ⟨h', j, ?_⟩
    rcases hj with ⟨rfl, hne⟩ | ⟨hn, rfl⟩
    · exact ⟨hj₀', hj₀le, hle, havail, rfl, fun hz => absurd hz hne⟩
    · obtain ⟨-, hseen, hjle, hacquired⟩ := hv hn
      have hle' := hle.trans (start_mono _ (hj₀.1.trans hseen))
      refine ⟨hacquired, hjle, hle', havail, rfl, fun hz => ?_⟩
      rw [hz] at havail
      have hseen' := start_mono s.queue.written hseen
      have hzero : (0 : BitVec w).toNat = 0 := rfl
      omega

theorem available (h : Visible k s) (hidle : s.queue.consumer = .idle) {writePos avail : BitVec w}
    {nth : ℕ} {memory : Memory Location Thread ℕ (Location.Value w)} {queue : Queue.State w}
    (hload : s.loadWritePos inCode nth = some (writePos, memory))
    (ha : availableWith s.queue writePos = (avail, queue)) :
    Visible k { s with queue, memory } ∧ queue.consumer = .idle ∧
      queue.written = s.queue.written ∧ queue.reads = s.queue.reads ∧
      (avail = 0 → start s.queue.written ((s.memory.view .worker).seen .writePos) ≤
        start s.queue.written s.queue.reads.length) := by
  obtain ⟨h', j, hj, hjle, hle, havail, rfl, hzero⟩ := h.availableWith_cases hload ha
  have hconsumer : ConsumerOk (withCachedWrite s.queue j) := by
    simp only [ConsumerOk, withCachedWrite, hidle]
  have hqueue : StateInv k (withCachedWrite s.queue j) :=
    ⟨inv_withCachedWrite h.queue.queue hjle hle, h.queue.producer, hconsumer, h.queue.reads,
      h.queue.peeks⟩
  refine ⟨⟨hqueue, h'.clocked, h'.closed, h'.raceFree, h'.histories, h'.accesses,
    ⟨h'.caches.producer, j, hj, rfl, hle, fun a off len seen hc => ?_⟩,
    h'.flags.sameStream rfl rfl h.flags.idle⟩, hidle, rfl, rfl, hzero⟩
  cases hidle.symm.trans hc

theorem acquire (h : Visible k s) {writePos len : BitVec w} {a : Access} {nth : ℕ}
    {memory : Memory Location Thread ℕ (Location.Value w)} {queue : Queue.State w}
    (hload : s.loadWritePos inCode nth = some (writePos, memory))
    (ha : acquireWith s.queue writePos a len = some queue) :
    Visible k { s with queue, memory } := by
  unfold acquireWith at ha
  split at ha
  next chunk hidle hnext =>
    dsimp only at ha
    split at ha
    next hguard =>
      cases ha
      cases hres : availableWith s.queue writePos with
      | mk avail queue =>
        rw [hres] at hguard
        obtain ⟨hlen, hperm⟩ := hguard
        obtain ⟨h', j, hj, hjle, hle, havail, rfl, -⟩ := h.availableWith_cases hload hres
        dsimp only
        have hinv := inv_withCachedWrite h.queue.queue hjle hle
        have hspan : start s.queue.written s.queue.reads.length + len.toNat ≤
            start s.queue.written j := by
          rw [BitVec.le_def, havail] at hlen
          omega
        have hlt := (List.getElem?_eq_some_iff.mp hnext).choose
        have hread : a = .read → ∃ j', s.queue.reads.length + 1 ≤ j' ∧
            j' ≤ s.queue.written.length ∧ BitVec.ofNat w (start s.queue.written j) =
              BitVec.ofNat w (start s.queue.written j') := by
          rintro rfl
          have hnextStart := start_succ hnext
          have hend : start s.queue.written (s.queue.reads.length + 1) ≤
              start s.queue.written j := by
            rw [hnextStart, ← show len.toNat = chunk.len from hperm]
            exact hspan
          refine ⟨max (s.queue.reads.length + 1) j, le_max_left _ _, max_le hlt hjle, ?_⟩
          rw [(start_mono _).map_max, max_eq_right hend]
        have hoff := hinv.read_offset
        rw [← (h.queue.queue.live _ _ le_rfl hnext).1] at hoff
        have hqueue : StateInv k { withCachedWrite s.queue j with
            consumer := .holding a
              (readOffset s.queue.q.inner (withCachedWrite s.queue j).q.consumer) len [] } :=
          ⟨hinv, h.queue.producer, ⟨chunk, hnext, hoff, hperm, by simp [Sees], hread⟩,
            h.queue.reads, h.queue.peeks⟩
        refine ⟨hqueue, h'.clocked, h'.closed, h'.raceFree, h'.histories, h'.accesses,
          ⟨h'.caches.producer, j, hj, rfl, hle, fun a' off' len' seen' hc => ?_⟩,
          h'.flags.sameStream rfl rfl h.flags.idle⟩
        cases hc
        exact hspan
    next => cases ha
  next => cases ha

/-- A thread that is found dead has no more to commit, and the worker knows of all it has
committed. -/
theorem checkAlive (h : Visible k s) {nth : ℕ} {alive : Bool}
    {memory : Memory Location Thread ℕ (Location.Value w)}
    (hload : s.memory.load .acquire .worker .alive nth = some (alive, memory)) :
    Visible k { s with memory, dead := !alive } := by
  have h' := h.load hload
  obtain ⟨msg, hmsg, rfl, -, hmemory⟩ := Memory.load_cases hload
  obtain ⟨-, msg', hmsg', hview⟩ := Memory.load_acquired hload
  have hsame : (memory.history .alive)[nth]? = some msg := by
    rw [hmemory]
    exact hmsg
  cases hsame.symm.trans hmsg'
  refine ⟨h'.queue, h'.clocked, h'.closed, h'.raceFree, h'.histories, h'.accesses,
    ⟨h'.caches.producer, h'.caches.worker⟩, { h'.flags with dead := fun hd => ?_ }⟩
  have hvalue : msg.value = false := by simpa using hd
  obtain ⟨halive, hcommits⟩ := h.flags.cleared nth msg hmsg hvalue
  exact ⟨halive, hcommits.trans (View.seen_mono hview .writePos)⟩

theorem loadFlag (h : Visible k s) {nth : ℕ} {flag : Bool}
    {memory : Memory Location Thread ℕ (Location.Value w)}
    (hload : s.memory.load .acquire .worker .shutdownFlag nth = some (flag, memory))
    (hstopped : s.stopped = false) :
    Visible k { s with memory, shuttingDown := flag, heard := s.promised.getD nth 0 } := by
  have h' := h.load hload
  obtain ⟨msg, hmsg, rfl, -, hmemory⟩ := Memory.load_cases hload
  obtain ⟨-, msg', hmsg', hview⟩ := Memory.load_acquired hload
  have hsame : (memory.history .shutdownFlag)[nth]? = some msg := by
    rw [hmemory]
    exact hmsg
  cases hsame.symm.trans hmsg'
  refine ⟨h'.queue, h'.clocked, h'.closed, h'.raceFree, h'.histories, h'.accesses,
    ⟨h'.caches.producer, h'.caches.worker⟩, { h'.flags with heard := ?_, stopped := ?_ }⟩
  · show s.promised.getD nth 0 ≤ _
    rw [List.getD_eq_getElem?_getD]
    cases hp : s.promised[nth]? with
    | none => exact Nat.zero_le _
    | some p => exact (h.flags.promised nth msg p hmsg hp).trans (View.seen_mono hview .writePos)
  · intro hs
    rw [show s.stopped = true from hs] at hstopped
    cases hstopped

/-- The queue of a dead thread is let go only when all of it has been read. -/
theorem retain (h : Visible k s) (hidle : s.queue.consumer = .idle) (hdead : s.dead = true)
    {nth : ℕ} {writePos avail : BitVec w} {memory : Memory Location Thread ℕ (Location.Value w)}
    {queue : Queue.State w} (hload : s.loadWritePos inCode nth = some (writePos, memory))
    (ha : availableWith s.queue writePos = (avail, queue)) :
    Visible k { s with queue, memory, dead := false, retired := decide (avail = 0) } := by
  obtain ⟨h', -, hwritten, hreads, hzero⟩ := h.available hidle hload ha
  obtain ⟨halive, hcommits⟩ := h.flags.dead hdead
  refine ⟨h'.queue, h'.clocked, h'.closed, h'.raceFree, h'.histories, h'.accesses,
    ⟨h'.caches.producer, h'.caches.worker⟩,
    { h'.flags with dead := nofun, retired := fun hr => ?_ }⟩
  dsimp only
  rw [hwritten, hreads]
  have hempty := hzero (of_decide_eq_true hr)
  exact ⟨halive, (start_mono _ hcommits).trans hempty⟩

/-- The worker leaves its loop only when all that it was promised has been read. -/
theorem pending (h : Visible k s) (hidle : s.queue.consumer = .idle) {nth : ℕ} {others : Bool}
    {writePos avail : BitVec w} {memory : Memory Location Thread ℕ (Location.Value w)}
    {queue : Queue.State w} (hload : s.loadWritePos inCode nth = some (writePos, memory))
    (ha : availableWith s.queue writePos = (avail, queue)) :
    Visible k { s with queue, memory, stopped := decide (avail = 0) && !others } := by
  obtain ⟨h', -, hwritten, hreads, hzero⟩ := h.available hidle hload ha
  refine ⟨h'.queue, h'.clocked, h'.closed, h'.raceFree, h'.histories, h'.accesses,
    ⟨h'.caches.producer, h'.caches.worker⟩, { h'.flags with stopped := fun hs => ?_ }⟩
  dsimp only
  rw [hwritten, hreads]
  have hempty := hzero (of_decide_eq_true (Bool.and_eq_true_iff.mp hs).1)
  exact (start_mono _ h.flags.heard).trans hempty

end Visible

end Insomnilog.Visibility
