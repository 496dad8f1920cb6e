import Insomnilog.Visibility.Sound

/-! Each of the orderings is needed: with a weaker one there are runs that go wrong. -/
namespace Insomnilog.Visibility
open ByteStore Queue ReleaseAcquire RingPosition

variable {w : ℕ} {o : Location → Orders} {q : Spsc w}

/-- With a weaker ordering on either side nothing is handed on but the store itself. -/
theorem Orders.weak {x : Orders} (hx : x ≠ ⟨.release, .acquire⟩) (l : Location) (n : ℕ)
    (v : View Location Thread) : x.load.takes (.upTo l n ⊔ x.store.gives v) ≤ .upTo l n := by
  obtain ⟨store, load⟩ := x
  cases load with
  | relaxed => exact bot_le
  | acquire =>
    cases store with
    | relaxed => exact sup_le le_rfl bot_le
    | release => exact absurd rfl hx

theorem Orders.weak_clock {x : Orders} (hx : x ≠ ⟨.release, .acquire⟩) (l : Location) (n : ℕ)
    (v : View Location Thread) (a : Thread) :
    (x.load.takes (.upTo l n ⊔ x.store.gives v)).clock a = 0 :=
  Nat.le_zero.mp (View.clock_mono (weak hx l n v) a)

theorem Orders.weak_seen {x : Orders} (hx : x ≠ ⟨.release, .acquire⟩) {l l' : Location}
    (hl : l' ≠ l) (n : ℕ) (v : View Location Thread) :
    (x.load.takes (.upTo l n ⊔ x.store.gives v)).seen l' = 0 := by
  have hle := View.seen_mono (weak hx l n v) l'
  rw [View.upTo_seen, if_neg hl] at hle
  exact Nat.le_zero.mp hle

/-- The queue is as `new` returns it. -/
structure Fresh (q : Spsc w) : Prop where
  writePos : q.inner.writePos = 0
  readPos : q.inner.readPos = 0
  producer : q.producer = ⟨0, 0⟩
  consumer : q.consumer = ⟨0, 0⟩
  capacity : 0 < q.inner.capacity.toNat
  mask : q.inner.capacity &&& q.inner.mask = 0
  buf : q.inner.capacity.toNat ≤ q.inner.buf.length

/-- The producer fills the ring, and stores to its first byte. -/
def fillRun (q : Spsc w) : List (Event w) :=
  [.reserve q.inner.capacity 0, .store 0 0, .closureReturn, .commit]

def filled (o : Location → Orders) (q : Spsc w) : State w :=
  let n := q.inner.capacity
  let buf := q.inner.buf.set 0 0
  { queue :=
      { q := ⟨{ q.inner with buf, writePos := n }, ⟨0, n⟩, ⟨0, 0⟩⟩
        producer := .idle
        consumer := .idle
        written := [⟨0, slice buf 0 n.toNat⟩]
        reads := []
        peeks := [] }
    memory := ((Memory.init (Location.initial w)).access .producer ⟨0, .write⟩).store
      (o .writePos).store .producer .writePos n
    alive := true
    dead := false
    shuttingDown := false
    retired := false
    stopped := false
    promised := [0]
    heard := 0 }

theorem fill (hq : Fresh q) : (system o q).run (fillRun q) = some (filled o q) := by
  obtain ⟨⟨buf, cap, mask, writePos, readPos⟩, producer, consumer⟩ := q
  obtain ⟨rfl, rfl, rfl, rfl, hcap, -, -⟩ := hq
  simp only [StepSystem.run, StepSystem.runFrom, fillRun, system, Queue.system, step,
    State.loadReadPos, reserveWith, tryReserve, State.written, State.plain, State.access]
  simp [hcap, Queue.step, State.put, filled, Queue.State.commit, Queue.commit]

/-- What the commit of the chunk hands on. -/
def committed (o : Location → Orders) : View Location Thread :=
  .upTo .writePos 1 ⊔ (o .writePos).store.gives (.after .producer 1)

/-- The worker has begun to read the chunk. -/
def reading (o : Location → Orders) (q : Spsc w) : State w :=
  let s := filled o q
  { s with
    queue := { s.queue with
      q := { s.queue.q with consumer := ⟨q.inner.capacity, 0⟩ }
      consumer := .holding .read 0 q.inner.capacity [] }
    memory := s.memory.raise .worker
      (.upTo .writePos 1 ⊔ (o .writePos).load.takes (committed o)) }

theorem begin_read (hq : Fresh q) :
    (system o q).step (filled o q) (.acquire .read q.inner.capacity 1) = some (reading o q) := by
  obtain ⟨⟨buf, cap, mask, writePos, readPos⟩, producer, consumer⟩ := q
  obtain ⟨rfl, rfl, rfl, rfl, hcap, -, hbuf⟩ := hq
  have hbuf' : cap.toNat ≤ buf.length := hbuf
  simp [system, step, filled, reading, State.busy, State.loadWritePos, acquireWith, availableWith,
    available, Memory.load, Memory.store, Memory.access, Memory.raise, Memory.init, committed,
    readOffset, Access.Permits, Chunk.len, hbuf']

/-- It has read the first byte. -/
def lookedAt (o : Location → Orders) (q : Spsc w) : State w :=
  let s := (reading o q).access .worker ⟨0, .read⟩
  { s with queue := { s.queue with consumer := .holding .read 0 q.inner.capacity [(0, 0)] } }

theorem look (hq : Fresh q) :
    (system o q).step (reading o q) (.observe 0) = some (lookedAt o q) := by
  obtain ⟨⟨buf, cap, mask, writePos, readPos⟩, producer, consumer⟩ := q
  obtain ⟨rfl, rfl, rfl, rfl, hcap, -, hbuf⟩ := hq
  have hcap' : 0 < cap.toNat := hcap
  have hbuf' : 0 < buf.length := hcap.trans_le hbuf
  simp [system, step, State.observed, State.access, State.plain, lookedAt, reading, filled,
    Queue.step, hcap', hbuf']

/-- The read is over, and the producer has a slice on the same bytes. -/
def reused (o : Location → Orders) (q : Spsc w) : State w :=
  let n := q.inner.capacity
  let s := lookedAt o q
  let memory := s.memory.store (o .readPos).store .worker .readPos n
  { s with
    queue := { s.queue with
      q := ⟨{ s.queue.q.inner with readPos := n }, ⟨n, n⟩, ⟨n, n⟩⟩
      producer := .writing 0 n
      consumer := .idle
      reads := [⟨n.toNat, [(0, 0)]⟩] }
    memory := memory.raise .producer (.upTo .readPos 1 ⊔ (o .readPos).load.takes
      (.upTo .readPos 1 ⊔ (o .readPos).store.gives (s.memory.view .worker))) }

theorem reuse (hq : Fresh q) : (system o q).runFrom (lookedAt o q)
    [.release, .reserve q.inner.capacity 1] = some (reused o q) := by
  obtain ⟨⟨buf, cap, mask, writePos, readPos⟩, producer, consumer⟩ := q
  obtain ⟨rfl, rfl, rfl, rfl, hcap, hmask, -⟩ := hq
  have hcap' : 0#w < cap := hcap
  have hmask' : cap &&& mask = 0#w := hmask
  simp [StepSystem.runFrom, system, step, lookedAt, reading, filled, State.plain, State.access,
    State.put, Queue.step, Queue.State.release, Queue.advance, State.loadReadPos, Memory.load,
    Memory.store, Memory.access, Memory.raise, Memory.init, reserveWith, tryReserve, reused,
    hcap', hmask']

theorem filled_reachable (hq : Fresh q) : (system o q).Reachable (filled o q) :=
  ⟨fillRun q, fill hq⟩

theorem lookedAt_reachable (hq : Fresh q) : (system o q).Reachable (lookedAt o q) :=
  ((filled_reachable hq).step (begin_read hq)).step (look hq)

/-- The worker reads a byte whose store it has not been told of. -/
theorem writePos_race (ho : o .writePos ≠ ⟨.release, .acquire⟩) :
    (lookedAt o q).memory.raced = true := by
  have hclock : ((reading o q).memory.view .worker).clock .producer = 0 := by
    show max 0 (max 0 (((o .writePos).load.takes (committed o)).clock .producer)) = 0
    rw [committed, Orders.weak_clock ho]
    rfl
  have hmem : (⟨0, .write⟩ : Plain ℕ) ∈
      ((reading o q).memory.accesses .producer).drop
        (((reading o q).memory.view .worker).clock .producer) := by
    rw [hclock]
    exact List.mem_singleton_self _
  exact Memory.raced_of_races ⟨.producer, nofun, _, hmem, rfl, .inr rfl⟩

/-- The producer overwrites a byte whose read it has not been told of. -/
theorem readPos_race (ho : o .readPos ≠ ⟨.release, .acquire⟩) :
    ((reused o q).access .producer ⟨0, .write⟩).memory.raced = true := by
  have hclock : ((reused o q).memory.view .producer).clock .worker = 0 := by
    show max (max _ _) (max 0 (View.clock _ Thread.worker)) = 0
    rw [Orders.weak_clock ho]
    rfl
  have hmem : (⟨0, .read⟩ : Plain ℕ) ∈ ((reused o q).memory.accesses .worker).drop
      (((reused o q).memory.view .producer).clock .worker) := by
    rw [hclock]
    exact List.mem_singleton_self _
  exact Memory.raced_of_races ⟨.worker, nofun, _, hmem, rfl, .inl rfl⟩

/-- The worker sees that the thread is dead, but not what it has committed. -/
theorem alive_loss (ho : o .alive ≠ ⟨.release, .acquire⟩) :
    ((system o q).runFrom (filled o q) [.drop, .checkAlive 1, .retain 0]).map
      (fun s => (s.retired, s.queue.written, s.queue.reads)) =
      some (true, (filled o q).queue.written, []) := by
  have hseen (v : View Location Thread) :=
    Orders.weak_seen ho (show Location.writePos ≠ .alive from nofun) 1 v
  simp [StepSystem.runFrom, system, step, filled, State.put, State.busy, State.loadWritePos,
    availableWith, available, Memory.load, Memory.store, Memory.access, Memory.raise, Memory.init,
    Location.initial, hseen]

/-- The worker sees the flag, but not what was committed before the shutdown. -/
theorem flag_loss (ho : o .shutdownFlag ≠ ⟨.release, .acquire⟩) :
    ((system o q).runFrom (filled o q) [.hear, .shutdown, .loadFlag 1, .pending 0 false]).map
      (fun s => (s.stopped, s.heard, s.queue.written, s.queue.reads)) =
      some (true, 1, (filled o q).queue.written, []) := by
  have hseen (v : View Location Thread) :=
    Orders.weak_seen ho (show Location.writePos ≠ .shutdownFlag from nofun) 1 v
  simp [StepSystem.runFrom, system, step, filled, State.put, State.busy, State.loadWritePos,
    availableWith, available, Memory.load, Memory.store, Memory.access, Memory.raise, Memory.init,
    Memory.join, Location.initial, hseen]

theorem new_fresh {checks : Bool} {capacity : BitVec w} (hnew : new checks capacity = some q)
    (hfit : 2 * roundUp capacity.toNat < 2 ^ w) : Fresh q := by
  obtain ⟨k, -, hgeometry, hwrite, hread, hproducer, hconsumer⟩ := new_spec hnew hfit
  have hcap := hgeometry.capacity
  have hbuf := hgeometry.buf
  refine ⟨hwrite, hread, hproducer, hconsumer, ?_, ?_, ?_⟩
  · rw [hcap]
    exact Nat.two_pow_pos k
  · apply BitVec.eq_of_toNat_eq
    rw [BitVec.toNat_and, hcap, hgeometry.mask, Nat.and_two_pow_sub_one_eq_mod, Nat.mod_self]
    rfl
  · omega

/-- The byte of the chunk that was never read. -/
theorem Fresh.unread (hq : Fresh q) {n : ℕ} (hn : 0 < n) :
    ¬ ReadUpTo (filled o q).queue.written 0 n := by
  intro h
  refine absurd (h 0 _ hn rfl fun hempty => ?_) (Nat.not_lt_zero 0)
  have hlength := congrArg List.length hempty
  have hcap := hq.capacity
  have hbuf := hq.buf
  rw [slice_length, List.length_set] at hlength
  simp only [List.length_nil] at hlength
  omega

/-- With weaker orderings somewhere, some run goes wrong. -/
theorem unsound_of_weaker (hq : Fresh q) {l : Location} (ho : o l ≠ ⟨.release, .acquire⟩) {C : ℕ} :
    ∃ s, (system o q).Reachable s ∧ ¬ Sound C s := by
  cases l with
  | writePos =>
    refine ⟨_, lookedAt_reachable hq, fun h => ?_⟩
    cases (writePos_race ho).symm.trans h.raceFree
  | readPos =>
    have hreused : (system o q).Reachable (reused o q) :=
      (lookedAt_reachable hq).runFrom (reuse hq)
    have hpos := hq.capacity
    have hstep : ((system o q).step (reused o q) (.store 0 0)).map (fun s => s.memory) =
        some ((reused o q).access .producer ⟨0, .write⟩).memory := by
      simp [system, step, State.written, State.plain, State.access, reused, Queue.step, hpos]
    obtain ⟨s, hs, hmemory⟩ := Option.map_eq_some_iff.mp hstep
    refine ⟨s, hreused.step hs, fun h => ?_⟩
    have hrace := readPos_race (q := q) ho
    rw [← hmemory] at hrace
    cases hrace.symm.trans h.raceFree
  | alive =>
    obtain ⟨s, hs, houtcome⟩ := Option.map_eq_some_iff.mp (alive_loss (q := q) ho)
    obtain ⟨hretired, hrest⟩ := Prod.mk.inj houtcome
    obtain ⟨hwritten, hreads⟩ := Prod.mk.inj hrest
    refine ⟨s, (filled_reachable hq).runFrom hs, fun h => ?_⟩
    have hall := (h.retired hretired).2
    rw [hwritten, hreads] at hall
    exact hq.unread Nat.one_pos hall
  | shutdownFlag =>
    obtain ⟨s, hs, houtcome⟩ := Option.map_eq_some_iff.mp (flag_loss (q := q) ho)
    obtain ⟨hstopped, hrest⟩ := Prod.mk.inj houtcome
    obtain ⟨hheard, hrest⟩ := Prod.mk.inj hrest
    obtain ⟨hwritten, hreads⟩ := Prod.mk.inj hrest
    refine ⟨s, (filled_reachable hq).runFrom hs, fun h => ?_⟩
    have hall := h.stopped hstopped
    rw [hwritten, hreads, hheard] at hall
    exact hq.unread Nat.one_pos hall

/-- Release stores and acquire loads at all four locations are enough, and none of them may be
weaker. -/
theorem orderings_sound_iff {checks : Bool} {capacity : BitVec w}
    (hnew : new checks capacity = some q) (hfit : 2 * roundUp capacity.toNat < 2 ^ w)
    (o : Location → Orders) :
    (∀ s, (system o q).Reachable s → Sound (roundUp capacity.toNat) s) ↔ o = inCode := by
  constructor
  · intro h
    funext l
    by_contra ho
    obtain ⟨s, hs, hunsound⟩ := unsound_of_weaker (new_fresh hnew hfit) ho
    exact hunsound (h s hs)
  · rintro rfl s hs
    obtain ⟨k, hk, hinit⟩ := init_visible hnew hfit
    rw [hk]
    have hvisible : Visible k s :=
      hs.invariant hinit fun _ _ _ _ h hstep => h.step hstep
    exact hvisible.sound

/-- The worker misses a commit at first, and the producer the end of a read. -/
def staleRun : List (Event 5) :=
  [.reserve 3 0, .store 2 7, .closureReturn, .commit, .available 0, .acquire .read 3 1, .observe 2,
    .release, .reserve 2 0, .reserve 2 1, .store 0 9, .closureReturn, .commit, .drop, .checkAlive 0,
    .checkAlive 1, .retain 2]

theorem orderings_sound_iff_stale :
    ∃ s, (system inCode smallRing).run staleRun = some s ∧ s.queue.reads.length = 1 ∧
      s.retired = false ∧ Sound 4 s := by
  have hnew : new true (3 : BitVec 5) = some smallRing := by decide
  have hrun : ((system inCode smallRing).run staleRun).map
      (fun s => (s.queue.reads.length, s.retired)) = some (1, false) := by decide
  obtain ⟨s, hs, houtcome⟩ := Option.map_eq_some_iff.mp hrun
  obtain ⟨hreads, hretired⟩ := Prod.mk.inj houtcome
  exact ⟨s, hs, hreads, hretired,
    (orderings_sound_iff hnew (by decide) inCode).mpr rfl s ⟨staleRun, hs⟩⟩

end Insomnilog.Visibility
