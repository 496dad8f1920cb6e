import Insomnilog.Backend.Runner

/-! What holds of each thread and its queue, whatever the thread and the worker do. -/
namespace Insomnilog.Backend
open ByteStore Wire Queue Framing Frontend

variable {t : Target} {cfg : Config t} {k i : ℕ} {th th' : Thread t}

namespace Phase

/-- Bytes beyond the committed ones that the write under way holds. -/
def reserved : Phase t → ℕ
  | .writing _ e => e.record.size
  | _ => 0

/-- The call under way. -/
def entry : Phase t → Option (Entry t)
  | .idle => none
  | .checked e => some e
  | .writing _ e => some e
  | .refused e => some e

/-- The call has come to its write. -/
def inWrite : Phase t → Bool
  | .writing .. => true
  | .refused _ => true
  | _ => false

end Phase

/-- The slice of a write under way starts at the masked write position. -/
def SliceOk (k : ℕ) (th : Thread t) : Prop :=
  match th.phase with
  | .writing off _ => off = total th.chunks % 2 ^ k
  | _ => True

/-- The queue holds the committed records; those taken were decoded in order; every call
that passed the level check is rejected, committed or under way. -/
structure ThreadInv (cfg : Config t) (k i : ℕ) (th : Thread t) : Prop where
  records : RecordQueue k th.q th.chunks (th.committed.map Entry.record) th.results.length
    th.phase.reserved
  slice : SliceOk k th
  results : ∀ (j : ℕ) (d : Decoded (RawDecodedRecord t)), th.results[j]? = some d → d ≠ .panic ∧
    ∃ e : Entry t, th.committed[j]? = some e ∧ d = e.record.decoded (cfg.decoders i j)
  passed : th.passed = th.rejected + th.committed.length + th.phase.entry.toList.length
  admitted : ∀ e, e ∈ th.committed ∨ th.phase.entry = some e →
    e.loggerLevel ≤ cfg.levelOf e.record.metadataPtr
  unregistered : th.registered = false → th.committed = [] ∧ th.phase.inWrite = false
  dead : th.alive = false → th.phase = .idle

/-- The entry of the oldest unread record. -/
theorem Thread.entry_of_placed {r : LoggedRecord t} {off : ℕ}
    (hp : Placed (th.committed.map Entry.record) th.chunks th.results.length r off) :
    ∃ e, th.committed[th.results.length]? = some e ∧ e.record = r := by
  have hrecord := hp.record
  rw [List.getElem?_map] at hrecord
  exact Option.map_eq_some_iff.mp hrecord

theorem ThreadInv.taken_le (h : ThreadInv cfg k i th) :
    th.results.length ≤ th.committed.length := by
  simpa using h.records.taken_le

/-- One record was read at a time, each once and in the order of the writes. -/
def Thread.TakenInOrder (cfg : Config t) (i : ℕ) (th : Thread t) : Prop :=
  th.results.length ≤ th.committed.length ∧
    th.results = (th.committed.take th.results.length).zipIdx.map fun p =>
      p.1.record.decoded (cfg.decoders i p.2)

theorem ThreadInv.takenInOrder (h : ThreadInv cfg k i th) : th.TakenInOrder cfg i := by
  refine ⟨h.taken_le, List.ext_getElem? fun j => ?_⟩
  rw [List.getElem?_map, List.getElem?_zipIdx, List.getElem?_take]
  by_cases hj : j < th.results.length
  · obtain ⟨-, e, he, hd⟩ := h.results j _ (List.getElem?_eq_getElem hj)
    rw [List.getElem?_eq_getElem hj, if_pos hj, he, hd]
    simp
  · rw [List.getElem?_eq_none (by omega), if_neg hj]
    rfl

/-- All that a step of a thread can be. -/
theorem Thread.act_cases {level : t.Ptr → LogLevel} {a : Action t}
    (h : th.act cfg level a = some th') :
    (∃ r, a = .check r ∧ th.phase = .idle ∧ th.alive = true ∧
      th' = th.check (cfg.levelOf r.metadataPtr) (level r.loggerPtr) r) ∨
    (∃ e, a = .reserve ∧ th.phase = .checked e ∧ th.registered = true ∧ th' = th.reserve e) ∨
    (∃ off e, a = .commit ∧ th.phase = .writing off e ∧ th' = th.commit off e) ∨
    (∃ e, a = .count ∧ th.phase = .refused e ∧
      th' = { th with phase := .idle, rejected := th.rejected + 1 }) ∨
    (a = .exit ∧ th.phase = .idle ∧ th' = { th with alive := false }) := by
  cases a with
  | check r =>
    simp only [Thread.act] at h
    split at h
    next hp =>
      split at h <;> cases h
      next ha => exact .inl ⟨r, rfl, hp, ha, rfl⟩
    · cases h
  | reserve =>
    simp only [Thread.act] at h
    split at h
    next e hp =>
      split at h <;> cases h
      next hr => exact .inr (.inl ⟨e, rfl, hp, hr, rfl⟩)
    · cases h
  | commit =>
    simp only [Thread.act] at h
    split at h <;> cases h
    next off e hp => exact .inr (.inr (.inl ⟨off, e, rfl, hp, rfl⟩))
  | count =>
    simp only [Thread.act] at h
    split at h <;> cases h
    next e hp => exact .inr (.inr (.inr (.inl ⟨e, rfl, hp, rfl⟩)))
  | exit =>
    simp only [Thread.act] at h
    split at h <;> cases h
    next hp => exact .inr (.inr (.inr (.inr ⟨rfl, hp, rfl⟩)))

/-- `rejected` and the counter of dropped records are incremented together. -/
theorem Thread.rejected_act {level : t.Ptr → LogLevel} {a : Action t}
    (h : th.act cfg level a = some th') : th'.rejected = th.rejected + a.dropped := by
  rcases Thread.act_cases h with ⟨r, rfl, -, -, rfl⟩ | ⟨e, rfl, -, -, rfl⟩ |
    ⟨off, e, rfl, -, rfl⟩ | ⟨e, rfl, -, rfl⟩ | ⟨rfl, -, rfl⟩
  · unfold Thread.check
    split <;> rfl
  · unfold Thread.reserve
    split <;> rfl
  · rfl
  · rfl
  · rfl

/-- What a thread keeps while the worker takes nothing from it. -/
structure Keeps (th th' : Thread t) : Prop where
  results : th'.results = th.results
  committed : th.committed <+: th'.committed
  chunks : th.chunks <+: th'.chunks
  dead : th.alive = false → th'.alive = false ∧ th'.committed = th.committed
  ahead : Ahead th.chunks th.results.length th.q.consumer →
    Ahead th'.chunks th'.results.length th'.q.consumer

theorem Keeps.refl (th : Thread t) : Keeps th th :=
  ⟨rfl, List.prefix_rfl, List.prefix_rfl, fun hd => ⟨hd, rfl⟩, id⟩

theorem Thread.registered_act {level : t.Ptr → LogLevel} {a : Action t}
    (h : th.act cfg level a = some th') : th'.registered = th.registered := by
  rcases Thread.act_cases h with ⟨r, rfl, -, -, rfl⟩ | ⟨e, rfl, -, -, rfl⟩ |
    ⟨off, e, rfl, -, rfl⟩ | ⟨e, rfl, -, rfl⟩ | ⟨rfl, -, rfl⟩
  · unfold Thread.check
    split <;> rfl
  · unfold Thread.reserve
    split <;> rfl
  · rfl
  · rfl
  · rfl

namespace ThreadInv

theorem new (cfg : Config t) (i : ℕ) :
    ∃ k, roundUp cfg.queueCapacity.toNat = 2 ^ k ∧
      ThreadInv cfg k i ⟨cfg.queue, false, true, .idle, [], [], [], 0, 0⟩ := by
  obtain ⟨k, hk, hq⟩ := RecordQueue.new cfg.created cfg.fits
  exact ⟨k, hk,
    { records := hq
      slice := trivial
      results := by simp
      passed := rfl
      admitted := by simp [Phase.entry]
      unregistered := fun _ => ⟨rfl, rfl⟩
      dead := by simp }⟩

theorem check (h : ThreadInv cfg k i th) (hp : th.phase = .idle) (ha : th.alive = true)
    (r : LoggedRecord t) (loggerLevel : LogLevel) :
    ThreadInv cfg k i (th.check (cfg.levelOf r.metadataPtr) loggerLevel r) := by
  unfold Thread.check
  split
  next hle =>
    have hrecords := h.records
    have hpassed := h.passed
    rw [hp] at hrecords hpassed
    exact
      { records := hrecords
        slice := trivial
        results := h.results
        passed := congrArg (· + 1) hpassed
        admitted := fun e he => by
          rcases he with he | he
          · exact h.admitted e (.inl he)
          · rw [← Option.some.inj he]
            exact hle
        unregistered := fun hr => ⟨(h.unregistered hr).1, rfl⟩
        dead := fun hd => by simp [ha] at hd }
  · exact h

theorem reserve (h : ThreadInv cfg k i th) {e : Entry t} (hp : th.phase = .checked e)
    (hr : th.registered = true) : ThreadInv cfg k i (th.reserve e) := by
  have hrecords := h.records
  have hpassed := h.passed
  have hadmitted := h.admitted
  have hdead := h.dead
  rw [hp] at hrecords hpassed hadmitted hdead
  unfold Thread.reserve
  split
  next p htr =>
    exact
      { records := hrecords.tryReserve_none htr
        slice := trivial
        results := h.results
        passed := hpassed
        admitted := hadmitted
        unregistered := fun hu => by simp [hr] at hu
        dead := fun hd => by cases hdead hd }
  next off p htr =>
    obtain ⟨hoff, hq⟩ := hrecords.tryReserve_some htr
    exact
      { records := hq
        slice := hoff
        results := h.results
        passed := hpassed
        admitted := hadmitted
        unregistered := fun hu => by simp [hr] at hu
        dead := fun hd => by cases hdead hd }

theorem commit (h : ThreadInv cfg k i th) {off : ℕ} {e : Entry t}
    (hp : th.phase = .writing off e) : ThreadInv cfg k i (th.commit off e) := by
  have hrecords := h.records
  have hslice := h.slice
  have hpassed := h.passed
  have hadmitted := h.admitted
  have hunregistered := h.unregistered
  have hdead := h.dead
  simp only [SliceOk, hp] at hslice
  rw [hp] at hrecords hpassed hadmitted hunregistered hdead
  subst hslice
  have hq := hrecords.fill_commit
  exact
    { records := by
        simp only [Thread.commit, List.map_append, List.map_cons, List.map_nil]
        exact hq
      slice := trivial
      results := fun j d hd => by
        obtain ⟨hne, e', he', hd'⟩ := h.results j d hd
        refine ⟨hne, e', ?_, hd'⟩
        exact (List.getElem?_append_left (List.getElem?_eq_some_iff.mp he').choose).trans he'
      passed := by
        simp only [Thread.commit, List.length_append, List.length_singleton, Phase.entry,
          Option.toList_none, List.length_nil]
        exact hpassed
      admitted := fun e' he' => by
        rcases he' with he' | he'
        · rcases List.mem_append.mp he' with he' | he'
          · exact hadmitted e' (.inl he')
          · rw [List.mem_singleton.mp he']
            exact hadmitted e (.inr rfl)
        · cases he'
      unregistered := fun hu => by cases (hunregistered hu).2
      dead := fun _ => rfl }

theorem count (h : ThreadInv cfg k i th) {e : Entry t} (hp : th.phase = .refused e) :
    ThreadInv cfg k i { th with phase := .idle, rejected := th.rejected + 1 } := by
  have hrecords := h.records
  have hpassed := h.passed
  have hadmitted := h.admitted
  rw [hp] at hrecords hpassed hadmitted
  exact
    { records := hrecords
      slice := trivial
      results := h.results
      passed := by
        simp only [Phase.entry, Option.toList_some, List.length_singleton, Option.toList_none,
          List.length_nil] at hpassed ⊢
        omega
      admitted := fun e' he' => hadmitted e' (.inl (he'.resolve_right (by simp [Phase.entry])))
      unregistered := fun hu => ⟨(h.unregistered hu).1, rfl⟩
      dead := fun _ => rfl }

theorem exit (h : ThreadInv cfg k i th) (hp : th.phase = .idle) :
    ThreadInv cfg k i { th with alive := false } :=
  { h with dead := fun _ => hp }

/-- Every step of the thread keeps its invariant. -/
theorem act (h : ThreadInv cfg k i th) {level : t.Ptr → LogLevel} {a : Action t}
    (ha : th.act cfg level a = some th') : ThreadInv cfg k i th' := by
  rcases Thread.act_cases ha with ⟨r, -, hp, halive, rfl⟩ | ⟨e, -, hp, hr, rfl⟩ |
    ⟨off, e, -, hp, rfl⟩ | ⟨e, -, hp, rfl⟩ | ⟨-, hp, rfl⟩
  · exact h.check hp halive r _
  · exact h.reserve hp hr
  · exact h.commit hp
  · exact h.count hp
  · exact h.exit hp

theorem keeps (h : ThreadInv cfg k i th) {level : t.Ptr → LogLevel} {a : Action t}
    (ha : th.act cfg level a = some th') : Keeps th th' := by
  rcases Thread.act_cases ha with ⟨r, -, hp, halive, rfl⟩ | ⟨e, -, hp, hr, rfl⟩ |
    ⟨off, e, -, hp, rfl⟩ | ⟨e, -, hp, rfl⟩ | ⟨-, hp, rfl⟩
  · unfold Thread.check
    split <;> exact ⟨rfl, List.prefix_rfl, List.prefix_rfl, fun hd => ⟨hd, rfl⟩, id⟩
  · unfold Thread.reserve
    split <;> exact ⟨rfl, List.prefix_rfl, List.prefix_rfl, fun hd => ⟨hd, rfl⟩, id⟩
  · refine ⟨rfl, List.prefix_append _ _, List.prefix_append _ _, fun hd => ?_,
      fun ha => ha.mono (List.prefix_append _ _)⟩
    have := h.dead hd
    simp [hp] at this
  · exact ⟨rfl, List.prefix_rfl, List.prefix_rfl, fun hd => ⟨hd, rfl⟩, id⟩
  · exact ⟨rfl, List.prefix_rfl, List.prefix_rfl, fun _ => ⟨rfl, rfl⟩, id⟩

/-- A new cached write position that lies beyond the oldest unread record, if the old
one did. -/
theorem keeps_withConsumer {c : Consumer t.bits}
    (ha : Ahead th.chunks th.results.length th.q.consumer → Ahead th.chunks th.results.length c) :
    Keeps th (th.withConsumer c) :=
  ⟨rfl, List.prefix_rfl, List.prefix_rfl, fun hd => ⟨hd, rfl⟩, ha⟩

/-- What the worker learns from `available`. -/
theorem available (h : ThreadInv cfg k i th) {avail : BitVec t.bits}
    (ha : th.available = (avail, th')) :
    ThreadInv cfg k i th' ∧ Keeps th th' ∧ th'.registered = th.registered ∧
      th'.rejected = th.rejected ∧
      ((th'.results.length = th'.committed.length ∧ avail.toNat = 0) ∨
        ∃ r off, Placed (th'.committed.map Entry.record) th'.chunks th'.results.length r off ∧
          r.size ≤ avail.toNat) := by
  cases hac : Queue.available th.q.inner th.q.consumer with
  | mk av c =>
    simp only [Thread.available, hac] at ha
    cases ha
    obtain ⟨hq, hcases⟩ := h.records.available hac
    have hlength := h.records.length_eq
    refine ⟨{ h with records := hq }, keeps_withConsumer fun hahead => ?_, rfl, rfl, ?_⟩
    · rcases hcases with ⟨htaken, -⟩ | ⟨r, off, -, -, hahead'⟩
      · obtain ⟨j, hj, hjl, -⟩ := hahead
        omega
      · exact hahead'
    · rcases hcases with ⟨htaken, hz⟩ | ⟨r, off, hp, hle, -⟩
      · exact .inl ⟨by simpa [Thread.withConsumer] using htaken, hz⟩
      · exact .inr ⟨r, off, hp, hle⟩

section Taking
variable {r : LoggedRecord t} {off : ℕ}

/-- `peek` finds the header of the oldest unread record. -/
theorem peek (h : ThreadInv cfg k i th)
    (hp : Placed (th.committed.map Entry.record) th.chunks th.results.length r off) :
    ∃ c, Queue.peek t.checks th.q.inner th.q.consumer (BitVec.ofNat t.bits (RecordHeader.SIZE t)) =
        some (r.header.toBytes, c) ∧
      ThreadInv cfg k i (th.withConsumer c) ∧ Keeps th (th.withConsumer c) := by
  obtain ⟨c, hpeek, hq, hahead⟩ := h.records.peek_header hp
  exact ⟨c, hpeek, { h with records := hq }, keeps_withConsumer fun _ => hahead⟩

/-- `read` takes its slice from the bytes of the oldest unread record. -/
theorem acquire (h : ThreadInv cfg k i th)
    (hp : Placed (th.committed.map Entry.record) th.chunks th.results.length r off) :
    ∃ avail c, Queue.available th.q.inner th.q.consumer = (avail, c) ∧ r.size ≤ avail.toNat ∧
      ByteStore.slice th.q.inner.buf (readOffset th.q.inner c) r.size = r.bytes ∧
      ThreadInv cfg k i (th.withConsumer c) ∧ Keeps th (th.withConsumer c) ∧
      Ahead th.chunks th.results.length c := by
  obtain ⟨avail, c, hac, hle, hoff, hq, hahead⟩ := h.records.acquire hp le_rfl
  refine ⟨avail, c, hac, hle, ?_, { h with records := hq }, keeps_withConsumer fun _ => hahead,
    hahead⟩
  rw [hoff]
  exact h.records.slice_eq hp

/-- Advancing over the oldest unread record. -/
theorem advance (h : ThreadInv cfg k i th) {e : Entry t}
    (he : th.committed[th.results.length]? = some e)
    (hp : Placed (th.committed.map Entry.record) th.chunks th.results.length e.record off)
    (ha : Ahead th.chunks th.results.length th.q.consumer)
    (hd : e.record.decoded (cfg.decoders i th.results.length) ≠ .panic) :
    ThreadInv cfg k i (th.advance e.record.size
      (e.record.decoded (cfg.decoders i th.results.length))) := by
  refine { h with records := ?_, results := fun j d hj => ?_ }
  · have hq := h.records.advance hp ha
    simp only [Thread.advance, List.length_append, List.length_singleton]
    exact hq
  · simp only [Thread.advance] at hj
    by_cases hlt : j < th.results.length
    · rw [List.getElem?_append_left hlt] at hj
      exact h.results j d hj
    · have hjl := (List.getElem?_eq_some_iff.mp hj).choose
      rw [List.length_append, List.length_singleton] at hjl
      obtain rfl : j = th.results.length := by omega
      rw [List.getElem?_concat_length] at hj
      obtain rfl := Option.some.inj hj
      exact ⟨hd, e, he, rfl⟩

end Taking
end ThreadInv
end Insomnilog.Backend
