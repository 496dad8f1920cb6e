import Insomnilog.Backend.Dispatch
import Insomnilog.Backend.Turn

/-! `drain_consumer` as a whole, while nothing else happens to the queue: how many records a
visit takes, and what it tells `run`. -/
namespace Insomnilog.Backend
open ByteStore Wire Queue Framing Frontend

variable {t : Target} {cfg : Config t} {level : t.Ptr → LogLevel} {k i : ℕ} {s s' : State t}
  {th th' : Thread t}

namespace Thread

/-- The length that the header of the next record announces; `none` is a panic. -/
def peekTotalLen (th : Thread t) : Option (ℕ × Thread t) :=
  match peek t.checks th.q.inner th.q.consumer (BitVec.ofNat t.bits (RecordHeader.SIZE t)) with
  | none => none
  | some (headerBytes, c) =>
    let header := RecordHeader.readUnaligned t headerBytes
    match (t.add (RecordHeader.SIZE t) header.encodedArgsSize.toNat : Outcome Unit ℕ) with
    | .ok totalLen => some (totalLen, th.withConsumer c)
    | _ => none

/-- `read` with `decode_record` as its closure, and the final `.ok()`. -/
def readDecoded (cfg : Config t) (i totalLen : ℕ) (th : Thread t) :
    Option (Option (RawDecodedRecord t) × Thread t) :=
  let (avail, c) := Queue.available th.q.inner th.q.consumer
  let th := th.withConsumer c
  if t.checks && decide (avail.toNat < totalLen) then none
  else
    let bytes := slice th.q.inner.buf (readOffset th.q.inner c) totalLen
    match decodeRecord t (cfg.decoders i th.results.length) bytes with
    | .panic => none
    | result => some (result.toOption, th.advance totalLen result)

/-- `try_read_one` for thread `i`. -/
def tryReadOne (cfg : Config t) (i : ℕ) (th : Thread t) :
    Option (Option (RawDecodedRecord t) × Thread t) :=
  let (avail, th) := th.available
  if avail.toNat < RecordHeader.SIZE t then some (none, th)
  else
    match th.peekTotalLen with
    | none => none
    | some (totalLen, th) =>
      if avail.toNat < totalLen then some (none, th) else th.readDecoded cfg i totalLen

theorem peekTotalLen_results {totalLen : ℕ} (h : th.peekTotalLen = some (totalLen, th')) :
    th'.results = th.results := by
  unfold peekTotalLen at h
  split at h
  · cases h
  · dsimp only at h
    split at h <;> cases h
    rfl

/-- Enough bytes for the header and for the length that it announces. -/
theorem tryReadOne_of_le {totalLen : ℕ} (hheader : RecordHeader.SIZE t ≤ th.available.1.toNat)
    (hpeek : th.available.2.peekTotalLen = some (totalLen, th'))
    (hle : totalLen ≤ th.available.1.toNat) :
    th.tryReadOne cfg i = th'.readDecoded cfg i totalLen := by
  unfold tryReadOne
  dsimp only
  rw [if_neg (Nat.not_lt.mpr hheader), hpeek]
  dsimp only
  rw [if_neg (Nat.not_lt.mpr hle)]

/-- What is known of the oldest unread record. -/
theorem of_unread_eq_cons {e : Entry t} {j : ℕ} {es : List (Entry t × ℕ)}
    (hu : th.unread = (e, j) :: es) : th.committed[th.results.length]? = some e ∧
      j = th.results.length ∧ es = th.committed.zipIdx.drop (th.results.length + 1) := by
  cases he : th.committed[th.results.length]? with
  | none =>
    rw [unread_eq_nil_iff.mpr (List.getElem?_eq_none_iff.mp he)] at hu
    cases hu
  | some e' =>
    rw [unread_eq_cons he] at hu
    cases hu
    exact ⟨rfl, rfl, rfl⟩

end Thread

/-- The loop of `drain_consumer`, with `budget` rounds left. It returns `did_work`. -/
def drainConsumer (cfg : Config t) (i : ℕ) :
    (budget : ℕ) → (didWork : Bool) → Thread t → Tally t → Option (Bool × Thread t × Tally t)
  | 0, didWork, th, tally => some (didWork, th, tally)
  | budget + 1, didWork, th, tally =>
    match th.tryReadOne cfg i with
    | none => none
    | some (none, th) => some (didWork, th, tally)
    | some (some raw, th') =>
      drainConsumer cfg i budget true th' ((cfg.dispatch i th.results.length raw).run tally)

/-- Steps of the worker, while nobody else takes one. -/
def Worked (cfg : Config t) : State t → State t → Prop :=
  Relation.ReflTransGen fun s s' => s.work cfg = some s'

section Worked
variable {down : Bool} {budget totalLen : ℕ} {rest sinks : List ℕ} {avail : BitVec t.bits}
  {result : Option (RawDecodedRecord t)}

/-- The worker records what `fanout_to_sinks` does. -/
theorem fanout_worked (cfg : Config t) {f : Fanout t}
    (hs : s.worker = .fanout down budget rest f sinks) :
    ∃ s', Worked cfg s s' ∧ s'.worker = .poll down f.thread budget rest ∧
      s'.threads = s.threads ∧ s'.tally = fanoutToSinks (cfg.sink f.thread f.index)
        (cfg.levelOf f.record.metadata) f s.tally sinks := by
  have hstep : s.work cfg = some (s.fanoutStep cfg down budget rest f sinks) := by
    rw [State.work, hs]
  induction sinks generalizing s f with
  | nil => exact ⟨_, .single hstep, rfl, rfl, rfl⟩
  | cons sink sinks ih =>
    cases hp : (visitSink (cfg.sink f.thread f.index f.position)
        (cfg.levelOf f.record.metadata)).panicked with
    | true =>
      refine ⟨_, .single hstep, by simp [State.fanoutStep, hp], rfl, ?_⟩
      simp only [fanoutToSinks, hp, if_true]
      simp [State.fanoutStep, State.tally, Tally.add, hp]
    | false =>
      have hnext : (s.fanoutStep cfg down budget rest f (sink :: sinks)).worker =
          .fanout down budget rest f.next sinks := by simp [State.fanoutStep, hp]
      obtain ⟨s', hworked, hw, hthreads, htally⟩ := ih hnext (by rw [State.work, hnext])
      refine ⟨s', hworked.head hstep, hw, hthreads, ?_⟩
      simp only [fanoutToSinks, hp, Bool.false_eq_true, if_false]
      rw [htally]
      simp [State.fanoutStep, State.tally, Tally.add, hp, Fanout.next]

/-- Where the worker is when `try_read_one` has returned. -/
def Worker.afterRead (cfg : Config t) (down : Bool) (i index budget : ℕ) (rest : List ℕ) :
    Option (RawDecodedRecord t) → Worker t
  | none => .visit down rest
  | some raw => .fanout down budget rest (cfg.dispatch i index raw).start
      (cfg.dispatch i index raw).sinks

/-- The worker has come to `w`. It has changed thread `i`, and nothing that the sinks see. -/
structure Reads (cfg : Config t) (i : ℕ) (s : State t) (th' : Thread t) (w : Worker t)
    (s' : State t) : Prop where
  worked : Worked cfg s s'
  threads : s'.threads = s.threads.set i th'
  tally : s'.tally = s.tally
  worker : s'.worker = w

namespace Reads
variable {th₁ th₂ : Thread t} {w₁ w₂ : Worker t} {s₁ s₂ : State t}

theorem thread (h : Reads cfg i s th₁ w₁ s₁) (hi : s.threads[i]? = some th) :
    s₁.threads[i]? = some th₁ := by
  rw [h.threads]
  exact State.getElem?_setThread hi th₁

theorem trans (h : Reads cfg i s th₁ w₁ s₁) (h' : Reads cfg i s₁ th₂ w₂ s₂) :
    Reads cfg i s th₂ w₂ s₂ where
  worked := Relation.ReflTransGen.trans h.worked h'.worked
  threads := by rw [h'.threads, h.threads, List.set_set]
  tally := h'.tally.trans h.tally
  worker := h'.worker

theorem poll (cfg : Config t) (hs : s.worker = .poll down i (budget + 1) rest)
    (hi : s.threads[i]? = some th) :
    ∃ s', Reads cfg i s th.available.2
      (if th.available.1.toNat < RecordHeader.SIZE t then .visit down rest
        else .peek down i budget th.available.1 rest) s' := by
  have hwork : s.work cfg = some { s.setThread i th.available.2 with
      worker := if th.available.1.toNat < RecordHeader.SIZE t then .visit down rest
        else .peek down i budget th.available.1 rest } := by
    simp only [State.work, hs, hi, Option.map_some]
  exact ⟨_, .single hwork, rfl, rfl, rfl⟩

theorem peek (cfg : Config t) (hs : s.worker = .peek down i budget avail rest)
    (hi : s.threads[i]? = some th) (hpeek : th.peekTotalLen = some (totalLen, th')) :
    ∃ s', Reads cfg i s th'
      (if avail.toNat < totalLen then .visit down rest
        else .read down i budget totalLen rest) s' := by
  have hwork : s.work cfg = some (s.peekHeader down i budget avail rest th) := by
    simp only [State.work, hs, hi, Option.map_some]
  unfold Thread.peekTotalLen at hpeek
  unfold State.peekHeader at hwork
  split at hpeek
  · cases hpeek
  next headerBytes c hc =>
    rw [hc] at hwork
    dsimp only at hpeek hwork
    split at hpeek
    next hadd =>
      cases hpeek
      rw [hadd] at hwork
      exact ⟨_, .single hwork, rfl, rfl, rfl⟩
    · cases hpeek

theorem finish {d : Decoded (RawDecodedRecord t)}
    (hs : s.worker = .advance down i budget totalLen d rest) (hi : s.threads[i]? = some th) :
    ∃ s', Reads cfg i s (th.advance totalLen d)
      (.afterRead cfg down i th.results.length budget rest d.toOption) s' := by
  have hwork : s.work cfg = some (s.finishRead cfg down i budget totalLen d rest th) := by
    simp only [State.work, hs, hi, Option.map_some]
  cases d <;> exact ⟨_, .single hwork, rfl, rfl, rfl⟩

theorem read (hs : s.worker = .read down i budget totalLen rest) (hi : s.threads[i]? = some th)
    (hread : th.readDecoded cfg i totalLen = some (result, th')) :
    ∃ s', Reads cfg i s th' (.afterRead cfg down i th.results.length budget rest result) s' := by
  have hwork : s.work cfg = some (s.readRecord cfg down i budget totalLen rest th) := by
    simp only [State.work, hs, hi, Option.map_some]
  unfold Thread.readDecoded at hread
  unfold State.readRecord at hwork
  dsimp only at hread hwork
  split at hread
  · cases hread
  next hpass =>
    rw [if_neg hpass] at hwork
    split at hread
    · cases hread
    next hne =>
      cases hread
      split at hwork
      next hpanic => exact (hne hpanic).elim
      next =>
        -- the closure has returned
        have hclosure := Reads.mk (.single hwork) rfl rfl rfl
        obtain ⟨s', hfinish⟩ := finish rfl (hclosure.thread hi)
        exact ⟨s', hclosure.trans hfinish⟩

/-- The worker reads as `try_read_one` does. -/
theorem tryReadOne (hs : s.worker = .poll down i (budget + 1) rest)
    (hi : s.threads[i]? = some th) (hread : th.tryReadOne cfg i = some (result, th')) :
    ∃ s', Reads cfg i s th' (.afterRead cfg down i th.results.length budget rest result) s' := by
  obtain ⟨s₁, hpoll⟩ := poll cfg hs hi
  unfold Thread.tryReadOne at hread
  dsimp only at hread
  split at hread
  next hshort =>
    cases hread
    rw [if_pos hshort] at hpoll
    exact ⟨s₁, hpoll⟩
  next hlong =>
    rw [if_neg hlong] at hpoll
    split at hread
    · cases hread
    next totalLen th₁ htotal =>
      obtain ⟨s₂, hpeek⟩ := peek cfg hpoll.worker (hpoll.thread hi) htotal
      split at hread
      next hshort =>
        cases hread
        rw [if_pos hshort] at hpeek
        exact ⟨s₂, hpoll.trans hpeek⟩
      next hlong' =>
        rw [if_neg hlong'] at hpeek
        obtain ⟨s₃, hfinish⟩ := read hpeek.worker (hpeek.thread (hpoll.thread hi)) hread
        rw [Thread.peekTotalLen_results htotal] at hfinish
        exact ⟨s₃, (hpoll.trans hpeek).trans hfinish⟩

end Reads

/-- The worker, alone, comes to the end of a visit as `drain_consumer` returns. -/
theorem drainConsumer_worked {didWork didWork' : Bool} {tally' : Tally t}
    (hs : s.worker = .poll down i budget rest) (hi : s.threads[i]? = some th)
    (hdrain : drainConsumer cfg i budget didWork th s.tally = some (didWork', th', tally')) :
    ∃ s', Worked cfg s s' ∧ s'.worker = .visit down rest ∧
      s'.threads = s.threads.set i th' ∧ s'.tally = tally' := by
  induction budget generalizing s th didWork with
  | zero =>
    cases hdrain
    have hwork : s.work cfg = some { s with worker := .visit down rest } := by rw [State.work, hs]
    have hsame : s.threads.set i th' = s.threads := by
      rw [← (List.getElem?_eq_some_iff.mp hi).choose_spec, List.set_getElem_self]
    exact ⟨_, .single hwork, rfl, hsame.symm, rfl⟩
  | succ budget ih =>
    unfold drainConsumer at hdrain
    split at hdrain
    · cases hdrain
    next th₁ hread =>
      cases hdrain
      obtain ⟨s', hreads⟩ := Reads.tryReadOne hs hi hread
      exact ⟨s', hreads.worked, hreads.worker, hreads.threads, hreads.tally⟩
    next raw th₁ hread =>
      obtain ⟨s₁, hreads⟩ := Reads.tryReadOne hs hi hread
      obtain ⟨s₂, hfanout, hw₂, hthreads₂, htally₂⟩ := fanout_worked cfg hreads.worker
      have hi₂ : s₂.threads[i]? = some th₁ := by
        rw [hthreads₂]
        exact hreads.thread hi
      have htally : s₂.tally = (cfg.dispatch i th.results.length raw).run s.tally := by
        rw [htally₂, hreads.tally]
        rfl
      rw [← htally] at hdrain
      obtain ⟨s', hworked, hw, hthreads, htally'⟩ := ih hw₂ hi₂ hdrain
      refine ⟨s', (hreads.worked.trans hfanout).trans hworked, hw, ?_, htally'⟩
      rw [hthreads, hthreads₂, hreads.threads, List.set_set]

end Worked

/-- The records of a batch up to the first one that does not decode. -/
def processed (cfg : Config t) (i : ℕ) : List (Entry t × ℕ) → List (Dispatch t)
  | [] => []
  | (e, j) :: batch =>
    match e.record.decoded (cfg.decoders i j) with
    | .ok raw => cfg.dispatch i j raw :: processed cfg i batch
    | _ => []

theorem processed_length_le (cfg : Config t) (i : ℕ) (batch : List (Entry t × ℕ)) :
    (processed cfg i batch).length ≤ batch.length := by
  induction batch with
  | nil => exact le_rfl
  | cons r batch ih =>
    unfold processed
    split
    · exact Nat.succ_le_succ ih
    · exact Nat.zero_le _

/-- The batch is processed up to a record if all before it decode. -/
theorem lt_processed_iff {batch : List (Entry t × ℕ)} {f : ℕ} (hf : f < batch.length) :
    f < (processed cfg i batch).length ↔
      ∀ (p : ℕ) r, p ≤ f → batch[p]? = some r →
        DecodersOk (cfg.decoders i r.2) r.1.record.args := by
  induction batch generalizing f with
  | nil => cases hf
  | cons r batch ih =>
    obtain ⟨e, j⟩ := r
    cases hd : e.record.decoded (cfg.decoders i j) with
    | ok raw =>
      have hok := Record.decoded_ok_iff.mp ⟨raw, hd⟩
      have hcons : processed cfg i ((e, j) :: batch) =
          cfg.dispatch i j raw :: processed cfg i batch := by rw [processed, hd]
      rw [hcons, List.length_cons]
      cases f with
      | zero =>
        refine ⟨fun _ p r hp hr => ?_, fun _ => Nat.succ_pos _⟩
        obtain rfl := Nat.le_zero.mp hp
        obtain rfl := Option.some.inj hr
        exact hok
      | succ f =>
        rw [Nat.succ_lt_succ_iff, ih (Nat.lt_of_succ_lt_succ hf)]
        constructor
        · rintro h (- | p) r hp hr
          · obtain rfl := Option.some.inj hr
            exact hok
          · exact h p r (Nat.le_of_succ_le_succ hp) hr
        · exact fun h p r hp hr => h (p + 1) r (Nat.succ_le_succ hp) hr
    | _ =>
      have hnil : processed cfg i ((e, j) :: batch) = [] := by rw [processed, hd]
      rw [hnil]
      refine ⟨fun h => absurd h (Nat.not_lt_zero f), fun h => ?_⟩
      obtain ⟨raw, hraw⟩ := Record.decoded_ok_iff.mpr (h 0 (e, j) (Nat.zero_le f) rfl)
      rw [hd] at hraw
      cases hraw

namespace ThreadInv

/-- With nothing unread, nothing is read. -/
theorem tryReadOne_nil (h : ThreadInv cfg k i th) (hu : th.unread = []) :
    th.tryReadOne cfg i = some (none, th.available.2) := by
  cases ha : th.available with
  | mk avail th₁ =>
    obtain ⟨-, hcases⟩ := h.available_unread ha
    have hzero := (hcases.resolve_right fun hne => hne.1 hu).2
    have hpos := SIZE_pos t
    simp only [Thread.tryReadOne, ha]
    rw [if_pos (by omega)]

/-- The header of the oldest unread record announces its size. -/
theorem peekTotalLen (h : ThreadInv cfg k i th) {r : LoggedRecord t} {off : ℕ}
    (hp : Placed (th.committed.map Entry.record) th.chunks th.results.length r off) :
    ∃ c, th.peekTotalLen = some (r.size, th.withConsumer c) ∧
      ThreadInv cfg k i (th.withConsumer c) := by
  obtain ⟨c, hpeek, hinv, -⟩ := h.peek hp
  refine ⟨c, ?_, hinv⟩
  simp only [Thread.peekTotalLen, hpeek, r.announces]

/-- `read` takes the oldest unread record, unless its decoder panics. -/
theorem readDecoded (h : ThreadInv cfg k i th) {e : Entry t} {off : ℕ}
    (he : th.committed[th.results.length]? = some e)
    (hp : Placed (th.committed.map Entry.record) th.chunks th.results.length e.record off)
    (hpanic : e.record.decoded (cfg.decoders i th.results.length) ≠ .panic) :
    ∃ th', ThreadInv cfg k i th' ∧ th'.committed = th.committed ∧
      th'.results.length = th.results.length + 1 ∧ th.readDecoded cfg i e.record.size =
        some ((e.record.decoded (cfg.decoders i th.results.length)).toOption, th') := by
  obtain ⟨av, c, hac, hle, hbytes, hinv, -, hahead⟩ := h.acquire hp
  have hpass : (t.checks && decide (av.toNat < e.record.size)) = false := by
    rw [decide_eq_false (Nat.not_lt.mpr hle), Bool.and_false]
  have hdecode := e.record.decodeRecord (cfg.decoders i th.results.length)
  have hadvance := hinv.advance he hp hahead hpanic
  refine ⟨_, hadvance, rfl, by simp [Thread.withConsumer], ?_⟩
  simp only [Thread.readDecoded, hac, hpass, Bool.false_eq_true, ↓reduceIte, Thread.withConsumer,
    hbytes, hdecode]

/-- With a record unread, the oldest is taken, and returned if it decodes. -/
theorem tryReadOne_cons (h : ThreadInv cfg k i th) {e : Entry t} {j : ℕ}
    {es : List (Entry t × ℕ)} (hu : th.unread = (e, j) :: es)
    (hpanic : e.record.decoded (cfg.decoders i j) ≠ .panic) :
    ∃ th', ThreadInv cfg k i th' ∧ th'.unread = es ∧ j = th.results.length ∧
      th'.results.length = th.results.length + 1 ∧
      th.tryReadOne cfg i = some ((e.record.decoded (cfg.decoders i j)).toOption, th') := by
  obtain ⟨he, rfl, rfl⟩ := Thread.of_unread_eq_cons hu
  have ha : th.available = (th.available.1, th.available.2) := rfl
  obtain ⟨hinv₁, -, -, -, hcases⟩ := h.available ha
  rcases hcases with ⟨htaken, -⟩ | ⟨r, off, hp, hle⟩
  · exact absurd htaken (List.getElem?_eq_some_iff.mp he).choose.ne
  · obtain ⟨e', he', rfl⟩ := Thread.entry_of_placed hp
    obtain rfl : e = e' := Option.some.inj (he.symm.trans he')
    obtain ⟨c, hpeek, hinv₂⟩ := hinv₁.peekTotalLen hp
    obtain ⟨th', hinv', hcommitted, hresults, hread⟩ := hinv₂.readDecoded he hp hpanic
    have hheader := (header_le_size e.record).trans hle
    refine ⟨th', hinv', ?_, rfl, hresults, ?_⟩
    · rw [Thread.unread, hcommitted, hresults]
      rfl
    · rw [Thread.tryReadOne_of_le hheader hpeek hle]
      exact hread

/-- A visit takes the processed records and the one that stops the batch, if any, and reports
work if a record was processed. -/
theorem drainConsumer (h : ThreadInv cfg k i th)
    (hpanics : ∀ r ∈ th.unread, ¬ DecoderPanics (cfg.decoders i r.2) r.1.record.args)
    (budget : ℕ) (didWork : Bool) (tally : Tally t) :
    let batch := th.unread.take budget
    let ds := processed cfg i batch
    ∃ th', ThreadInv cfg k i th' ∧
      th'.results.length = th.results.length + min (ds.length + 1) batch.length ∧
      Backend.drainConsumer cfg i budget didWork th tally =
        some (didWork || decide (0 < ds.length), th', dispatchAll ds tally) := by
  induction budget generalizing th didWork tally with
  | zero => exact ⟨th, h, by simp, by simp [Backend.drainConsumer, processed, dispatchAll]⟩
  | succ budget ih =>
    cases hu : th.unread with
    | nil =>
      have hsame : th.available.2.results = th.results := rfl
      refine ⟨th.available.2, (h.available rfl).1, by simp [hsame], ?_⟩
      simp [Backend.drainConsumer, h.tryReadOne_nil hu, processed, dispatchAll]
    | cons r es =>
      obtain ⟨e, j⟩ := r
      have hpanic : e.record.decoded (cfg.decoders i j) ≠ .panic := fun hp =>
        hpanics (e, j) (hu ▸ List.mem_cons_self) (Record.decoded_panic_iff.mp hp)
      obtain ⟨th₁, hinv, hes, rfl, hresults, hread⟩ := h.tryReadOne_cons hu hpanic
      have htail : ∀ r ∈ th₁.unread, ¬ DecoderPanics (cfg.decoders i r.2) r.1.record.args :=
        fun r hr => hpanics r (by rw [hu]; exact List.mem_cons_of_mem _ (hes ▸ hr))
      cases hd : e.record.decoded (cfg.decoders i th.results.length) with
      | ok raw =>
        obtain ⟨th', hinv', htaken, hdrain⟩ := ih hinv htail true
          ((cfg.dispatch i th.results.length raw).run tally)
        refine ⟨th', hinv', ?_, ?_⟩
        · simp only [List.take_succ_cons, processed, hd, List.length_cons]
          rw [htaken, hresults, hes]
          omega
        · simp only [List.take_succ_cons, processed, hd, List.length_cons, Backend.drainConsumer,
            hread, Outcome.toOption]
          rw [hdrain, hes]
          simp [dispatchAll]
      | err error =>
        refine ⟨th₁, hinv, ?_, ?_⟩
        · simp only [List.take_succ_cons, processed, hd, List.length_cons, List.length_nil]
          omega
        · simp [Backend.drainConsumer, hread, hd, Outcome.toOption, processed, dispatchAll]
      | panic => exact absurd hd hpanic

end ThreadInv

/-- The records at the head of the queue are taken, as many as a visit may take, and it counts
as work if there is one. -/
structure FullBatch (th th' : Thread t) (didWork : Bool) : Prop where
  taken : th'.results.length =
    th.results.length + min th.unread.length MAX_BATCH_PER_CONSUMER
  didWork : didWork = true ↔ 0 < th.unread.length

/-- A record of the batch that does not decode is the last one, and not the only one. -/
def FailsLast (cfg : Config t) (i : ℕ) (batch : List (Entry t × ℕ)) : Prop :=
  ∀ (f : ℕ) r, batch[f]? = some r → ¬ DecodersOk (cfg.decoders i r.2) r.1.record.args →
    0 < f ∧ f + 1 = batch.length

theorem failsLast_iff (batch : List (Entry t × ℕ)) : FailsLast cfg i batch ↔
    batch.length ≤ (processed cfg i batch).length + 1 ∧
      (0 < (processed cfg i batch).length ↔ 0 < batch.length) := by
  have hle := processed_length_le cfg i batch
  constructor
  · intro h
    rcases hle.eq_or_lt with heq | hlt
    · exact ⟨by omega, by rw [heq]⟩
    · -- the record that stops the batch
      have hstop := lt_irrefl (processed cfg i batch).length
      rw [lt_processed_iff hlt] at hstop
      push Not at hstop
      obtain ⟨p, r, hp, hr, hfails⟩ := hstop
      obtain ⟨hpos, hlast⟩ := h p r hr hfails
      omega
  · rintro ⟨hshort, hwork⟩ f r hr hfails
    have hf := (List.getElem?_eq_some_iff.mp hr).choose
    have hge : ¬ f < (processed cfg i batch).length := fun hlt =>
      hfails ((lt_processed_iff hf).mp hlt f r le_rfl hr)
    omega

/-- In every state that a run reaches, a visit takes a full batch if and only if no record of
the batch fails to decode, other than the last one after one that decodes. -/
theorem full_batch_iff (hs : (system cfg level).Reachable s) (hi : s.threads[i]? = some th)
    (hpanics : ∀ r ∈ th.unread, ¬ DecoderPanics (cfg.decoders i r.2) r.1.record.args)
    (tally : Tally t) : ∃ didWork th' tally',
      drainConsumer cfg i MAX_BATCH_PER_CONSUMER false th tally = some (didWork, th', tally') ∧
      (FullBatch th th' didWork ↔ FailsLast cfg i (th.unread.take MAX_BATCH_PER_CONSUMER)) := by
  obtain ⟨k, h⟩ := backend_invariant hs
  obtain ⟨th', -, htaken, hdrain⟩ :=
    (h.threads i th hi).inv.drainConsumer hpanics MAX_BATCH_PER_CONSUMER false tally
  refine ⟨_, th', _, hdrain, ?_⟩
  have hlen : (th.unread.take MAX_BATCH_PER_CONSUMER).length =
      min MAX_BATCH_PER_CONSUMER th.unread.length := List.length_take
  rw [failsLast_iff]
  constructor
  · rintro ⟨hfull, hwork⟩
    simp only [Bool.false_or, decide_eq_true_eq] at hwork
    exact ⟨by omega, hwork.trans (by rw [hlen]; simp [MAX_BATCH_PER_CONSUMER])⟩
  · rintro ⟨hshort, hwork⟩
    refine ⟨by omega, ?_⟩
    simp only [Bool.false_or, decide_eq_true_eq]
    exact hwork.trans (by rw [hlen]; simp [MAX_BATCH_PER_CONSUMER])

/-- Decoder `1` succeeds, and every other one fails. -/
def firstDecodes (decoder : small.Ptr) : Outcome Unit String :=
  if decoder = 1 then .ok "one" else .err ()

theorem firstDecodes_quiet (r : Entry small × ℕ) :
    ¬ DecoderPanics ((smallConfig firstDecodes).decoders 0 r.2) r.1.record.args := by
  rintro ⟨n, c, -, hpanic, -⟩
  simp only [smallConfig, firstDecodes] at hpanic
  split at hpanic <;> cases hpanic

/-- A thread logs two records. -/
def twoRecords (first second : small.Ptr) : List (Event small) :=
  [.spawn, .register 0] ++ logCall 0 (customRecord first) ++ logCall 0 (customRecord second)

/-- Both records are taken, although the second one does not decode. -/
theorem full_batch_iff_second_fails :
    ∃ s th didWork th' tally', (smallSystem firstDecodes).run (twoRecords 1 2) = some s ∧
      s.threads[0]? = some th ∧ th.unread.length = 2 ∧
      drainConsumer (smallConfig firstDecodes) 0 MAX_BATCH_PER_CONSUMER false th s.tally =
        some (didWork, th', tally') ∧ FullBatch th th' didWork := by
  have hrun : ((smallSystem firstDecodes).run (twoRecords 1 2)).bind (fun s =>
      (s.threads[0]?).map fun th => th.unread) =
      some [(⟨customRecord 1, .trace⟩, 0), (⟨customRecord 2, .trace⟩, 1)] := by decide +kernel
  obtain ⟨s, hs, hrun⟩ := Option.bind_eq_some_iff.mp hrun
  obtain ⟨th, hi, hunread⟩ := Option.map_eq_some_iff.mp hrun
  obtain ⟨didWork, th', tally', hdrain, hfull⟩ :=
    full_batch_iff ⟨_, hs⟩ hi (fun r _ => firstDecodes_quiet r) s.tally
  refine ⟨s, th, didWork, th', tally', hs, hi, by rw [hunread]; rfl, hdrain, hfull.mpr ?_⟩
  rw [hunread]
  rintro (- | - | f) r hr hfails
  · obtain rfl := Option.some.inj hr
    exact absurd (Record.decoded_ok_iff.mp ⟨_, rfl⟩) hfails
  · exact ⟨Nat.one_pos, rfl⟩
  · cases hr

/-- When the first of two records does not decode, the second one stays in the queue, and the
worker is told that there was nothing to do. -/
theorem failed_decode_ends_batch :
    ∃ s th th' tally', (smallSystem firstDecodes).run (twoRecords 2 1) = some s ∧
      s.threads[0]? = some th ∧ th.unread.length = 2 ∧
      (∀ r ∈ th.unread, ¬ DecoderPanics ((smallConfig firstDecodes).decoders 0 r.2)
        r.1.record.args) ∧
      drainConsumer (smallConfig firstDecodes) 0 MAX_BATCH_PER_CONSUMER false th s.tally =
        some (false, th', tally') ∧
      th'.unread.length = 1 ∧ ¬ FullBatch th th' false := by
  have hrun : ((smallSystem firstDecodes).run (twoRecords 2 1)).bind (fun s =>
      (s.threads[0]?).bind fun th => (drainConsumer (smallConfig firstDecodes) 0
        MAX_BATCH_PER_CONSUMER false th s.tally).map fun p =>
          (th.unread.length, p.1, p.2.1.unread.length)) = some (2, false, 1) := by decide +kernel
  obtain ⟨s, hs, hrun⟩ := Option.bind_eq_some_iff.mp hrun
  obtain ⟨th, hi, hrun⟩ := Option.bind_eq_some_iff.mp hrun
  obtain ⟨⟨didWork, th', tally'⟩, hdrain, hvalues⟩ := Option.map_eq_some_iff.mp hrun
  simp only [Prod.mk.injEq] at hvalues
  obtain ⟨hunread, rfl, hleft⟩ := hvalues
  refine ⟨s, th, th', tally', hs, hi, hunread, fun r _ => firstDecodes_quiet r, hdrain, hleft, ?_⟩
  rintro ⟨-, hwork⟩
  cases hwork.mpr (by omega)

end Insomnilog.Backend
