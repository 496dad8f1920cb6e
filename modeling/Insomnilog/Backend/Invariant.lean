import Insomnilog.Backend.History
import Insomnilog.Backend.ThreadInvariant

/-! The invariant of the backend: each thread's queue, what was made of its records, and
what the worker relies on between its steps. -/
namespace Insomnilog.Backend
open ByteStore Wire Queue Framing Frontend

variable {t : Target} {cfg : Config t} {k i : ℕ} {s s' : State t} {th th' : Thread t}
  {w : Worker t} {l rest : List ℕ}

/-- The thread has exited and all its records are taken. -/
def Thread.Finished (th : Thread t) : Prop :=
  th.alive = false ∧ th.results.length = th.committed.length

theorem Keeps.finished (h : Keeps th th') (hf : th.Finished) : th'.Finished := by
  obtain ⟨halive, hcommitted⟩ := h.dead hf.1
  exact ⟨halive, by rw [h.results, hcommitted, hf.2]⟩

theorem Keeps.placed {r : LoggedRecord t} {off : ℕ} (h : Keeps th th')
    (hp : Placed (th.committed.map Entry.record) th.chunks th.results.length r off) :
    Placed (th'.committed.map Entry.record) th'.chunks th'.results.length r off := by
  rw [h.results]
  exact hp.mono (h.committed.map _) h.chunks

theorem Keeps.next {e : Entry t} (h : Keeps th th')
    (he : th.committed[th.results.length]? = some e) :
    th'.committed[th'.results.length]? = some e := by
  obtain ⟨es, hes⟩ := h.committed
  rw [h.results, ← hes, List.getElem?_append_left (List.getElem?_eq_some_iff.mp he).choose]
  exact he

/-- Thread `i` exists and satisfies `P`. -/
def State.At (s : State t) (i : ℕ) (P : Thread t → Prop) : Prop :=
  ∃ th, s.threads[i]? = some th ∧ P th

theorem State.getElem?_setThread {s : State t} {i : ℕ} {th : Thread t}
    (hi : s.threads[i]? = some th) (th' : Thread t) :
    (s.setThread i th').threads[i]? = some th' :=
  List.getElem?_set_self (List.getElem?_eq_some_iff.mp hi).choose

theorem State.At.get {s : State t} {i : ℕ} {P : Thread t → Prop} {th : Thread t} (h : s.At i P)
    (hi : s.threads[i]? = some th) : P th := by
  obtain ⟨u, hu, hP⟩ := h
  obtain rfl := Option.some.inj (hi.symm.trans hu)
  exact hP

def State.InRange (s : State t) (l : List ℕ) : Prop := ∀ i ∈ l, i < s.threads.length

/-- A flag loaded as set was stored before. -/
def State.Down (s : State t) (down : Bool) : Prop := down = true → ∃ m, s.mark = some m

/-- Every registered consumer is in `l`, or has nothing more to give. -/
def State.Covered (s : State t) (l : List ℕ) : Prop :=
  s.InRange l ∧ ∀ i ∈ s.consumers, i ∈ l ∨ s.At i Thread.Finished

/-- Outside of `rest`, the records committed before the flag was stored are taken. -/
def State.Drained (s : State t) (rest : List ℕ) : Prop :=
  ∃ m, s.mark = some m ∧
    ∀ i n, m[i]? = some n → i ∈ rest ∨ s.At i fun th => n ≤ th.results.length

/-- `f` is the fan-out of the thread's last taken record, before `sinks`. -/
def FanoutOk (cfg : Config t) (f : Fanout t) (sinks : List ℕ) (th : Thread t) : Prop :=
  ∃ pre raw, th.results = pre ++ [.ok raw] ∧ f.index = pre.length ∧
    f.record = cfg.logRecord raw ∧ sinks = (cfg.logger raw.loggerPtr).sinks.drop f.position

/-- The oldest unread record has been decoded, and the cached write position lies
beyond it. -/
def DecodedOk (cfg : Config t) (i totalLen : ℕ) (result : Decoded (RawDecodedRecord t))
    (th : Thread t) : Prop :=
  ∃ e off, th.committed[th.results.length]? = some e ∧
    Placed (th.committed.map Entry.record) th.chunks th.results.length e.record off ∧
    totalLen = e.record.size ∧ Ahead th.chunks th.results.length th.q.consumer ∧
    result = e.record.decoded (cfg.decoders i th.results.length) ∧ result ≠ .panic

/-- What the worker relies on. -/
def WorkerOk (cfg : Config t) (s : State t) : Worker t → Prop
  | .top => True
  | .snapshot down => s.Down down
  | .visit down rest => s.Down down ∧ s.InRange rest
  | .poll down i _ rest => s.Down down ∧ s.InRange (i :: rest)
  | .peek down i _ avail rest => s.Down down ∧ s.InRange (i :: rest) ∧ s.At i fun th =>
      ∃ r off, Placed (th.committed.map Entry.record) th.chunks th.results.length r off ∧
        r.size ≤ avail.toNat
  | .read down i _ totalLen rest => s.Down down ∧ s.InRange (i :: rest) ∧ s.At i fun th =>
      ∃ r off, Placed (th.committed.map Entry.record) th.chunks th.results.length r off ∧
        totalLen = r.size
  | .advance down i _ totalLen result rest => s.Down down ∧ s.InRange (i :: rest) ∧
      s.At i (DecodedOk cfg i totalLen result)
  | .fanout down _ rest f sinks => s.Down down ∧ s.InRange (f.thread :: rest) ∧
      s.At f.thread (FanoutOk cfg f sinks)
  | .retire down kept rest => s.Down down ∧ s.Covered (kept ++ rest)
  | .retireDead down kept i rest => s.Down down ∧ s.Covered (kept ++ i :: rest) ∧
      s.At i fun th => th.alive = false
  | .beforePending => s.Down true
  | .pending rest => s.InRange rest ∧ s.Drained rest
  | .done => cfg.waitForDrain = true → s.Drained []
  | .unwound => ∃ i, s.At i fun th => ∃ e, th.committed[th.results.length]? = some e ∧
      e.record.decoded (cfg.decoders i th.results.length) = .panic

/-- Thread `i`, with what was made of the records taken from it. -/
structure ThreadFacts (cfg : Config t) (k : ℕ) (s : State t) (i : ℕ) (th : Thread t) : Prop where
  inv : ThreadInv cfg k i th
  fanned : s.fanned.filter (fun p => p.1 = i) = overDecoded (fun j _ => [(i, j)]) th.results
  calls : s.calls.filter (fun c => c.thread = i) ++ s.worker.toCome cfg i =
    overDecoded (cfg.callsFor i) th.results
  registered : th.registered = true → i ∈ s.consumers ∨ th.Finished

/-- Calls rejected by all threads. -/
def State.rejected (s : State t) : ℕ := (s.threads.map Thread.rejected).sum

structure BackendInv (cfg : Config t) (k : ℕ) (s : State t) : Prop where
  rounded : roundUp cfg.queueCapacity.toNat = 2 ^ k
  threads : ∀ i th, s.threads[i]? = some th → ThreadFacts cfg k s i th
  consumers : s.InRange s.consumers
  worker : WorkerOk cfg s s.worker
  flag : s.shutdownFlag = s.mark.isSome
  mark : ∀ m i n, s.mark = some m → m[i]? = some n → s.At i fun th => n ≤ th.committed.length
  fanned : ∀ p ∈ s.fanned, p.1 < s.threads.length
  calls : ∀ c ∈ s.calls, c.thread < s.threads.length
  writeErrors : s.writeErrors = s.calls.countP (SinkCall.failed .write)
  flushErrors : s.flushErrors = s.calls.countP (SinkCall.failed .flush)
  panicCount : s.panicCount = s.calls.countP SinkCall.panicked
  dropped : s.droppedRecords = s.rejected

/-- Every thread is still there, with what it keeps, and the mark stays. -/
structure Later (s s' : State t) : Prop where
  threads : ∀ (i : ℕ) (th : Thread t), s.threads[i]? = some th →
    ∃ th' : Thread t, s'.threads[i]? = some th' ∧ Keeps th th'
  mark : ∀ m : List ℕ, s.mark = some m → s'.mark = some m

namespace Later

theorem at_mono (h : Later s s') {P P' : Thread t → Prop}
    (hp : ∀ th th', Keeps th th' → P th → P' th') (hat : s.At i P) : s'.At i P' := by
  obtain ⟨th, hth, hP⟩ := hat
  obtain ⟨th', hth', hk⟩ := h.threads i th hth
  exact ⟨th', hth', hp th th' hk hP⟩

theorem finished (h : Later s s') (hat : s.At i Thread.Finished) : s'.At i Thread.Finished :=
  h.at_mono (fun _ _ hk => hk.finished) hat

theorem inRange (h : Later s s') (hl : s.InRange l) : s'.InRange l := by
  intro i hi
  obtain ⟨th', hth', -⟩ := h.threads i _ (List.getElem?_eq_getElem (hl i hi))
  exact (List.getElem?_eq_some_iff.mp hth').choose

theorem down {down : Bool} (h : Later s s') (hd : s.Down down) : s'.Down down := by
  intro hdown
  obtain ⟨m, hm⟩ := hd hdown
  exact ⟨m, h.mark m hm⟩

theorem covered (h : Later s s') (hc : s.Covered l) (hs : s'.consumers = s.consumers) :
    s'.Covered l := by
  refine ⟨h.inRange hc.1, fun i hi => ?_⟩
  rw [hs] at hi
  exact (hc.2 i hi).imp_right h.finished

theorem drained (h : Later s s') (hd : s.Drained rest) : s'.Drained rest := by
  obtain ⟨m, hm, hn⟩ := hd
  refine ⟨m, h.mark m hm, fun i n hi => (hn i n hi).imp_right ?_⟩
  exact h.at_mono fun th th' hk hle => by rw [hk.results]; exact hle

end Later

/-- The threads cannot take away what the worker relies on. -/
theorem WorkerOk.mono (h : WorkerOk cfg s w) (hl : Later s s')
    (hc : w.locksRegistry = true → s'.consumers = s.consumers) : WorkerOk cfg s' w := by
  cases w with
  | top => trivial
  | snapshot down => exact hl.down h
  | visit down rest => exact ⟨hl.down h.1, hl.inRange h.2⟩
  | poll down i budget rest => exact ⟨hl.down h.1, hl.inRange h.2⟩
  | peek down i budget avail rest =>
    refine ⟨hl.down h.1, hl.inRange h.2.1, hl.at_mono ?_ h.2.2⟩
    rintro th th' hk ⟨r, off, hp, ha⟩
    exact ⟨r, off, hk.placed hp, ha⟩
  | read down i budget totalLen rest =>
    refine ⟨hl.down h.1, hl.inRange h.2.1, hl.at_mono ?_ h.2.2⟩
    rintro th th' hk ⟨r, off, hp, hlen⟩
    exact ⟨r, off, hk.placed hp, hlen⟩
  | advance down i budget totalLen result rest =>
    refine ⟨hl.down h.1, hl.inRange h.2.1, hl.at_mono ?_ h.2.2⟩
    rintro th th' hk ⟨e, off, he, hp, hlen, ha, hd, hne⟩
    exact ⟨e, off, hk.next he, hk.placed hp, hlen, hk.ahead ha, by rw [hk.results]; exact hd, hne⟩
  | fanout down budget rest f sinks =>
    refine ⟨hl.down h.1, hl.inRange h.2.1, hl.at_mono (fun th th' hk hf => ?_) h.2.2⟩
    unfold FanoutOk at hf ⊢
    rw [hk.results]
    exact hf
  | retire down kept rest => exact ⟨hl.down h.1, hl.covered h.2 (hc rfl)⟩
  | retireDead down kept i rest =>
    exact ⟨hl.down h.1, hl.covered h.2.1 (hc rfl),
      hl.at_mono (fun th th' hk hd => (hk.dead hd).1) h.2.2⟩
  | beforePending => exact hl.down h
  | pending rest => exact ⟨hl.inRange h.1, hl.drained h.2⟩
  | done => exact fun hwait => hl.drained (h hwait)
  | unwound =>
    obtain ⟨i, hat⟩ := h
    refine ⟨i, hl.at_mono ?_ hat⟩
    rintro th th' hk ⟨e, he, hpanic⟩
    exact ⟨e, hk.next he, by rw [hk.results]; exact hpanic⟩

/-- Only records of existing threads are fanned out. -/
theorem WorkerOk.toCome_eq_nil (h : WorkerOk cfg s w) (hi : s.threads.length ≤ i) :
    w.toCome cfg i = [] := by
  cases w with
  | fanout down budget rest f sinks =>
    have hlt := h.2.1 f.thread List.mem_cons_self
    simp only [Worker.toCome]
    rw [if_neg (by omega)]
  | _ => rfl

end Insomnilog.Backend
